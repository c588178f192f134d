import DelayLedger.Membership.Roll
import DelayLedger.Retarget

/-!
# Checking blocks

`validate` checks a block as a child of another: first the link, then hash, signature, proof,
timestamp, difficulty, changes and set; the first failure is reported.  A timestamp may not precede
the parent's and may run at most `clockDrift` seconds ahead of the clock.  `checkGenesis` checks the
first block of a chain.  `validate_eq_ok_iff` and `checkGenesis_eq_ok_iff` list what accepted blocks
satisfy.
-/

namespace DelayLedger

inductive ValidationError
  | linkMismatch (tipHeight height : UInt64)
  | hashMismatch
  | invalidSignature
  | invalidProof
  | timestampOutOfRange (earliest latest got : UInt64)
  | difficultyMismatch (expected got : UInt64)
  | invalidMembership (cause : MembershipError)
  | consensusSetMismatch
deriving DecidableEq, Repr

namespace ValidationError

def message : ValidationError → String
  | linkMismatch tipHeight height =>
    s!"link mismatch: tip at height {tipHeight}, candidate at height {height}"
  | hashMismatch => "hash does not match block contents"
  | invalidSignature => "producer signature invalid"
  | invalidProof => "VDF proof does not verify against parent"
  | timestampOutOfRange earliest latest got => s!"timestamp {got} outside [{earliest}, {latest}]"
  | difficultyMismatch expected got => s!"difficulty mismatch: expected {expected}, got {got}"
  | invalidMembership cause => s!"membership change rejected: {cause.message}"
  | consensusSetMismatch => "consensus nodes do not follow from parent, changes and proof"

/-- A short label that stays the same when messages change. -/
def label : ValidationError → String
  | linkMismatch .. => "link_mismatch"
  | hashMismatch => "hash_mismatch"
  | invalidSignature => "invalid_signature"
  | invalidProof => "invalid_proof"
  | timestampOutOfRange .. => "timestamp_out_of_range"
  | difficultyMismatch .. => "difficulty_mismatch"
  | invalidMembership .. => "invalid_membership"
  | consensusSetMismatch => "consensus_set_mismatch"

end ValidationError

/-- How many seconds a timestamp may run ahead of the clock. -/
def clockDrift : Nat := 30

def latestTimestamp (now : UInt64) : UInt64 := UInt64.ofNat (min (now.toNat + clockDrift) maxWord)

/-- Whether a block continues another: it names its hash and is one higher. -/
def Block.continues (candidate parent : Block) : Bool :=
  candidate.previousHash == some parent.hash &&
    candidate.height.toNat == parent.height.toNat + 1

/-- The proof of a block over the difficulty and hash of its parent, if it verifies. -/
def Block.proofOver? (s : Suite) (candidate parent : Block) : Option DelayProof :=
  candidate.proof.filter (Delay.verify s parent.difficulty parent.hash.bytes)

def validateSet (s : Suite) (parent candidate : Block) (proof : DelayProof) :
    Except ValidationError Unit :=
  match Membership.next s parent candidate.producer candidate.changes proof.toBytes with
  | .error cause => .error (.invalidMembership cause)
  | .ok nodes => if candidate.nodes = nodes then .ok () else .error .consensusSetMismatch

/-- Checks `candidate` as a child of `parent` when the clock shows `now`. -/
def validate (s : Suite) (policy : Policy) (now : UInt64) (parent candidate : Block) :
    Except ValidationError Unit :=
  if !candidate.continues parent then .error (.linkMismatch parent.height candidate.height)
  else if !candidate.hashMatches s then .error .hashMismatch
  else if !candidate.isSigned s then .error .invalidSignature
  else
    match candidate.proofOver? s parent with
    | none => .error .invalidProof
    | some proof =>
      if candidate.timestamp < parent.timestamp ∨ latestTimestamp now < candidate.timestamp then
        .error (.timestampOutOfRange parent.timestamp (latestTimestamp now) candidate.timestamp)
      else
        let expected := policy.next parent.difficulty parent.timestamp candidate.timestamp
        if candidate.difficulty ≠ expected then
          .error (.difficultyMismatch expected candidate.difficulty)
        else validateSet s parent candidate proof

/-- A block that does not continue its parent is rejected for its link, whatever else it is. -/
theorem validate_of_not_continues {s : Suite} {policy : Policy} {now : UInt64}
    {parent candidate : Block} (h : candidate.continues parent = false) :
    validate s policy now parent candidate =
      .error (.linkMismatch parent.height candidate.height) := by
  rw [validate, h]
  rfl

/-- A block with a wrong hash is rejected for it, once it continues its parent. -/
theorem validate_of_not_hashMatches {s : Suite} {policy : Policy} {now : UInt64}
    {parent candidate : Block} (hlink : candidate.continues parent = true)
    (h : candidate.hashMatches s = false) :
    validate s policy now parent candidate = .error .hashMismatch := by
  rw [validate, hlink, h]
  rfl

theorem validateSet_eq_ok_iff {s : Suite} {parent candidate : Block} {proof : DelayProof} :
    validateSet s parent candidate proof = .ok () ↔
      Membership.next s parent candidate.producer candidate.changes proof.toBytes =
        .ok candidate.nodes := by
  rw [validateSet]
  cases Membership.next s parent candidate.producer candidate.changes proof.toBytes with
  | error cause => simp
  | ok nodes =>
    simp only [Except.ok.injEq]
    split
    · next h => simp [h]
    · next h => simpa using fun hn => h hn.symm

theorem validate_eq_ok_iff {s : Suite} {policy : Policy} {now : UInt64} {parent candidate : Block} :
    validate s policy now parent candidate = .ok () ↔
      candidate.continues parent = true ∧ candidate.hashMatches s = true ∧
        candidate.isSigned s = true ∧
        ∃ proof, candidate.proofOver? s parent = some proof ∧
          parent.timestamp ≤ candidate.timestamp ∧ candidate.timestamp ≤ latestTimestamp now ∧
          candidate.difficulty =
            policy.next parent.difficulty parent.timestamp candidate.timestamp ∧
          Membership.next s parent candidate.producer candidate.changes proof.toBytes =
            .ok candidate.nodes := by
  rw [validate]
  split
  · next h => simp_all
  split
  · next h => simp_all
  split
  · next h => simp_all
  split
  · next h => simp_all
  · next proof hproof =>
    simp only [hproof, Option.some.injEq, exists_eq_left']
    split
    · next h =>
      simp only [reduceCtorEq, false_iff]
      rintro ⟨_, _, _, hearly, hlate, _⟩
      exact h.elim (UInt64.not_lt.mpr hearly) (UInt64.not_lt.mpr hlate)
    · next h =>
      rw [not_or, UInt64.not_lt, UInt64.not_lt] at h
      split
      · next hd => simp_all
      · next hd => simp_all [validateSet_eq_ok_iff]

inductive GenesisError
  | notFirst
  | hasProof
  | zeroDifficulty
  | hashMismatch
  | invalidSignature
deriving DecidableEq, Repr

def GenesisError.message : GenesisError → String
  | .notFirst => "genesis must be height 0 with no parent"
  | .hasProof => "genesis carries no proof"
  | .zeroDifficulty => "difficulty must be positive"
  | .hashMismatch => "hash does not match contents"
  | .invalidSignature => "signature invalid"

def checkGenesis (s : Suite) (b : Block) : Except GenesisError Unit :=
  if !b.isGenesis then .error .notFirst
  else if b.proof.isSome then .error .hasProof
  else if b.difficulty = 0 then .error .zeroDifficulty
  else if !b.hashMatches s then .error .hashMismatch
  else if !b.isSigned s then .error .invalidSignature
  else .ok ()

theorem checkGenesis_eq_ok_iff {s : Suite} {b : Block} :
    checkGenesis s b = .ok () ↔
      b.isGenesis = true ∧ b.proof = none ∧ b.difficulty ≠ 0 ∧ b.hashMatches s = true ∧
        b.isSigned s = true := by
  rw [checkGenesis]
  split
  · next h => simp_all
  split
  · next h =>
    rw [← Option.not_isSome_iff_eq_none]
    simp_all
  · next h =>
    rw [Option.not_isSome_iff_eq_none] at h
    split
    · next hd => simp_all
    split
    · next hm => simp_all
    split
    · next hs => simp_all
    · next hs => simp_all

end DelayLedger
