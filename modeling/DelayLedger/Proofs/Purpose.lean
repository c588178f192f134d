import DelayLedger.Command.Keygen
import DelayLedger.Proofs.Block.Preimage
import DelayLedger.Suite.Standard

/-!
# What is signed

A signature is made for one of four purposes: to seal a block, to ask for a change of membership, to
show that the halves of a keypair belong together, and to try new keys.  What is signed tells the
purpose, where identities have the size of a public key (`Purpose.message_injective`).  So whatever
signatures somebody has for one purpose, or can make, they change nothing for any other
(`Suite.sameBut_altered`).
-/

namespace DelayLedger

/-! ### Changes of membership -/

namespace Change

variable {identity identity' : Bytes} {action action' : Action} {requestedAt requestedAt' : UInt64}

theorem length_signingBytes (identity : Bytes) (action : Action) (requestedAt : UInt64) :
    (signingBytes identity action requestedAt).length = 31 + identity.length := by
  have hdomain : domain.length = 22 := by decide +kernel
  rw [signingBytes, List.length_append, List.length_append, List.length_append, hdomain,
    List.length_singleton, Bytes.length_ofWord]

/-- **What is signed tells the request.**  All that comes before the identity has a fixed width. -/
theorem signingBytes_injective
    (h : signingBytes identity action requestedAt = signingBytes identity' action' requestedAt') :
    identity = identity' ∧ action = action' ∧ requestedAt = requestedAt' := by
  rw [signingBytes, signingBytes, List.append_assoc, List.append_assoc, List.append_assoc,
    List.append_assoc] at h
  obtain ⟨htag, hrest⟩ := List.cons.inj (List.append_cancel_left h)
  obtain ⟨hword, hidentity⟩ := Block.ofWord_append_inj hrest
  exact ⟨hidentity, Action.tag_injective htag, hword⟩

end Change

/-! ### Purposes -/

inductive Purpose
  | block (hash : Digest)
  | membership (identity : Bytes) (action : Action) (requestedAt : UInt64)
  | keystore
  | selfTest

namespace Purpose

def message : Purpose → Bytes
  | block hash => hash.bytes
  | membership identity action requestedAt => Change.signingBytes identity action requestedAt
  | keystore => Suite.probe
  | selfTest => Command.Keygen.selfTest

/-- Who asks for a change has a public key of the size that is demanded. -/
def Admitted : Purpose → Prop
  | membership identity _ _ => identity.length = 1952
  | _ => True

def size : Purpose → Nat
  | block _ => 32
  | membership _ _ _ => 1983
  | keystore => 23
  | selfTest => 25

theorem length_message {p : Purpose} (h : p.Admitted) : p.message.length = p.size := by
  cases p with
  | block hash => exact hash.length_eq
  | membership identity action requestedAt =>
    have hidentity : identity.length = 1952 := h
    rw [message, Change.length_signingBytes, hidentity]
    rfl
  | keystore => decide +kernel
  | selfTest => decide +kernel

/-- **What is signed tells the purpose.**  The sizes tell its kind. -/
theorem message_injective {p q : Purpose} (hp : p.Admitted) (hq : q.Admitted)
    (h : p.message = q.message) : p = q := by
  have hsize : p.size = q.size := by rw [← length_message hp, ← length_message hq, h]
  cases p with
  | block hash =>
    cases q with
    | block hash' => rw [Digest.ext h]
    | _ => exact nomatch hsize
  | membership identity action requestedAt =>
    cases q with
    | membership identity' action' requestedAt' =>
      obtain ⟨rfl, rfl, rfl⟩ := Change.signingBytes_injective h
      rfl
    | _ => exact nomatch hsize
  | keystore =>
    cases q with
    | keystore => rfl
    | _ => exact nomatch hsize
  | selfTest =>
    cases q with
    | selfTest => rfl
    | _ => exact nomatch hsize

end Purpose

/-! ### Signatures over one message -/

namespace Suite

/-- A suite in which signatures of one message are made and accepted in another way. -/
def altered (s : Suite) (message : Bytes) (sign : Bytes → Bytes) (accepts : Bytes → Bytes → Bool) :
    Suite :=
  { s with
    sign := fun secret m => if m = message then sign secret else s.sign secret m
    accepts := fun key m signature =>
      if m = message then accepts key signature else s.accepts key m signature }

variable {s : Suite} {message m : Bytes} {sign : Bytes → Bytes} {accepts : Bytes → Bytes → Bool}

theorem sign_altered (h : m ≠ message) (secret : Bytes) :
    (s.altered message sign accepts).sign secret m = s.sign secret m := if_neg h

theorem verify_altered (h : m ≠ message) (key signature : Bytes) :
    (s.altered message sign accepts).verify key m signature = s.verify key m signature := by
  have haccepts : (s.altered message sign accepts).accepts key m signature =
      s.accepts key m signature := if_neg h
  rw [verify, verify, haccepts]
  rfl

theorem verifies_eq_of_verify_eq {t : Suite} {key signature : Bytes}
    (h : t.verify key m signature = s.verify key m signature) :
    t.verifies key m signature = s.verifies key m signature := by
  rw [verifies, verifies, h]

theorem verifies_altered (h : m ≠ message) (key signature : Bytes) :
    (s.altered message sign accepts).verifies key m signature = s.verifies key m signature :=
  verifies_eq_of_verify_eq (verify_altered h key signature)

theorem joinKeys_altered (h : probe ≠ message) (publicKey secretKey : Bytes) :
    (s.altered message sign accepts).joinKeys publicKey secretKey = s.joinKeys publicKey secretKey := by
  rw [joinKeys, joinKeys, sign_altered h, verifies_altered h]
  rfl

theorem load_altered (h : probe ≠ message) (t : FileTree) (folder name : String) :
    Keystore.load (s.altered message sign accepts) t folder name = Keystore.load s t folder name := by
  unfold Keystore.load
  simp only [joinKeys_altered h]

theorem keygen_altered (hprobe : probe ≠ message) (htest : Command.Keygen.selfTest ≠ message)
    (seed : Bytes) (args : List String) (t : FileTree) :
    Command.Keygen.run (s.altered message sign accepts) seed args t =
      Command.Keygen.run s seed args t := by
  have hgenerate : (s.altered message sign accepts).generate seed = s.generate seed := rfl
  unfold Command.Keygen.run Command.Keygen.make
  simp only [hgenerate, load_altered hprobe, sign_altered htest, verifies_altered htest]

/-! ### Checking blocks -/

theorem apply_altered {c : Change}
    (h : c.isSigned (s.altered message sign accepts) = c.isSigned s) (height : UInt64)
    (producer : Bytes) (members : List Bytes) :
    Membership.apply (s.altered message sign accepts) height producer members c =
      Membership.apply s height producer members c := by
  rw [Membership.apply, Membership.apply, h]

theorem applyAll_altered {changes : List Change}
    (h : ∀ c ∈ changes, c.isSigned (s.altered message sign accepts) = c.isSigned s)
    (height : UInt64) (producer : Bytes) (seen members : List Bytes) :
    Membership.applyAll (s.altered message sign accepts) height producer seen members changes =
      Membership.applyAll s height producer seen members changes := by
  induction changes generalizing seen members with
  | nil => rfl
  | cons c changes ih =>
    have ih := ih fun d hd => h d (List.mem_cons_of_mem c hd)
    rw [Membership.applyAll, Membership.applyAll, apply_altered (h c List.mem_cons_self)]
    simp only [ih]

theorem validate_of_isSigned_eq {b : Block}
    (hblock : b.isSigned (s.altered message sign accepts) = b.isSigned s)
    (hchanges : ∀ c ∈ b.changes, c.isSigned (s.altered message sign accepts) = c.isSigned s)
    (policy : Policy) (now : UInt64) (parent : Block) :
    validate (s.altered message sign accepts) policy now parent b =
      validate s policy now parent b := by
  have hset : ∀ proof, validateSet (s.altered message sign accepts) parent b proof =
      validateSet s parent b proof := by
    intro proof
    rw [validateSet, validateSet, Membership.next, Membership.next, applyAll_altered hchanges]
    rfl
  have hhash : b.hashMatches (s.altered message sign accepts) = b.hashMatches s := rfl
  have hproof : b.proofOver? (s.altered message sign accepts) parent = b.proofOver? s parent := rfl
  rw [validate, validate, hhash, hblock, hproof]
  simp only [hset]

/-! ### Purposes kept apart -/

/-- Two suites make and accept the same signatures for every purpose but one. -/
structure SameBut (p : Purpose) (s t : Suite) : Prop where
  sealWith : ∀ (b : Block) keys, p ≠ .block (b.contentHash s) → b.sealWith t keys = b.sealWith s keys
  verify_block : ∀ b : Block, p ≠ .block b.hash → b.verify t = b.verify s
  signed : ∀ (keys : Keypair) action requestedAt, keys.publicKey.length = 1952 →
    p ≠ .membership keys.publicKey action requestedAt →
    Change.signed t keys action requestedAt = Change.signed s keys action requestedAt
  verify_change : ∀ c : Change, p ≠ .membership c.identity c.action c.requestedAt →
    c.verify t = c.verify s
  validate : ∀ policy now parent (b : Block), p ≠ .block b.hash →
    (∀ c ∈ b.changes, p ≠ .membership c.identity c.action c.requestedAt) →
    validate t policy now parent b = validate s policy now parent b
  joinKeys : p ≠ .keystore → t.joinKeys = s.joinKeys
  keygen : p ≠ .keystore → p ≠ .selfTest → Command.Keygen.run t = Command.Keygen.run s

/-- **Signatures for one purpose change nothing for the others**, whoever makes and accepts them. -/
theorem sameBut_altered {p : Purpose} (hsize : s.publicSize = 1952) (hp : p.Admitted)
    (sign : Bytes → Bytes) (accepts : Bytes → Bytes → Bool) :
    SameBut p s (s.altered p.message sign accepts) := by
  have hapart : ∀ {q : Purpose}, q.Admitted → p ≠ q → q.message ≠ p.message :=
    fun hq hne h => hne (Purpose.message_injective hp hq h.symm)
  have hblock : ∀ b : Block, p ≠ .block b.hash →
      b.verify (s.altered p.message sign accepts) = b.verify s :=
    fun b hne => verify_altered (hapart (q := .block b.hash) trivial hne) _ _
  have hchange : ∀ c : Change, p ≠ .membership c.identity c.action c.requestedAt →
      c.verify (s.altered p.message sign accepts) = c.verify s := by
    intro c hne
    by_cases hidentity : c.identity.length = 1952
    · exact verify_altered
        (hapart (q := .membership c.identity c.action c.requestedAt) hidentity hne) _ _
    · -- an identity of another size is refused before anything is signed
      have hrefused : c.identity.length ≠ s.publicSize := hsize ▸ hidentity
      rw [Change.verify, Change.verify, verify, verify, if_pos hrefused]
      exact if_pos hrefused
  refine {
    sealWith := ?_
    verify_block := hblock
    signed := ?_
    verify_change := hchange
    validate := ?_
    joinKeys := ?_
    keygen := ?_ }
  · intro b keys hne
    have hmessage := hapart (q := .block (b.contentHash s)) trivial hne
    have hsign : (s.altered p.message sign accepts).sign keys.secretKey (b.contentHash s).bytes =
        s.sign keys.secretKey (b.contentHash s).bytes := sign_altered hmessage keys.secretKey
    have hhash : b.contentHash (s.altered p.message sign accepts) = b.contentHash s := rfl
    rw [Block.sealWith, Block.sealWith, hhash]
    exact congrArg (fun signature => { b with hash := b.contentHash s, signature := signature }) hsign
  · intro keys action requestedAt hidentity hne
    have hmessage : Change.signingBytes keys.publicKey action requestedAt ≠ p.message :=
      hapart (q := .membership keys.publicKey action requestedAt) hidentity hne
    rw [Change.signed, Change.signed, sign_altered hmessage]
  · intro policy now parent b hne hchanges
    exact validate_of_isSigned_eq (verifies_eq_of_verify_eq (hblock b hne))
      (fun c hc => verifies_eq_of_verify_eq (hchange c (hchanges c hc))) policy now parent
  · intro hne
    funext publicKey secretKey
    exact joinKeys_altered (hapart (q := .keystore) trivial hne) publicKey secretKey
  · intro hkeystore htest
    funext seed args t
    exact keygen_altered (hapart (q := .keystore) trivial hkeystore)
      (hapart (q := .selfTest) trivial htest) seed args t

end Suite

/-- **Purposes are kept apart.**  What is signed for a change tells all of it, and where keys have 1952
bytes it is neither the hash of a block nor what shows that keys belong together or work.  So what is
signed for two purposes, or for two changes, always differs, and whatever signatures over one message
somebody has or makes, every check that is made for another purpose comes out as before. -/
theorem Purpose.kept_apart (s : Suite) (hsize : s.publicSize = 1952) :
    (∀ identity action requestedAt identity' action' requestedAt',
      Change.signingBytes identity action requestedAt =
        Change.signingBytes identity' action' requestedAt' →
      identity = identity' ∧ action = action' ∧ requestedAt = requestedAt') ∧
    (∀ identity action requestedAt, identity.length = 1952 →
      (∀ hash : Digest, Change.signingBytes identity action requestedAt ≠ hash.bytes) ∧
        Change.signingBytes identity action requestedAt ≠ Suite.probe ∧
        Change.signingBytes identity action requestedAt ≠ Command.Keygen.selfTest) ∧
    (∀ p q : Purpose, p.Admitted → q.Admitted → p ≠ q → p.message ≠ q.message) ∧
    ∀ p : Purpose, p.Admitted → ∀ sign accepts, s.SameBut p (s.altered p.message sign accepts) := by
  have hapart : ∀ p q : Purpose, p.Admitted → q.Admitted → p ≠ q → p.message ≠ q.message :=
    fun p q hp hq hne h => hne (message_injective hp hq h)
  refine ⟨fun _ _ _ _ _ _ => Change.signingBytes_injective, ?_, hapart,
    fun p hp => Suite.sameBut_altered hsize hp⟩
  intro identity action requestedAt hidentity
  have hother := fun q hq => hapart (.membership identity action requestedAt) q hidentity hq
  exact ⟨fun hash => hother (.block hash) trivial nofun, hother .keystore trivial nofun,
    hother .selfTest trivial nofun⟩

/-- Keys of the standard suite have the size that keeps purposes apart.  Even if anything were accepted
as a signature of what keystores sign, blocks and changes would be checked as before. -/
theorem Sample.standard_kept_apart :
    Suite.standard.publicSize = 1952 ∧
      Change.signingBytes (List.replicate 1952 0) .leave 7 ≠ Suite.probe ∧
      Suite.standard.SameBut .keystore
        (Suite.standard.altered Suite.probe (fun _ => []) fun _ _ => true) := by
  have hapart := Purpose.kept_apart Suite.standard rfl
  have hidentity := hapart.2.1 (List.replicate 1952 0) .leave 7 List.length_replicate
  exact ⟨rfl, hidentity.2.1, hapart.2.2.2 .keystore trivial _ _⟩

end DelayLedger
