import DelayLedger.Forge
import DelayLedger.Proofs.Chain.Reachable

/-!
# What a producer makes is accepted

A producer picks changes from those that are pending and lists the set that they lead to; a validator
applies the recorded changes once more.  Both go through the same sets.

* `applyAll_select`: the changes that are picked can be applied, one after another.
* `replay_of_applyAll`: replaying them leads where applying them leads.
* `validate_forge`: what checking a made block comes to.
* `accepts_forge`: a made block is accepted unless its proof, its time or the size of the set are at
  fault.
-/

namespace DelayLedger

namespace Membership

variable {s : Suite} {height : UInt64} {producer : Bytes} {members : List Bytes}

/-! ### Picking changes -/

theorem mem_of_mem_selectFrom {picked pending : List Change} {d : Change}
    (h : d ∈ selectFrom s height producer members picked pending) : d ∈ picked ∨ d ∈ pending := by
  induction pending generalizing members picked with
  | nil => exact Or.inl (List.mem_reverse.mp h)
  | cons c pending ih =>
    rw [selectFrom] at h
    split at h
    · exact Or.inl (List.mem_reverse.mp h)
    split at h
    · exact (ih h).imp_right (List.mem_cons_of_mem c)
    split at h
    · exact (ih h).imp_right (List.mem_cons_of_mem c)
    · rcases ih h with hmem | hmem
      · rcases List.mem_cons.mp hmem with rfl | hmem
        · exact Or.inr List.mem_cons_self
        · exact Or.inl hmem
      · exact Or.inr (List.mem_cons_of_mem c hmem)

theorem select_subset (s : Suite) (parent : Block) (producer : Bytes) (pending : List Change) :
    select s parent producer pending ⊆ pending := by
  intro d hd
  exact (mem_of_mem_selectFrom hd).resolve_left List.not_mem_nil

/-- What is picked after `picked` goes behind it, and can be applied there. -/
theorem exists_selectFrom_eq (members : List Bytes) (picked pending : List Change)
    (h : picked.length ≤ maxChanges) :
    ∃ rest result, selectFrom s height producer members picked pending = picked.reverse ++ rest ∧
      picked.length + rest.length ≤ maxChanges ∧
      applyAll s height producer (picked.map (·.identity)) members rest = .ok result := by
  induction pending generalizing members picked with
  | nil => exact ⟨[], members, (List.append_nil _).symm, h, rfl⟩
  | cons c pending ih =>
    rw [selectFrom]
    by_cases hfull : picked.length = maxChanges
    · rw [if_pos hfull]
      exact ⟨[], members, (List.append_nil _).symm, h, rfl⟩
    rw [if_neg hfull]
    by_cases hseen : picked.any (·.identity == c.identity) = true
    · rw [if_pos hseen]
      exact ih members picked h
    rw [if_neg hseen]
    cases happly : apply s height producer members c with
    | error e => exact ih members picked h
    | ok moved =>
      have hroom : (c :: picked).length ≤ maxChanges := by
        rw [List.length_cons]
        omega
      obtain ⟨rest, result, heq, hlen, hrest⟩ := ih moved (c :: picked) hroom
      refine ⟨c :: rest, result, ?_, ?_, applyAll_cons_eq_ok_iff.mpr ⟨?_, moved, happly, hrest⟩⟩
      · show selectFrom s height producer moved (c :: picked) pending = _
        rw [heq, List.reverse_cons, List.append_assoc, List.singleton_append]
      · rw [List.length_cons] at hlen ⊢
        omega
      · intro hmem
        obtain ⟨d, hd, hid⟩ := List.mem_map.mp hmem
        exact hseen (List.any_eq_true.mpr ⟨d, hd, beq_iff_eq.mpr hid⟩)

/-- **The changes that are picked can be applied**, and a block has room for them. -/
theorem applyAll_select (s : Suite) (parent : Block) (producer : Bytes) (pending : List Change) :
    (select s parent producer pending).length ≤ maxChanges ∧
      ∃ result, applyAll s parent.height producer [] (Membership.members parent)
        (select s parent producer pending) = .ok result := by
  have hnone : ([] : List Change).length ≤ maxChanges := Nat.zero_le _
  obtain ⟨rest, result, heq, hlen, hrest⟩ :=
    exists_selectFrom_eq (Membership.members parent) [] pending hnone
  have hselect : select s parent producer pending = rest := heq
  rw [List.length_nil, Nat.zero_add] at hlen
  rw [hselect]
  exact ⟨hlen, result, hrest⟩

/-- **Picked changes never fill the set** beyond its capacity, if it has room for the producer. -/
theorem card_successors_select_le (s : Suite) {parent : Block} {producer : Bytes}
    (pending : List Change) (hroom : (insert producer parent.nodes.toFinset).card ≤ maxNodes) :
    (successors parent.nodes (select s parent producer pending) producer).card ≤ maxNodes := by
  obtain ⟨-, result, happly⟩ := applyAll_select s parent producer pending
  have hsorted := sorted_members parent
  rw [← toFinset_members] at hroom
  have hcard := card_le_of_applyAll hsorted hroom happly
  rw [(account_of_applyAll hsorted happly).toFinset_eq, toFinset_members] at hcard
  exact hcard

/-! ### Replaying changes -/

theorem replay_cons_of_moves {c : Change} {moved : List Bytes} (h : Moves producer members c moved)
    (changes : List Change) : replay members (c :: changes) = replay moved changes := by
  cases h with
  | join hact => simp only [replay, List.foldl_cons, hact]
  | leave hact => simp only [replay, List.foldl_cons, hact]

/-- **Replaying changes leads where applying them leads**, where they can be applied. -/
theorem replay_of_applyAll {seen result : List Bytes} {changes : List Change}
    (h : applyAll s height producer seen members changes = .ok result) :
    replay members changes = result := by
  induction changes generalizing seen members with
  | nil =>
    injection h with h
  | cons c changes ih =>
    obtain ⟨-, moved, happly, hrest⟩ := applyAll_cons_eq_ok_iff.mp h
    obtain ⟨-, -, hmove⟩ := apply_eq_ok_iff.mp happly
    rw [replay_cons_of_moves hmove]
    exact ih hrest

/-- **The set of a child that records picked changes** is the set that replaying them leads to, unless
it is too large. -/
theorem next_select (s : Suite) (parent : Block) (producer seed : Bytes) (pending : List Change) :
    next s parent producer (select s parent producer pending) seed =
      if maxNodes < (successors parent.nodes (select s parent producer pending) producer).card then
        .error .setFull
      else
        .ok (Ticket.order s seed
          (enrol producer
            (replay (Membership.members parent) (select s parent producer pending)))) := by
  obtain ⟨hlen, result, happly⟩ := applyAll_select s parent producer pending
  have hacc := account_of_applyAll (sorted_members parent) happly
  rw [next, if_neg (Nat.not_lt.mpr hlen), happly, replay_of_applyAll happly]
  simp only [hacc.length_eq]

end Membership

/-! ### Checking what is made -/

/-- The latest timestamp that is accepted does not wrap around. -/
theorem le_latestTimestamp_iff {now timestamp : UInt64} :
    timestamp ≤ latestTimestamp now ↔ timestamp.toNat ≤ now.toNat + clockDrift := by
  have hword : maxWord < UInt64.size := by decide
  have htime : timestamp.toNat ≤ maxWord := Nat.le_of_lt_succ timestamp.toNat_lt
  have hmin : min (now.toNat + clockDrift) maxWord < UInt64.size :=
    Nat.lt_of_le_of_lt (Nat.min_le_right _ _) hword
  rw [UInt64.le_iff_toNat_le, latestTimestamp, UInt64.toNat_ofNat_of_lt' hmin]
  omega

theorem validateSet_eq_of_error {s : Suite} {parent candidate : Block} {proof : DelayProof}
    {cause : MembershipError}
    (h : Membership.next s parent candidate.producer candidate.changes proof.toBytes =
      .error cause) :
    validateSet s parent candidate proof = .error (.invalidMembership cause) := by
  rw [validateSet, h]

section Made

variable {s : Suite} {keys : Keypair} {parent : Block}

theorem continues_forge (policy : Policy) (proof : DelayProof) (pending : List Change)
    (timestamp : UInt64) (h : parent.height.toNat < maxWord) :
    (forge s policy keys parent proof pending timestamp).continues parent = true := by
  refine Block.continues_iff.mpr ⟨rfl, ?_⟩
  show (parent.height + 1).toNat = parent.height.toNat + 1
  have hnext : parent.height.toNat + 1 < UInt64.size := Nat.add_lt_of_lt_sub h
  rw [UInt64.toNat_add]
  exact Nat.mod_eq_of_lt hnext

theorem hashMatches_forge (policy : Policy) (proof : DelayProof) (pending : List Change)
    (timestamp : UInt64) : (forge s policy keys parent proof pending timestamp).hashMatches s = true :=
  Block.hashMatches_sealWith s _ keys

theorem isSigned_forge (policy : Policy) (proof : DelayProof) (pending : List Change)
    (timestamp : UInt64)
    (h : ∀ message, s.verify keys.publicKey message (s.sign keys.secretKey message) = .ok ()) :
    (forge s policy keys parent proof pending timestamp).isSigned s = true :=
  Block.isSigned_sealWith rfl h

theorem validateSet_forge (policy : Policy) (proof : DelayProof) (pending : List Change)
    (timestamp : UInt64) :
    validateSet s parent (forge s policy keys parent proof pending timestamp) proof =
      if maxNodes < (Membership.successors parent.nodes
          (Membership.select s parent keys.publicKey pending) keys.publicKey).card then
        .error (.invalidMembership .setFull)
      else .ok () := by
  have hnext := Membership.next_select s parent keys.publicKey proof.toBytes pending
  by_cases hfull : maxNodes < (Membership.successors parent.nodes
      (Membership.select s parent keys.publicKey pending) keys.publicKey).card
  · rw [if_pos hfull] at hnext ⊢
    exact validateSet_eq_of_error hnext
  · rw [if_neg hfull] at hnext ⊢
    exact validateSet_eq_ok_iff.mpr hnext

/-- **What checking a made block comes to.** -/
theorem validate_forge (policy : Policy) (now : UInt64) (proof : DelayProof) (pending : List Change)
    (timestamp : UInt64) (hheight : parent.height.toNat < maxWord)
    (hsign : ∀ message, s.verify keys.publicKey message (s.sign keys.secretKey message) = .ok ()) :
    validate s policy now parent (forge s policy keys parent proof pending timestamp) =
      if Delay.verify s parent.difficulty parent.hash.bytes proof = false then .error .invalidProof
      else if timestamp < parent.timestamp ∨ latestTimestamp now < timestamp then
        .error (.timestampOutOfRange parent.timestamp (latestTimestamp now) timestamp)
      else if maxNodes < (Membership.successors parent.nodes
          (Membership.select s parent keys.publicKey pending) keys.publicKey).card then
        .error (.invalidMembership .setFull)
      else .ok () := by
  rw [validate, continues_forge policy proof pending timestamp hheight,
    hashMatches_forge policy proof pending timestamp,
    isSigned_forge policy proof pending timestamp hsign]
  simp only [Bool.not_true, Bool.false_eq_true, if_false]
  have hproof : (forge s policy keys parent proof pending timestamp).proofOver? s parent =
      if Delay.verify s parent.difficulty parent.hash.bytes proof then some proof else none :=
    Option.filter_some
  rw [hproof]
  cases Delay.verify s parent.difficulty parent.hash.bytes proof with
  | false => rfl
  | true =>
    simp only [if_true, Bool.true_eq_false, if_false]
    by_cases htime : timestamp < parent.timestamp ∨ latestTimestamp now < timestamp
    · rw [if_pos htime]
      exact if_pos htime
    · rw [if_neg htime, ← validateSet_forge policy proof pending timestamp]
      -- a made block has the difficulty that is expected of it
      exact (if_neg htime).trans (if_neg (not_not.mpr rfl))

/-- **A producer and a validator agree.**  A made block is accepted exactly when its proof verifies,
its time is in range and the set that it leads to is not too large, which it never is when there is
room for the producer in the parent's.  Nothing else is ever found wrong with it. -/
theorem accepts_forge (policy : Policy) (now : UInt64) (proof : DelayProof) (pending : List Change)
    (timestamp : UInt64) (hheight : parent.height.toNat < maxWord)
    (hsign : ∀ message, s.verify keys.publicKey message (s.sign keys.secretKey message) = .ok ()) :
    let changes := Membership.select s parent keys.publicKey pending
    let set := Membership.successors parent.nodes changes keys.publicKey
    let checked := validate s policy now parent (forge s policy keys parent proof pending timestamp)
    (checked = .ok () ↔
      Delay.verify s parent.difficulty parent.hash.bytes proof = true ∧
        parent.timestamp ≤ timestamp ∧ timestamp.toNat ≤ now.toNat + 30 ∧ set.card ≤ 1000) ∧
    ((insert keys.publicKey parent.nodes.toFinset).card ≤ 1000 → set.card ≤ 1000) ∧
    ∀ e, checked = .error e →
      e = .invalidProof ∨
        e = .timestampOutOfRange parent.timestamp (latestTimestamp now) timestamp ∨
        e = .invalidMembership .setFull := by
  intro changes set checked
  have hchecked : checked = _ := validate_forge policy now proof pending timestamp hheight hsign
  have htime : ¬ (timestamp < parent.timestamp ∨ latestTimestamp now < timestamp) ↔
      parent.timestamp ≤ timestamp ∧ timestamp.toNat ≤ now.toNat + 30 := by
    rw [not_or, UInt64.not_lt, UInt64.not_lt, le_latestTimestamp_iff]
    rfl
  refine ⟨?_, Membership.card_successors_select_le s pending, ?_⟩
  · rw [hchecked, ← and_assoc (a := parent.timestamp ≤ timestamp), ← htime, ← Nat.not_lt]
    split
    · next hproof => exact iff_of_false nofun fun h => Bool.false_ne_true (hproof.symm.trans h.1)
    split
    · next hrange => exact iff_of_false nofun fun h => h.2.1 hrange
    split
    · next hfull => exact iff_of_false nofun fun h => h.2.2 hfull
    · next hproof hrange hfull =>
      exact iff_of_true rfl ⟨(Bool.not_eq_false _).mp hproof, hrange, hfull⟩
  · intro e he
    rw [hchecked] at he
    split at he
    · injection he with he
      exact Or.inl he.symm
    split at he
    · injection he with he
      exact Or.inr (Or.inl he.symm)
    split at he
    · injection he with he
      exact Or.inr (Or.inr he.symm)
    · contradiction

end Made

namespace Sample

open Suite (small)

/-- Requests of which one is made twice, one is not signed and one is redundant. -/
def requests : List Change :=
  [Change.signed small leaver .leave 0, Change.signed small leaver .leave 0,
    { Change.signed small joiner .join 0 with signature := [] },
    Change.signed small maker .join 0, Change.signed small joiner .join 0]

theorem accepts_requests :
    first.height.toNat < maxWord ∧
      (∀ message, small.verify maker.publicKey message (small.sign maker.secretKey message) = .ok ()) ∧
      validate small .fixed 100 first (forge small .fixed maker first ⟨[16], [1]⟩ requests 101) =
        .ok () :=
  have hheight : first.height.toNat < maxWord := by decide
  have h := accepts_forge .fixed 100 ⟨[16], [1]⟩ requests 101 hheight (Suite.small_verify_sign [1])
  ⟨hheight, Suite.small_verify_sign [1],
    h.1.mpr ⟨by decide +kernel, by decide +kernel, by decide, h.2.1 (by decide +kernel)⟩⟩

end Sample

end DelayLedger
