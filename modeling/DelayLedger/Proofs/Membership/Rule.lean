import DelayLedger.Proofs.Chain.Reachable

/-!
# When changes may be recorded

What a child may record has two parts.  The changes are `Recordable`: few, signed and fresh, each of
them for an identity of its own and one that it moves.  That has nothing to do with the order in which
they are listed.  And each join finds room in the set that it and the changes before it lead to
(`JoinsFit`), which has.

* `applyAll_of_account`: changes that move their identities are applied, or a join finds no room.
* `next_of_recordable`, `exists_next_iff`: **when a child has a set**.
* `next_eq_order`, `next_relisted`: no listing has a part in which set that is.
* `next_determined`: what a child records and the set that it has.
-/

namespace DelayLedger

namespace Membership

open Ascending (Sorted)

/-! ### Room for joins -/

/-- Each join finds room: the set that it and the changes before it lead to is not too large. -/
def JoinsFit (nodes : List Bytes) (producer : Bytes) (changes : List Change) : Prop :=
  ∀ before c after, changes = before ++ c :: after → c.action = .join →
    (successors nodes (before ++ [c]) producer).card ≤ 1000

section Changes

variable {s : Suite} {height : UInt64} {producer : Bytes} {seen members moved result : List Bytes}
  {c : Change} {changes : List Change}

theorem joinsFit_nil : JoinsFit members producer [] := by
  intro before c after heq
  simp at heq

theorem joinsFit_singleton : JoinsFit members producer [c] ↔
    (c.action = .join → (successors members [c] producer).card ≤ 1000) := by
  constructor
  · intro h hjoin
    exact h [] c [] rfl hjoin
  · intro h before d after heq hjoin
    cases before with
    | nil =>
      obtain ⟨rfl, -⟩ := List.cons.inj heq
      exact h hjoin
    | cons e before => simp at heq

theorem Moves.successors_eq (h : Moves producer members c moved) (hs : Sorted Bytes.lt members)
    (hother : ∀ d ∈ changes, d.identity ≠ c.identity) :
    successors members (c :: changes) producer = successors moved changes producer := by
  rw [successors, successors, h.toFinset_eq hs hother]

theorem card_successors_join (hs : Sorted Bytes.lt members) (hjoin : c.action = .join)
    (hout : c.identity ∉ members) :
    (successors members [c] producer).card =
      members.length + 1 + (if c.identity ≠ producer ∧ producer ∉ members then 1 else 0) := by
  have hset : successors members [c] producer =
      insert producer (enrol c.identity members).toFinset := by
    rw [successors, joining_cons_join hjoin, leaving_cons_join hjoin, toFinset_enrol]
    simp [joining, leaving]
  rw [hset, card_insert_enrol hs hout]

theorem Moves.joinsFit_cons_iff (h : Moves producer members c moved) (hs : Sorted Bytes.lt members)
    (hother : ∀ d ∈ changes, d.identity ≠ c.identity) :
    JoinsFit members producer (c :: changes) ↔ JoinsFit moved producer changes := by
  have hupTo : ∀ before d after, changes = before ++ d :: after →
      successors members (c :: (before ++ [d])) producer =
        successors moved (before ++ [d]) producer := by
    intro before d after heq
    refine h.successors_eq hs fun e he => hother e ?_
    rw [heq, List.append_cons]
    exact List.mem_append_left after he
  constructor
  · intro hfit before d after heq hjoin
    rw [← hupTo before d after heq]
    exact hfit (c :: before) d after (by rw [heq, List.cons_append]) hjoin
  · intro hfit before d after heq hjoin
    cases before with
    | nil =>
      obtain ⟨rfl, rfl⟩ := List.cons.inj heq
      cases h with
      | join _ hout hroom =>
        rw [List.nil_append, card_successors_join hs hjoin hout]
        exact hroom
      | leave hleave => rw [hjoin] at hleave; contradiction
    | cons e before =>
      obtain ⟨rfl, hrest⟩ := List.cons.inj heq
      rw [List.cons_append, hupTo before d after hrest]
      exact hfit before d after hrest hjoin

/-! ### Changes that move their identities -/

theorem Account.ne_of_mem (h : Account s height producer seen members (c :: changes) result) :
    ∀ d ∈ changes, d.identity ≠ c.identity := by
  intro d hd heq
  have hnodup := List.nodup_cons.mp h.nodup
  exact hnodup.1 (List.mem_map.mpr ⟨d, hd, heq⟩)

theorem Account.eq_of_nil (h : Account s height producer seen members [] result)
    (hs : Sorted Bytes.lt members) : result = members := by
  refine Bytes.isLinear_lt.eq_of_mem_iff h.sorted hs fun x => ?_
  rw [← List.mem_toFinset, h.toFinset_eq]
  simp [joining, leaving]

theorem Account.tail (h : Account s height producer seen members (c :: changes) result)
    (hs : Sorted Bytes.lt members) (hmove : Moves producer members c moved) :
    Account s height producer (c.identity :: seen) moved changes result where
  fresh := (List.forall_mem_cons.mp h.fresh).2
  signed := (List.forall_mem_cons.mp h.signed).2
  unseen d hd hmem := by
    rcases List.mem_cons.mp hmem with heq | hmem
    · exact h.ne_of_mem d hd heq
    · exact h.unseen d (List.mem_cons_of_mem _ hd) hmem
  nodup := (List.nodup_cons.mp h.nodup).2
  join_not_mem d hd hjoin := by
    rw [hmove.mem_iff_of_ne hs (h.ne_of_mem d hd)]
    exact h.join_not_mem d (List.mem_cons_of_mem _ hd) hjoin
  leave_mem d hd hleave := by
    rw [hmove.mem_iff_of_ne hs (h.ne_of_mem d hd)]
    exact h.leave_mem d (List.mem_cons_of_mem _ hd) hleave
  leave_ne := (List.forall_mem_cons.mp h.leave_ne).2
  sorted := h.sorted
  toFinset_eq := by rw [h.toFinset_eq, hmove.toFinset_eq hs h.ne_of_mem]

/-- The first of such changes moves the set, or it is a join that finds no room. -/
theorem Account.exists_moves_or_full
    (h : Account s height producer seen members (c :: changes) result)
    (hs : Sorted Bytes.lt members) :
    (∃ moved, Moves producer members c moved) ∨
      c.action = .join ∧ c.identity ∉ members ∧ 1000 < (successors members [c] producer).card := by
  have hmem : c ∈ c :: changes := List.mem_cons_self
  cases hact : c.action with
  | join =>
    have hout := h.join_not_mem c hmem hact
    by_cases hroom : (successors members [c] producer).card ≤ 1000
    · have hplace := hroom
      rw [card_successors_join hs hact hout] at hplace
      exact Or.inl ⟨_, .join hact hout hplace⟩
    · exact Or.inr ⟨rfl, hout, Nat.not_le.mp hroom⟩
  | leave => exact Or.inl ⟨_, .leave hact (h.leave_ne c hmem hact) (h.leave_mem c hmem hact)⟩

theorem apply_eq_setFull (hfresh : c.isFresh height = true) (hsigned : c.isSigned s = true)
    (hs : Sorted Bytes.lt members) (hjoin : c.action = .join) (hout : c.identity ∉ members)
    (hfull : 1000 < (successors members [c] producer).card) :
    apply s height producer members c = .error .setFull := by
  rw [card_successors_join hs hjoin hout] at hfull
  rw [apply, hfresh, hsigned, hjoin]
  simp only [Bool.not_true, Bool.false_eq_true, if_false, if_neg hout]
  exact if_pos hfull

/-- **Changes that move their identities are applied**, unless a join finds no room; then that is
the cause that is given. -/
theorem applyAll_of_account (hs : Sorted Bytes.lt members)
    (h : Account s height producer seen members changes result) :
    JoinsFit members producer changes ∧
        applyAll s height producer seen members changes = .ok result ∨
      ¬ JoinsFit members producer changes ∧
        applyAll s height producer seen members changes = .error .setFull := by
  induction changes generalizing seen members with
  | nil =>
    rw [h.eq_of_nil hs]
    exact Or.inl ⟨joinsFit_nil, rfl⟩
  | cons c changes ih =>
    have hmem : c ∈ c :: changes := List.mem_cons_self
    have hfresh := h.fresh c hmem
    have hsigned := h.signed c hmem
    have hseen := h.unseen c hmem
    rcases h.exists_moves_or_full hs with ⟨moved, hmove⟩ | ⟨hjoin, hout, hfull⟩
    · have happly := apply_eq_ok_iff.mpr ⟨hfresh, hsigned, hmove⟩
      have hrest := ih (hmove.sorted hs) (h.tail hs hmove)
      rw [applyAll, if_neg hseen, happly, hmove.joinsFit_cons_iff hs h.ne_of_mem]
      exact hrest
    · refine Or.inr ⟨fun hfit => ?_, ?_⟩
      · exact Nat.not_le.mpr hfull (hfit [] c changes rfl hjoin)
      · rw [applyAll, if_neg hseen, apply_eq_setFull hfresh hsigned hs hjoin hout hfull]

end Changes

/-! ### The changes of a child -/

/-- What a child asks of the changes that it records, in whatever order and however large the set
becomes: they are few, signed and fresh, each is for an identity of its own, a join is for a node that
is out of the parent's set, and a leave for one that is in it and does not make the child. -/
structure Recordable (s : Suite) (parent : Block) (producer : Bytes) (changes : List Change) :
    Prop where
  length_le : changes.length ≤ 64
  nodup : (changes.map (·.identity)).Nodup
  fresh : ∀ c ∈ changes,
    c.requestedAt ≤ parent.height ∧ parent.height.toNat ≤ c.requestedAt.toNat + 64
  signed : ∀ c ∈ changes, c.verify s = .ok ()
  join_not_mem : ∀ c ∈ changes, c.action = .join → c.identity ∉ parent.nodes
  leave_mem : ∀ c ∈ changes, c.action = .leave → c.identity ∈ parent.nodes
  leave_ne : ∀ c ∈ changes, c.action = .leave → c.identity ≠ producer

section Child

variable {s : Suite} {parent : Block} {producer seed : Bytes} {changes listed : List Change}
  {nodes : List Bytes}

theorem exists_sorted (set : Finset Bytes) : ∃ l, Sorted Bytes.lt l ∧ l.toFinset = set := by
  refine ⟨Ascending.ofList Bytes.lt set.toList, Bytes.isLinear_lt.sorted_ofList _, ?_⟩
  ext x
  rw [List.mem_toFinset, Bytes.isLinear_lt.mem_ofList, Finset.mem_toList]

theorem Recordable.exists_account (h : Recordable s parent producer changes) :
    ∃ result, Account s parent.height producer [] (members parent) changes result := by
  obtain ⟨result, hsorted, hresult⟩ :=
    exists_sorted ((parent.nodes.toFinset ∪ joining changes) \ leaving changes)
  exact ⟨result, {
    fresh := fun c hc => Change.isFresh_iff.mpr (h.fresh c hc)
    signed := fun c hc => Change.isSigned_iff.mpr (h.signed c hc)
    unseen := fun c _ => List.not_mem_nil
    nodup := h.nodup
    join_not_mem := fun c hc hjoin => mt mem_members.mp (h.join_not_mem c hc hjoin)
    leave_mem := fun c hc hleave => mem_members.mpr (h.leave_mem c hc hleave)
    leave_ne := h.leave_ne
    sorted := hsorted
    toFinset_eq := by rw [hresult, toFinset_members] }⟩

theorem recordable_of_next (h : next s parent producer changes seed = .ok nodes) :
    Recordable s parent producer changes := by
  obtain ⟨hlength, -⟩ := next_eq_ok_iff.mp h
  obtain ⟨result, hacc, -⟩ := account_of_next h
  exact {
    length_le := hlength
    nodup := hacc.nodup
    fresh := fun c hc => Change.isFresh_iff.mp (hacc.fresh c hc)
    signed := fun c hc => Change.isSigned_iff.mp (hacc.signed c hc)
    join_not_mem := fun c hc hjoin => mt mem_members.mpr (hacc.join_not_mem c hc hjoin)
    leave_mem := fun c hc hleave => mem_members.mp (hacc.leave_mem c hc hleave)
    leave_ne := hacc.leave_ne }

theorem successors_members :
    successors (members parent) changes producer = successors parent.nodes changes producer := by
  rw [successors, successors, toFinset_members]

theorem joinsFit_members :
    JoinsFit (members parent) producer changes ↔ JoinsFit parent.nodes producer changes := by
  simp only [JoinsFit, successors_members]

/-- **Changes that may be recorded give the child a set**, unless a join finds no room or the set is
too large in the end.  Then that is the cause that is given. -/
theorem next_of_recordable (seed : Bytes) (h : Recordable s parent producer changes) :
    (JoinsFit parent.nodes producer changes ∧
        (successors parent.nodes changes producer).card ≤ 1000 ∧
        ∃ nodes, next s parent producer changes seed = .ok nodes) ∨
      ¬ (JoinsFit parent.nodes producer changes ∧
          (successors parent.nodes changes producer).card ≤ 1000) ∧
        next s parent producer changes seed = .error .setFull := by
  obtain ⟨result, hacc⟩ := h.exists_account
  have hfew : ¬ maxChanges < changes.length := Nat.not_lt.mpr h.length_le
  rcases applyAll_of_account (sorted_members parent) hacc with ⟨hfit, happly⟩ | ⟨hfull, happly⟩
  · rw [joinsFit_members] at hfit
    rw [next, if_neg hfew, happly]
    simp only [hacc.length_eq]
    by_cases hlarge : maxNodes < (successors parent.nodes changes producer).card
    · rw [if_pos hlarge]
      exact Or.inr ⟨fun hroom => Nat.not_lt.mpr hroom.2 hlarge, rfl⟩
    · rw [if_neg hlarge]
      exact Or.inl ⟨hfit, Nat.not_lt.mp hlarge, _, rfl⟩
  · rw [joinsFit_members] at hfull
    rw [next, if_neg hfew, happly]
    exact Or.inr ⟨fun hroom => hfull hroom.1, rfl⟩

/-- **When a child has a set.** -/
theorem exists_next_iff :
    (∃ nodes, next s parent producer changes seed = .ok nodes) ↔
      Recordable s parent producer changes ∧ JoinsFit parent.nodes producer changes ∧
        (successors parent.nodes changes producer).card ≤ 1000 := by
  constructor
  · rintro ⟨nodes, hnext⟩
    have hrecordable := recordable_of_next hnext
    rcases next_of_recordable seed hrecordable with ⟨hfit, hroom, -⟩ | ⟨-, herror⟩
    · exact ⟨hrecordable, hfit, hroom⟩
    · rw [hnext] at herror
      contradiction
  · rintro ⟨hrecordable, hfit, hroom⟩
    rcases next_of_recordable seed hrecordable with ⟨-, -, hnext⟩ | ⟨hno, -⟩
    · exact hnext
    · exact absurd ⟨hfit, hroom⟩ hno

/-! ### Other listings -/

theorem joining_perm (h : listed.Perm changes) : joining listed = joining changes := by
  ext x
  simp only [mem_joining, h.mem_iff]

theorem leaving_perm (h : listed.Perm changes) : leaving listed = leaving changes := by
  ext x
  simp only [mem_leaving, h.mem_iff]

theorem successors_perm (h : listed.Perm changes) :
    successors nodes listed producer = successors nodes changes producer := by
  rw [successors, successors, joining_perm h, leaving_perm h]

theorem Recordable.perm (h : Recordable s parent producer changes) (hperm : listed.Perm changes) :
    Recordable s parent producer listed where
  length_le := hperm.length_eq.trans_le h.length_le
  nodup := (hperm.map _).nodup_iff.mpr h.nodup
  fresh c hc := h.fresh c (hperm.mem_iff.mp hc)
  signed c hc := h.signed c (hperm.mem_iff.mp hc)
  join_not_mem c hc := h.join_not_mem c (hperm.mem_iff.mp hc)
  leave_mem c hc := h.leave_mem c (hperm.mem_iff.mp hc)
  leave_ne c hc := h.leave_ne c (hperm.mem_iff.mp hc)

theorem recordable_perm_iff (hperm : listed.Perm changes) :
    Recordable s parent producer listed ↔ Recordable s parent producer changes :=
  ⟨fun h => h.perm hperm.symm, fun h => h.perm hperm⟩

theorem next_eq_order (h : next s parent producer changes seed = .ok nodes) {listing : List Bytes}
    (hlisting : listing.toFinset = successors parent.nodes changes producer) :
    nodes = Ticket.order s seed listing := by
  obtain ⟨result, hacc, -, rfl⟩ := account_of_next h
  refine Ticket.order_eq_of_mem_iff s fun x => ?_
  rw [← List.mem_toFinset, ← List.mem_toFinset, hlisting, toFinset_enrol, hacc.toFinset_eq,
    toFinset_members, successors]

theorem next_relisted {listing : List Bytes} (h : listing.toFinset = parent.nodes.toFinset) :
    next s { parent with nodes := listing } producer changes seed =
      next s parent producer changes seed := by
  have hmembers : members { parent with nodes := listing } = members parent := by
    refine Bytes.isLinear_lt.ofList_eq_of_mem_iff fun x => ?_
    rw [← List.mem_toFinset, ← List.mem_toFinset, h]
  rw [next, next, hmembers]

/-- **What a child records and the set that it has.**  The changes are recordable; the set is the
parent's with the nodes that join, without those that leave, and with the producer, in the order of the
tickets, and is not too large.  Neither the way in which the parent lists its set nor the order in which
the changes are listed has a part in it. -/
theorem next_determined (h : next s parent producer changes seed = .ok nodes) :
    Recordable s parent producer changes ∧
      nodes.toFinset =
        insert producer ((parent.nodes.toFinset ∪ joining changes) \ leaving changes) ∧
      (∀ listing : List Bytes,
        listing.toFinset =
            insert producer ((parent.nodes.toFinset ∪ joining changes) \ leaving changes) →
          nodes = Ticket.order s seed listing) ∧
      nodes.length ≤ 1000 ∧ producer ∈ nodes ∧
      ∀ listing : List Bytes, listing.toFinset = parent.nodes.toFinset →
        next s { parent with nodes := listing } producer changes seed = .ok nodes ∧
          ∀ listed again, listed.Perm changes →
            next s { parent with nodes := listing } producer listed seed = .ok again →
              again = nodes := by
  refine ⟨recordable_of_next h, toFinset_of_next h, fun listing hlisting => next_eq_order h hlisting,
    length_le_of_next h, producer_mem_of_next h, fun listing hlisting => ?_⟩
  rw [next_relisted hlisting]
  refine ⟨h, fun listed again hperm hlisted => ?_⟩
  rw [next_relisted hlisting] at hlisted
  have hagain : again.toFinset = successors parent.nodes listed producer := toFinset_of_next hlisted
  rw [next_eq_order hlisted hagain]
  rw [successors_perm hperm] at hagain
  exact (next_eq_order h hagain).symm

end Child

end Membership

/-- The set of the second block of the small ledger, listed with one node twice. -/
theorem Sample.determined_second :
    Membership.next Suite.small first second.producer second.changes second.seed =
        .ok second.nodes ∧
      second.nodes = Ticket.order Suite.small second.seed
        [joiner.publicKey, maker.publicKey, joiner.publicKey] := by
  have hnext := (follows_of_validate validate_second).next_eq
  exact ⟨hnext, (Membership.next_determined hnext).2.2.1 _ (by decide +kernel)⟩

end DelayLedger
