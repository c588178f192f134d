import Mathlib.Data.Finset.Card
import Mathlib.Data.Finset.SDiff
import DelayLedger.Membership.Roll
import DelayLedger.Proofs.Ticket

/-!
# What changes do to the consensus set

The ascending lists that `apply`, `applyAll` and `next` work on are read as finite sets.  A change
that is applied adds its identity or takes it away (`Moves`), and the changes of a block together
lead from the set `M` to `(M ∪ joining) \ leaving` (`Account`).  `next` adds the producer to that
(`successors`) and lists it in the order of tickets.

* `apply_eq_ok_iff`: which changes are applied, and what they do.
* `account_of_applyAll`: the account of a list of changes.
* `Moves.card_le`: a set that has room for the producer keeps it.
* `toFinset_of_next`, `sorted_of_next`: the set of a child and its order.
-/

namespace DelayLedger

/-! ### Changes -/

theorem Change.isFresh_iff {c : Change} {height : UInt64} :
    c.isFresh height = true ↔
      c.requestedAt ≤ height ∧ height.toNat ≤ c.requestedAt.toNat + 64 := by
  have hlifetime : lifetime = 64 := rfl
  rw [isFresh, Bool.and_eq_true, decide_eq_true_eq, decide_eq_true_eq, UInt64.le_iff_toNat_le]
  omega

theorem Change.isSigned_iff {s : Suite} {c : Change} : c.isSigned s = true ↔ c.verify s = .ok () :=
  s.verifies_iff _ _ _

namespace Membership

open Ascending (Sorted)

/-! ### Ascending lists as sets -/

theorem sorted_members (b : Block) : Sorted Bytes.lt (members b) :=
  Bytes.isLinear_lt.sorted_ofList _

theorem sorted_enrol {x : Bytes} {l : List Bytes} (h : Sorted Bytes.lt l) :
    Sorted Bytes.lt (enrol x l) := Bytes.isLinear_lt.sorted_insert h

theorem sorted_erase {x : Bytes} {l : List Bytes} (h : Sorted Bytes.lt l) :
    Sorted Bytes.lt (l.erase x) := List.Pairwise.sublist List.erase_sublist h

theorem length_eq_card {l : List Bytes} (h : Sorted Bytes.lt l) : l.length = l.toFinset.card :=
  (List.toFinset_card_of_nodup (Bytes.isLinear_lt.nodup_of_sorted h)).symm

@[simp] theorem toFinset_members (b : Block) : (members b).toFinset = b.nodes.toFinset := by
  ext x
  rw [List.mem_toFinset, List.mem_toFinset, mem_members]

@[simp] theorem toFinset_enrol (x : Bytes) (l : List Bytes) :
    (enrol x l).toFinset = insert x l.toFinset := by
  ext y
  rw [List.mem_toFinset, mem_enrol, Finset.mem_insert, List.mem_toFinset]

theorem toFinset_erase {x : Bytes} {l : List Bytes} (h : Sorted Bytes.lt l) :
    (l.erase x).toFinset = l.toFinset.erase x := by
  ext y
  rw [List.mem_toFinset, (Bytes.isLinear_lt.nodup_of_sorted h).mem_erase_iff, Finset.mem_erase,
    List.mem_toFinset]

/-! ### One change -/

/-- How a change in a block by `producer` moves the set.  A join keeps a place for a producer who is
not a member. -/
inductive Moves (producer : Bytes) (members : List Bytes) (c : Change) : List Bytes → Prop
  | join : c.action = .join → c.identity ∉ members →
      members.length + 1 + (if c.identity ≠ producer ∧ producer ∉ members then 1 else 0) ≤ maxNodes →
      Moves producer members c (enrol c.identity members)
  | leave : c.action = .leave → c.identity ≠ producer → c.identity ∈ members →
      Moves producer members c (members.erase c.identity)

/-- **A change is applied exactly when** it is fresh, signed and moves the set. -/
theorem apply_eq_ok_iff {s : Suite} {height : UInt64} {producer : Bytes} {members result : List Bytes}
    {c : Change} :
    apply s height producer members c = .ok result ↔
      c.isFresh height = true ∧ c.isSigned s = true ∧ Moves producer members c result := by
  rw [apply]
  split
  · next h => simp_all
  split
  · next h => simp_all
  next hfresh hsigned =>
  rw [Bool.not_eq_true, Bool.not_eq_false'] at hfresh hsigned
  cases hact : c.action with
  | join =>
    constructor
    · intro h
      by_cases hmem : c.identity ∈ members
      · simp only [if_pos hmem] at h
        contradiction
      by_cases hroom : maxNodes <
          members.length + 1 + (if c.identity ≠ producer ∧ producer ∉ members then 1 else 0)
      · simp only [if_neg hmem, if_pos hroom] at h
        contradiction
      simp only [if_neg hmem, if_neg hroom] at h
      injection h with h
      exact ⟨hfresh, hsigned, h ▸ .join hact hmem (Nat.not_lt.mp hroom)⟩
    · rintro ⟨-, -, hm⟩
      cases hm with
      | join _ hmem hroom => simp only [if_neg hmem, if_neg (Nat.not_lt.mpr hroom)]
      | leave hleave => rw [hact] at hleave; contradiction
  | leave =>
    constructor
    · intro h
      by_cases hproducer : c.identity = producer
      · simp only [if_pos hproducer] at h
        contradiction
      by_cases hmem : c.identity ∈ members
      · simp only [if_neg hproducer, if_pos hmem] at h
        injection h with h
        exact ⟨hfresh, hsigned, h ▸ .leave hact hproducer hmem⟩
      · simp only [if_neg hproducer, if_neg hmem] at h
        contradiction
    · rintro ⟨-, -, hm⟩
      cases hm with
      | join hjoin => rw [hact] at hjoin; contradiction
      | leave _ hproducer hmem => simp only [if_neg hproducer, if_pos hmem]

theorem Moves.sorted {producer : Bytes} {members result : List Bytes} {c : Change}
    (h : Moves producer members c result) (hs : Sorted Bytes.lt members) :
    Sorted Bytes.lt result := by
  cases h with
  | join => exact sorted_enrol hs
  | leave => exact sorted_erase hs

/-- The place that a join keeps for the producer: what it is held to is the size of the set that it
leads to, the producer being added. -/
theorem card_insert_enrol {producer x : Bytes} {members : List Bytes} (hs : Sorted Bytes.lt members)
    (hout : x ∉ members) :
    (insert producer (enrol x members).toFinset).card =
      members.length + 1 + (if x ≠ producer ∧ producer ∉ members then 1 else 0) := by
  have hcard : (insert x members.toFinset).card = members.length + 1 := by
    rw [Finset.card_insert_of_notMem (mt List.mem_toFinset.mp hout), length_eq_card hs]
  rw [toFinset_enrol]
  by_cases hnew : x ≠ producer ∧ producer ∉ members
  · have hnot : producer ∉ insert x members.toFinset := by
      rw [Finset.mem_insert, List.mem_toFinset, not_or]
      exact ⟨Ne.symm hnew.1, hnew.2⟩
    rw [if_pos hnew, Finset.card_insert_of_notMem hnot, hcard]
  · have hin : producer ∈ insert x members.toFinset := by
      rw [Finset.mem_insert, List.mem_toFinset]
      by_cases hself : x = producer
      · exact Or.inl hself.symm
      · exact Or.inr (not_not.mp fun hp => hnew ⟨hself, hp⟩)
    rw [if_neg hnew, Finset.insert_eq_of_mem hin, hcard]

/-- **A set that has room for the producer keeps it**, whatever change is applied. -/
theorem Moves.card_le {producer : Bytes} {members result : List Bytes} {c : Change}
    (h : Moves producer members c result) (hs : Sorted Bytes.lt members)
    (hroom : (insert producer members.toFinset).card ≤ maxNodes) :
    (insert producer result.toFinset).card ≤ maxNodes := by
  cases h with
  | join _ hout hjoin =>
    rw [card_insert_enrol hs hout]
    exact hjoin
  | leave =>
    rw [toFinset_erase hs]
    exact le_trans (Finset.card_le_card (Finset.insert_subset_insert _ (Finset.erase_subset _ _))) hroom

/-! ### The changes of a block -/

def joining (changes : List Change) : Finset Bytes :=
  ((changes.filter (·.action = .join)).map (·.identity)).toFinset

def leaving (changes : List Change) : Finset Bytes :=
  ((changes.filter (·.action = .leave)).map (·.identity)).toFinset

theorem mem_joining {x : Bytes} {changes : List Change} :
    x ∈ joining changes ↔ ∃ c ∈ changes, c.action = .join ∧ c.identity = x := by
  simp [joining, and_assoc]

theorem mem_leaving {x : Bytes} {changes : List Change} :
    x ∈ leaving changes ↔ ∃ c ∈ changes, c.action = .leave ∧ c.identity = x := by
  simp [leaving, and_assoc]

theorem joining_cons_join {c : Change} {changes : List Change} (h : c.action = .join) :
    joining (c :: changes) = insert c.identity (joining changes) := by simp [joining, h]

theorem joining_cons_leave {c : Change} {changes : List Change} (h : c.action = .leave) :
    joining (c :: changes) = joining changes := by simp [joining, h]

theorem leaving_cons_join {c : Change} {changes : List Change} (h : c.action = .join) :
    leaving (c :: changes) = leaving changes := by simp [leaving, h]

theorem leaving_cons_leave {c : Change} {changes : List Change} (h : c.action = .leave) :
    leaving (c :: changes) = insert c.identity (leaving changes) := by simp [leaving, h]

/-- What is known of changes that a block by `producer` applies in order, and of the set that they
lead to. -/
structure Account (s : Suite) (height : UInt64) (producer : Bytes) (seen members : List Bytes)
    (changes : List Change) (result : List Bytes) : Prop where
  fresh : ∀ c ∈ changes, c.isFresh height = true
  signed : ∀ c ∈ changes, c.isSigned s = true
  unseen : ∀ c ∈ changes, c.identity ∉ seen
  nodup : (changes.map (·.identity)).Nodup
  join_not_mem : ∀ c ∈ changes, c.action = .join → c.identity ∉ members
  leave_mem : ∀ c ∈ changes, c.action = .leave → c.identity ∈ members
  leave_ne : ∀ c ∈ changes, c.action = .leave → c.identity ≠ producer
  sorted : Sorted Bytes.lt result
  toFinset_eq : result.toFinset = (members.toFinset ∪ joining changes) \ leaving changes

section Changes

variable {s : Suite} {height : UInt64} {producer : Bytes} {seen members result : List Bytes}
  {c : Change} {changes : List Change}

theorem applyAll_cons_eq_ok_iff :
    applyAll s height producer seen members (c :: changes) = .ok result ↔
      c.identity ∉ seen ∧ ∃ moved, apply s height producer members c = .ok moved ∧
        applyAll s height producer (c.identity :: seen) moved changes = .ok result := by
  rw [applyAll]
  by_cases hseen : c.identity ∈ seen
  · simp [hseen]
  · cases apply s height producer members c <;> simp [hseen]

theorem Moves.mem_iff_of_ne {x : Bytes} (h : Moves producer members c result)
    (hs : Sorted Bytes.lt members) (hx : x ≠ c.identity) : x ∈ result ↔ x ∈ members := by
  cases h with
  | join => rw [mem_enrol]; exact or_iff_right hx
  | leave =>
    rw [(Bytes.isLinear_lt.nodup_of_sorted hs).mem_erase_iff]
    exact and_iff_right hx

theorem Moves.toFinset_eq (h : Moves producer members c result) (hs : Sorted Bytes.lt members)
    (hother : ∀ d ∈ changes, d.identity ≠ c.identity) :
    (result.toFinset ∪ joining changes) \ leaving changes =
      (members.toFinset ∪ joining (c :: changes)) \ leaving (c :: changes) := by
  cases h with
  | join hact =>
    rw [toFinset_enrol, joining_cons_join hact, leaving_cons_join hact, Finset.insert_union,
      Finset.union_insert]
  | leave hact =>
    rw [toFinset_erase hs, joining_cons_leave hact, leaving_cons_leave hact]
    -- no later change is about the identity that leaves, so taking it away early or late is one
    have hout : c.identity ∉ joining changes := fun hmem => by
      obtain ⟨d, hd, -, he⟩ := mem_joining.mp hmem
      exact hother d hd he
    ext x
    by_cases hx : x = c.identity
    · simp [hx, hout]
    · simp [hx]

theorem account_nil (hs : Sorted Bytes.lt members) :
    Account s height producer seen members [] members where
  fresh := List.forall_mem_nil _
  signed := List.forall_mem_nil _
  unseen := List.forall_mem_nil _
  nodup := List.nodup_nil
  join_not_mem := List.forall_mem_nil _
  leave_mem := List.forall_mem_nil _
  leave_ne := List.forall_mem_nil _
  sorted := hs
  toFinset_eq := by simp [joining, leaving]

theorem account_cons {moved : List Bytes} (hs : Sorted Bytes.lt members) (hseen : c.identity ∉ seen)
    (hfresh : c.isFresh height = true) (hsigned : c.isSigned s = true)
    (hmove : Moves producer members c moved)
    (h : Account s height producer (c.identity :: seen) moved changes result) :
    Account s height producer seen members (c :: changes) result := by
  have hother : ∀ d ∈ changes, d.identity ≠ c.identity := fun d hd he =>
    h.unseen d hd (he ▸ List.mem_cons_self)
  refine ⟨List.forall_mem_cons.mpr ⟨hfresh, h.fresh⟩, List.forall_mem_cons.mpr ⟨hsigned, h.signed⟩,
    List.forall_mem_cons.mpr ⟨hseen, fun d hd hmem => h.unseen d hd (List.mem_cons_of_mem _ hmem)⟩,
    List.nodup_cons.mpr ⟨?_, h.nodup⟩, List.forall_mem_cons.mpr ⟨?_, ?_⟩,
    List.forall_mem_cons.mpr ⟨?_, ?_⟩, List.forall_mem_cons.mpr ⟨?_, h.leave_ne⟩, h.sorted, ?_⟩
  · intro hmem
    obtain ⟨d, hd, he⟩ := List.mem_map.mp hmem
    exact hother d hd he
  · intro hact
    cases hmove with
    | join _ hout => exact hout
    | leave hleave => rw [hact] at hleave; contradiction
  · intro d hd hact
    rw [← hmove.mem_iff_of_ne hs (hother d hd)]
    exact h.join_not_mem d hd hact
  · intro hact
    cases hmove with
    | join hjoin => rw [hact] at hjoin; contradiction
    | leave _ _ hin => exact hin
  · intro d hd hact
    rw [← hmove.mem_iff_of_ne hs (hother d hd)]
    exact h.leave_mem d hd hact
  · intro hact
    cases hmove with
    | join hjoin => rw [hact] at hjoin; contradiction
    | leave _ hne _ => exact hne
  · rw [h.toFinset_eq]
    exact hmove.toFinset_eq hs hother

/-- **Changes that are applied in order** lead from `M` to `(M ∪ joining) \ leaving`. -/
theorem account_of_applyAll (hs : Sorted Bytes.lt members)
    (h : applyAll s height producer seen members changes = .ok result) :
    Account s height producer seen members changes result := by
  induction changes generalizing seen members with
  | nil =>
    injection h with h
    exact h ▸ account_nil hs
  | cons c changes ih =>
    obtain ⟨hseen, moved, happly, hrest⟩ := applyAll_cons_eq_ok_iff.mp h
    obtain ⟨hfresh, hsigned, hmove⟩ := apply_eq_ok_iff.mp happly
    exact account_cons hs hseen hfresh hsigned hmove (ih (hmove.sorted hs) hrest)

theorem card_le_of_applyAll (hs : Sorted Bytes.lt members)
    (hroom : (insert producer members.toFinset).card ≤ maxNodes)
    (h : applyAll s height producer seen members changes = .ok result) :
    (insert producer result.toFinset).card ≤ maxNodes := by
  induction changes generalizing seen members with
  | nil =>
    injection h with h
    exact h ▸ hroom
  | cons c changes ih =>
    obtain ⟨-, moved, happly, hrest⟩ := applyAll_cons_eq_ok_iff.mp h
    obtain ⟨-, -, hmove⟩ := apply_eq_ok_iff.mp happly
    exact ih (hmove.sorted hs) (hmove.card_le hs hroom) hrest

end Changes

/-! ### The set of a child -/

/-- The set that changes lead to from `nodes` in a block by `producer`. -/
def successors (nodes : List Bytes) (changes : List Change) (producer : Bytes) : Finset Bytes :=
  insert producer ((nodes.toFinset ∪ joining changes) \ leaving changes)

variable {s : Suite} {parent : Block} {producer seed : Bytes} {changes : List Change}
  {nodes : List Bytes}

theorem mem_successors {x : Bytes} : x ∈ successors nodes changes producer ↔
    x = producer ∨ (x ∈ nodes ∨ x ∈ joining changes) ∧ x ∉ leaving changes := by
  rw [successors, Finset.mem_insert, Finset.mem_sdiff, Finset.mem_union, List.mem_toFinset]

theorem Account.length_eq {height : UInt64} {seen result : List Bytes}
    (h : Account s height producer seen (members parent) changes result) :
    (enrol producer result).length = (successors parent.nodes changes producer).card := by
  rw [length_eq_card (sorted_enrol h.sorted), toFinset_enrol, h.toFinset_eq, toFinset_members,
    successors]

theorem next_eq_ok_iff :
    next s parent producer changes seed = .ok nodes ↔
      changes.length ≤ maxChanges ∧
        ∃ result, applyAll s parent.height producer [] (members parent) changes = .ok result ∧
          (enrol producer result).length ≤ maxNodes ∧
          Ticket.order s seed (enrol producer result) = nodes := by
  rw [next]
  split
  · next hmany => simp [Nat.not_le.mpr hmany]
  next hmany =>
  rw [Nat.not_lt] at hmany
  cases applyAll s parent.height producer [] (members parent) changes with
  | error e => simp
  | ok result =>
    by_cases hfull : maxNodes < (enrol producer result).length
    · simp [hfull, Nat.not_le.mpr hfull]
    · simp [hfull, hmany, Nat.not_lt.mp hfull]

theorem account_of_next (h : next s parent producer changes seed = .ok nodes) :
    ∃ result, Account s parent.height producer [] (members parent) changes result ∧
      (enrol producer result).length ≤ maxNodes ∧
      Ticket.order s seed (enrol producer result) = nodes := by
  obtain ⟨-, result, happly, hle, hnodes⟩ := next_eq_ok_iff.mp h
  exact ⟨result, account_of_applyAll (sorted_members parent) happly, hle, hnodes⟩

theorem toFinset_of_next (h : next s parent producer changes seed = .ok nodes) :
    nodes.toFinset = successors parent.nodes changes producer := by
  obtain ⟨result, hacc, -, rfl⟩ := account_of_next h
  ext x
  rw [List.mem_toFinset, Ticket.mem_order, ← List.mem_toFinset, toFinset_enrol, hacc.toFinset_eq,
    toFinset_members, successors]

theorem sorted_of_next (h : next s parent producer changes seed = .ok nodes) :
    Sorted (Ticket.precedes s seed) nodes := by
  obtain ⟨result, -, -, rfl⟩ := account_of_next h
  exact Ticket.sorted_order s seed _

theorem nodup_of_next (h : next s parent producer changes seed = .ok nodes) : nodes.Nodup :=
  (Ticket.isLinear_precedes s seed).nodup_of_sorted (sorted_of_next h)

theorem length_le_of_next (h : next s parent producer changes seed = .ok nodes) :
    nodes.length ≤ maxNodes := by
  obtain ⟨result, hacc, hle, rfl⟩ := account_of_next h
  rwa [Ticket.length_order s (Bytes.isLinear_lt.nodup_of_sorted (sorted_enrol hacc.sorted))]

theorem producer_mem_of_next (h : next s parent producer changes seed = .ok nodes) :
    producer ∈ nodes := by
  rw [← List.mem_toFinset, toFinset_of_next h]
  exact Finset.mem_insert_self _ _

end Membership

end DelayLedger
