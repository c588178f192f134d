import DelayLedger.Proofs.Chain.Reachable

/-!
# Consent

An identity comes into the consensus set or out of it in one step from a parent to its child.  The
account of the child's changes (`Membership.Account`) names what moved it: a change that it signed
itself, or the making of the child.

* `History.exists_link`: where a property of blocks ends, it ends between a parent and its child.
* `Block.Follows.records_leave`, `Block.Follows.producer_or_records_join`: one step.
* `Chain.Reachable.consent`: any two heights of a reachable chain.
-/

namespace DelayLedger

/-- A block records a change of the identity, signed by it and requested at the height of the block's
parent or at one of the 64 below. -/
def Block.Records (s : Suite) (b : Block) (identity : Bytes) (action : Action) : Prop :=
  ∃ c ∈ b.changes, c.identity = identity ∧ c.action = action ∧ c.verify s = .ok () ∧
    b.height.toNat - 1 - 64 ≤ c.requestedAt.toNat ∧ c.requestedAt.toNat ≤ b.height.toNat - 1

/-! ### One step -/

namespace Block.Follows

variable {s : Suite} {policy : Policy} {parent b : Block} {x : Bytes}

/-- **Every change that a child records** is signed by the identity that it names, and fresh. -/
theorem records (h : b.Follows s policy parent) {c : Change} (hc : c ∈ b.changes) :
    b.Records s c.identity c.action := by
  obtain ⟨result, hacc, -⟩ := Membership.account_of_next h.next_eq
  obtain ⟨hasked, hlate⟩ := Change.isFresh_iff.mp (hacc.fresh c hc)
  have hheight := h.height_eq
  rw [UInt64.le_iff_toNat_le] at hasked
  refine ⟨c, hc, rfl, rfl, Change.isSigned_iff.mp (hacc.signed c hc), ?_, ?_⟩ <;> omega

theorem mem_nodes_iff (h : b.Follows s policy parent) :
    x ∈ b.nodes ↔ x = b.producer ∨
      (x ∈ parent.nodes ∨ x ∈ Membership.joining b.changes) ∧
        x ∉ Membership.leaving b.changes := by
  rw [← List.mem_toFinset, Membership.toFinset_of_next h.next_eq, Membership.mem_successors]

/-- **Who is out of the set after one block** has left, and did not make the block. -/
theorem records_leave (h : b.Follows s policy parent) (hparent : x ∈ parent.nodes)
    (hb : x ∉ b.nodes) : b.producer ≠ x ∧ b.Records s x .leave := by
  rw [h.mem_nodes_iff, not_or] at hb
  obtain ⟨hproducer, hout⟩ := hb
  have hleaving : x ∈ Membership.leaving b.changes := by
    by_contra hstay
    exact hout ⟨Or.inl hparent, hstay⟩
  obtain ⟨c, hc, haction, hidentity⟩ := Membership.mem_leaving.mp hleaving
  exact ⟨Ne.symm hproducer, hidentity ▸ haction ▸ h.records hc⟩

/-- **Who is in the set after one block** and was not before has joined, or made the block. -/
theorem producer_or_records_join (h : b.Follows s policy parent) (hparent : x ∉ parent.nodes)
    (hb : x ∈ b.nodes) : (b.producer = x ∧ b.verify s = .ok ()) ∨ b.Records s x .join := by
  rcases h.mem_nodes_iff.mp hb with hproducer | ⟨hmem, -⟩
  · exact Or.inl ⟨hproducer.symm, h.verify_eq⟩
  · have hjoining := hmem.resolve_left hparent
    obtain ⟨c, hc, haction, hidentity⟩ := Membership.mem_joining.mp hjoining
    exact Or.inr (hidentity ▸ haction ▸ h.records hc)

end Block.Follows

/-! ### Many steps -/

/-- **A property of blocks ends between a parent and its child**, if it holds of one block of a history
and not of a later one. -/
theorem History.exists_link {s : Suite} {policy : Policy} {blocks : List Block}
    (h : History s policy blocks) {P : Block → Prop} {a d : Block} (ha : a ∈ blocks) (hd : d ∈ blocks)
    (hlt : a.height < d.height) (hPa : P a) (hPd : ¬ P d) :
    ∃ parent b, b ∈ blocks ∧ a.height < b.height ∧ b.height ≤ d.height ∧
      b.Follows s policy parent ∧ P parent ∧ ¬ P b := by
  obtain ⟨i, hi⟩ := List.mem_iff_getElem?.mp ha
  obtain ⟨j, hj⟩ := List.mem_iff_getElem?.mp hd
  rw [UInt64.lt_iff_toNat_lt, h.height_eq hi, h.height_eq hj] at hlt
  -- the induction is on the later of the two heights
  induction j, hlt using Nat.le_induction generalizing d with
  | base =>
    refine ⟨a, d, hd, ?_, UInt64.le_refl _, h.follows hi hj, hPa, hPd⟩
    rw [UInt64.lt_iff_toNat_lt, h.height_eq hi, h.height_eq hj]
    exact Nat.lt_succ_self i
  | succ j hij ih =>
    obtain ⟨parent, hparent⟩ := exists_parent hj
    by_cases hP : P parent
    · refine ⟨parent, d, hd, ?_, UInt64.le_refl _, h.follows hparent hj, hP, hPd⟩
      rw [UInt64.lt_iff_toNat_lt, h.height_eq hi, h.height_eq hj]
      omega
    · obtain ⟨p, b, hb, hab, hbp, hrest⟩ := ih (List.mem_of_getElem? hparent) hP hparent
      refine ⟨p, b, hb, hab, UInt64.le_trans hbp ?_, hrest⟩
      rw [UInt64.le_iff_toNat_le, h.height_eq hparent, h.height_eq hj]
      exact Nat.le_succ j

namespace Chain

/-- **Nobody is enrolled or evicted without consent.**  Between a block that has an identity in its
set and a higher one that has not, some block made by another node records that it leaves.  Between a
block that has it not and a higher one that has, some block is made and signed by it or records that it
joins. -/
theorem Reachable.consent {s : Suite} {c : Chain} (h : Reachable s c) {a d : Block}
    (ha : a ∈ c.blocks) (hd : d ∈ c.blocks) (hlt : a.height < d.height) (x : Bytes) :
    (x ∈ a.nodes → x ∉ d.nodes →
      ∃ b ∈ c.blocks, a.height < b.height ∧ b.height ≤ d.height ∧
        b.producer ≠ x ∧ b.Records s x .leave) ∧
    (x ∉ a.nodes → x ∈ d.nodes →
      ∃ b ∈ c.blocks, a.height < b.height ∧ b.height ≤ d.height ∧
        ((b.producer = x ∧ b.verify s = .ok ()) ∨ b.Records s x .join)) := by
  constructor
  · intro hin hout
    obtain ⟨parent, b, hb, hab, hbd, hfollows, hparent, hchild⟩ :=
      h.history.exists_link (P := fun b => x ∈ b.nodes) ha hd hlt hin hout
    exact ⟨b, hb, hab, hbd, hfollows.records_leave hparent hchild⟩
  · intro hout hin
    obtain ⟨parent, b, hb, hab, hbd, hfollows, hparent, hchild⟩ :=
      h.history.exists_link (P := fun b => x ∉ b.nodes) ha hd hlt hout (not_not.mpr hin)
    exact ⟨b, hb, hab, hbd, hfollows.producer_or_records_join hparent (not_not.mp hchild)⟩

end Chain

/-- In the small ledger one node leaves and another joins. -/
theorem Sample.consent_second :
    (∃ b ∈ Sample.chain.blocks, b.producer ≠ leaver.publicKey ∧
      b.Records Suite.small leaver.publicKey .leave) ∧
    ∃ b ∈ Sample.chain.blocks, (b.producer = joiner.publicKey ∧ b.verify Suite.small = .ok ()) ∨
      b.Records Suite.small joiner.publicKey .join := by
  have hfirst : first ∈ Sample.chain.blocks := List.mem_cons_self
  have hsecond : second ∈ Sample.chain.blocks := List.mem_cons_of_mem _ List.mem_cons_self
  have hlt : first.height < second.height := by decide +kernel
  obtain ⟨b, hb, -, -, hleave⟩ :=
    (reachable_chain.consent hfirst hsecond hlt leaver.publicKey).1 (by decide +kernel)
      (by decide +kernel)
  obtain ⟨d, hd, -, -, hjoin⟩ :=
    (reachable_chain.consent hfirst hsecond hlt joiner.publicKey).2 (by decide +kernel)
      (by decide +kernel)
  exact ⟨⟨b, hb, hleave⟩, d, hd, hjoin⟩

end DelayLedger
