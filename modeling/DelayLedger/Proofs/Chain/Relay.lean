import DelayLedger.Proofs.Block.Format
import DelayLedger.Proofs.Chain.Reachable
import DelayLedger.Suite.Standard

/-!
# Blocks that can be sent

No check looks at the size of a block.  But every identity in the set of a block was in the set of its
parent, joined with its own signature, or made the block, and signatures verify under keys of one size
only.  So once the identities of the first block have that size, all parts of all blocks are bounded
(`Block.Measured`), and every block fits a payload.
-/

namespace DelayLedger

/-- The sizes of a block's parts: identities are keys, signatures are signatures, and the parts of the
proof are group elements. -/
structure Block.Measured (s : Suite) (b : Block) : Prop where
  proof : ∀ p ∈ b.proof,
    p.output.length ≤ Delay.modulusBytes ∧ p.witness.length ≤ Delay.modulusBytes
  producer : b.producer.length = s.publicSize
  changes : b.changes.length ≤ maxChanges
  change : ∀ c ∈ b.changes,
    c.identity.length = s.publicSize ∧ c.signature.length = s.signatureSize
  nodes : b.nodes.length ≤ maxNodes
  node : ∀ x ∈ b.nodes, x.length = s.publicSize
  signature : b.signature.length = s.signatureSize

structure Block.MeasuredBody (s : Suite) (b : Block) : Prop where
  proof : ∀ p ∈ b.proof,
    p.output.length ≤ Delay.modulusBytes ∧ p.witness.length ≤ Delay.modulusBytes
  producer : b.producer.length = s.publicSize
  changes : b.changes.length ≤ maxChanges
  change : ∀ c ∈ b.changes,
    c.identity.length = s.publicSize ∧ c.signature.length = s.signatureSize

variable {s : Suite}

/-! ### Sizes that checks imply -/

theorem Suite.length_of_verify {key message signature : Bytes}
    (h : s.verify key message signature = .ok ()) :
    key.length = s.publicSize ∧ signature.length = s.signatureSize :=
  have ⟨hkey, hsignature, _⟩ := (s.verify_eq_ok_iff _ _ _).mp h
  ⟨hkey, hsignature⟩

theorem Change.length_of_isSigned {c : Change} (h : c.isSigned s = true) :
    c.identity.length = s.publicSize ∧ c.signature.length = s.signatureSize :=
  Suite.length_of_verify ((s.verifies_iff _ _ _).mp h)

theorem Delay.length_le_of_element? {part : Bytes} {n : Nat} (h : element? s part = some n) :
    part.length ≤ modulusBytes := by
  rw [element?] at h
  split at h
  · next hpart => exact hpart.1
  · contradiction

theorem Delay.length_le_of_verify {difficulty : UInt64} {challenge : Bytes} {p : DelayProof}
    (h : verify s difficulty challenge p = true) :
    p.output.length ≤ modulusBytes ∧ p.witness.length ≤ modulusBytes := by
  rw [verify] at h
  split at h
  · contradiction
  split at h
  · next houtput hwitness =>
    exact ⟨length_le_of_element? houtput, length_le_of_element? hwitness⟩
  · contradiction

/-! ### From the first block on -/

theorem measured_genesis {keys : Keypair} {nodes : List Bytes} {difficulty timestamp : UInt64}
    (hcheck : checkGenesis s (genesis s keys nodes difficulty timestamp) = .ok ())
    (hnodes : ∀ x ∈ nodes, x.length = s.publicSize) :
    (genesis s keys nodes difficulty timestamp).Measured s := by
  obtain ⟨-, -, -, -, hsigned⟩ := checkGenesis_eq_ok_iff.mp hcheck
  obtain ⟨hproducer, hsignature⟩ := Suite.length_of_verify (Block.isSigned_iff.mp hsigned)
  have hsorted : Ascending.Sorted Bytes.lt ((Ascending.ofList Bytes.lt
      (nodes.filter (· != keys.publicKey))).take (maxNodes - 1)) :=
    (Bytes.isLinear_lt.sorted_ofList _).sublist (List.take_sublist _ _)
  refine ⟨nofun, hproducer, Nat.zero_le _, nofun, ?_, fun x hx => ?_, hsignature⟩
  · show (Membership.enrol keys.publicKey _).length ≤ maxNodes
    rw [Membership.length_eq_card (Membership.sorted_enrol hsorted), Membership.toFinset_enrol]
    refine (Finset.card_insert_le _ _).trans ?_
    rw [← Membership.length_eq_card hsorted, List.length_take]
    have hmax : 1 ≤ maxNodes := by decide
    omega
  · rcases Membership.mem_enrol.mp hx with rfl | hx
    · exact hproducer
    · have hmem := Bytes.isLinear_lt.mem_ofList.mp (List.mem_of_mem_take hx)
      exact hnodes x (List.mem_of_mem_filter hmem)

/-- **The checks bound all parts of a child up to its changes**, whatever its parent is. -/
theorem Block.Follows.measuredBody {policy : Policy} {parent b : Block}
    (h : b.Follows s policy parent) : b.MeasuredBody s := by
  obtain ⟨hproducer, -⟩ := Suite.length_of_verify h.verify_eq
  obtain ⟨hchanges, -⟩ := Membership.next_eq_ok_iff.mp h.next_eq
  obtain ⟨result, hacc, -⟩ := Membership.account_of_next h.next_eq
  refine ⟨fun p hp => ?_, hproducer, hchanges,
    fun c hc => Change.length_of_isSigned (hacc.signed c hc)⟩
  obtain ⟨proof, hproof, hverify⟩ := h.proof_verifies
  rw [hproof] at hp
  obtain rfl := Option.some.inj hp
  exact Delay.length_le_of_verify hverify

/-- **A child is measured if its parent is.** -/
theorem Block.Follows.measured {policy : Policy} {parent b : Block} (h : b.Follows s policy parent)
    (hparent : parent.Measured s) : b.Measured s := by
  obtain ⟨hproof, hproducer, hchanges, hchange⟩ := h.measuredBody
  obtain ⟨-, hsignature⟩ := Suite.length_of_verify h.verify_eq
  refine ⟨hproof, hproducer, hchanges, hchange, Membership.length_le_of_next h.next_eq,
    fun x hx => ?_, hsignature⟩
  rw [← List.mem_toFinset, Membership.toFinset_of_next h.next_eq, Membership.successors,
    Finset.mem_insert, Finset.mem_sdiff, Finset.mem_union] at hx
  rcases hx with rfl | ⟨hmember | hjoining, -⟩
  · exact hproducer
  · exact hparent.node x (List.mem_toFinset.mp hmember)
  · obtain ⟨c, hc, -, rfl⟩ := Membership.mem_joining.mp hjoining
    exact (hchange c hc).1

theorem History.measured {policy : Policy} {blocks : List Block} (h : History s policy blocks)
    {first : Block} (hfirst : blocks[0]? = some first) (hmeasured : first.Measured s) {i : Nat}
    {b : Block} (hb : blocks[i]? = some b) : b.Measured s := by
  induction i generalizing b with
  | zero =>
    rw [hfirst] at hb
    exact Option.some.inj hb ▸ hmeasured
  | succ i ih =>
    obtain ⟨parent, hparent⟩ := exists_parent hb
    exact (h.follows hparent hb).measured (ih hparent)

/-! ### Payloads -/

theorem Block.Measured.within {b : Block} (h : b.Measured s)
    (hpublic : s.publicSize ≤ Suite.standard.publicSize)
    (hsignature : s.signatureSize ≤ Suite.standard.signatureSize) : b.Within 4096 := by
  have hkeys : s.publicSize < 4096 := hpublic.trans_lt (by decide)
  have hsignatures : s.signatureSize < 4096 := hsignature.trans_lt (by decide)
  have helement : Delay.modulusBytes < 4096 := by decide
  have hlimits : maxChanges < 4096 ∧ maxNodes < 4096 := by decide
  exact {
    proof := fun p hp => ⟨(h.proof p hp).1.trans_lt helement, (h.proof p hp).2.trans_lt helement⟩
    producer := h.producer.trans_lt hkeys
    changes := h.changes.trans_lt hlimits.1
    change := fun c hc => ⟨(h.change c hc).1.trans_lt hkeys, (h.change c hc).2.trans_lt hsignatures⟩
    nodes := h.nodes.trans_lt hlimits.2
    node := fun x hx => (h.node x hx).trans_lt hkeys
    signature := h.signature.trans_lt hsignatures }

/-- **Every block of a chain can be sent**, and is read back, when the chain's first block was made
from identities of the size of a key, and keys and signatures are no larger than the standard ones. -/
theorem Chain.Reachable.sendable {c : Chain} (hc : Reachable s c)
    (hpublic : s.publicSize ≤ Suite.standard.publicSize)
    (hsignature : s.signatureSize ≤ Suite.standard.signatureSize) {keys : Keypair}
    {nodes : List Bytes} {difficulty timestamp : UInt64}
    (hfirst : c.blocks[0]? = some (genesis s keys nodes difficulty timestamp))
    (hnodes : ∀ x ∈ nodes, x.length = s.publicSize) {b : Block} (hb : b ∈ c.blocks) :
    b.nodes.length ≤ maxNodes ∧ b.changes.length ≤ maxChanges ∧
      ∃ payload, Wire.encode b = .ok payload ∧ payload.length ≤ Wire.maxBytes ∧
        Wire.decode payload = .ok b := by
  obtain ⟨first, hfound, hcheck⟩ := hc.history.first
  rw [hfirst] at hfound
  obtain rfl := Option.some.inj hfound
  obtain ⟨i, hi⟩ := List.mem_iff_getElem?.mp hb
  have hmeasured := hc.history.measured hfirst (measured_genesis hcheck hnodes) hi
  have hsize := Wire.length_putBlock_le (hmeasured.within hpublic hsignature) hmeasured.nodes
    hmeasured.changes
  have hencode := Wire.encode_eq_ok_iff.mpr ⟨rfl, hsize⟩
  exact ⟨hmeasured.nodes, hmeasured.changes, _, hencode, hsize,
    Wire.decode_of_encode hmeasured.nodes hmeasured.changes hencode⟩

/-- The second block of the small ledger can be sent, and the standard suite has the sizes that blocks
are sent with. -/
theorem Sample.second_sendable :
    Suite.standard.publicSize = 1952 ∧ Suite.standard.signatureSize = 3309 ∧
      ∃ payload, Wire.encode second = .ok payload ∧ Wire.decode payload = .ok second := by
  have hnodes : ∀ x ∈ [leaver.publicKey], x.length = Suite.small.publicSize := by decide
  have hmem : second ∈ Sample.chain.blocks := List.mem_cons_of_mem _ List.mem_cons_self
  obtain ⟨-, -, payload, hencode, -, hdecode⟩ :=
    reachable_chain.sendable (by decide) (by decide) rfl hnodes hmem
  exact ⟨rfl, rfl, payload, hencode, hdecode⟩

end DelayLedger
