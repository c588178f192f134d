import DelayLedger.Block

/-!
# Sizes of a block's parts

`Block.Within bound` says that every list and every byte string of a block is shorter than `bound`,
and `Block.BodyWithin bound` says it of all that comes before the set.  The byte formats write lengths
with a fixed number of bytes: hashed contents tell blocks apart up to `2 ^ 32`, and what is stored or
sent is read back up to `2 ^ 64`.
-/

namespace DelayLedger.Block

/-- Every list and every byte string of a block is shorter than the bound. -/
structure Within (bound : Nat) (b : Block) : Prop where
  proof : ∀ p ∈ b.proof, p.output.length < bound ∧ p.witness.length < bound
  producer : b.producer.length < bound
  changes : b.changes.length < bound
  change : ∀ c ∈ b.changes, c.identity.length < bound ∧ c.signature.length < bound
  nodes : b.nodes.length < bound
  node : ∀ x ∈ b.nodes, x.length < bound
  signature : b.signature.length < bound

theorem within_iff {bound : Nat} {b : Block} :
    b.Within bound ↔
      (∀ p ∈ b.proof, p.output.length < bound ∧ p.witness.length < bound) ∧
        b.producer.length < bound ∧ b.changes.length < bound ∧
        (∀ c ∈ b.changes, c.identity.length < bound ∧ c.signature.length < bound) ∧
        b.nodes.length < bound ∧ (∀ x ∈ b.nodes, x.length < bound) ∧ b.signature.length < bound :=
  ⟨fun h => ⟨h.proof, h.producer, h.changes, h.change, h.nodes, h.node, h.signature⟩,
    fun ⟨hproof, hproducer, hchanges, hchange, hnodes, hnode, hsignature⟩ =>
      ⟨hproof, hproducer, hchanges, hchange, hnodes, hnode, hsignature⟩⟩

instance (bound : Nat) (b : Block) : Decidable (b.Within bound) := decidable_of_iff' _ within_iff

structure BodyWithin (bound : Nat) (b : Block) : Prop where
  proof : ∀ p ∈ b.proof, p.output.length < bound ∧ p.witness.length < bound
  producer : b.producer.length < bound
  changes : b.changes.length < bound
  change : ∀ c ∈ b.changes, c.identity.length < bound ∧ c.signature.length < bound

theorem Within.body {bound : Nat} {b : Block} (h : b.Within bound) : b.BodyWithin bound :=
  ⟨h.proof, h.producer, h.changes, h.change⟩

end DelayLedger.Block
