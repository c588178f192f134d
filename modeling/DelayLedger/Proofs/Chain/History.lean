import DelayLedger.Chain
import DelayLedger.Proofs.Membership.Roll
import DelayLedger.Proofs.Retarget

/-!
# Histories

A history is a list of blocks, the first one first, that begins with a block fit to be the first of
a chain and goes on with blocks each of which was accepted as a child of the one before.
`History.snoc` lets a history grow.  `Block.Follows` says what an accepted child has in common with
its parent, and from it comes, block by block, what all blocks of a history satisfy: heights count
from zero (`height_eq`), hashes and signatures are right (`hash_eq`, `verify_eq`) and difficulties are
positive (`difficulty_ne_zero`).
-/

namespace DelayLedger

/-! ### One child -/

structure Block.Follows (s : Suite) (policy : Policy) (b parent : Block) : Prop where
  previousHash_eq : b.previousHash = some parent.hash
  height_eq : b.height.toNat = parent.height.toNat + 1
  hash_eq : b.contentHash s = b.hash
  verify_eq : b.verify s = .ok ()
  proof_verifies : ∃ proof, b.proof = some proof ∧
    Delay.verify s parent.difficulty parent.hash.bytes proof = true
  timestamp_le : parent.timestamp ≤ b.timestamp
  difficulty_eq : b.difficulty = policy.next parent.difficulty parent.timestamp b.timestamp
  next_eq : Membership.next s parent b.producer b.changes b.seed = .ok b.nodes

theorem Block.continues_iff {b parent : Block} :
    b.continues parent = true ↔
      b.previousHash = some parent.hash ∧ b.height.toNat = parent.height.toNat + 1 := by
  rw [continues, Bool.and_eq_true, beq_iff_eq, beq_iff_eq]

theorem Block.hashMatches_iff {s : Suite} {b : Block} :
    b.hashMatches s = true ↔ b.contentHash s = b.hash := beq_iff_eq

theorem Block.isSigned_iff {s : Suite} {b : Block} :
    b.isSigned s = true ↔ b.verify s = .ok () := s.verifies_iff _ _ _

/-- The hashed contents do not hold the hash and the signature, so sealing a block keeps them. -/
theorem Block.hashMatches_sealWith (s : Suite) (b : Block) (keys : Keypair) :
    (b.sealWith s keys).hashMatches s = true := hashMatches_iff.mpr rfl

theorem Block.isSigned_sealWith {s : Suite} {b : Block} {keys : Keypair}
    (hproducer : b.producer = keys.publicKey)
    (hsign : ∀ message, s.verify keys.publicKey message (s.sign keys.secretKey message) = .ok ()) :
    (b.sealWith s keys).isSigned s = true := by
  refine isSigned_iff.mpr ?_
  show s.verify b.producer _ _ = .ok ()
  rw [hproducer]
  exact hsign _

theorem Block.seed_eq {b : Block} {proof : DelayProof} (h : b.proof = some proof) :
    b.seed = proof.toBytes := by rw [seed, h]

theorem follows_of_validate {s : Suite} {policy : Policy} {now : UInt64} {parent b : Block}
    (h : validate s policy now parent b = .ok ()) : b.Follows s policy parent := by
  obtain ⟨hlink, hhash, hsigned, proof, hproof, htime, -, hdifficulty, hnext⟩ :=
    validate_eq_ok_iff.mp h
  obtain ⟨hprevious, hheight⟩ := Block.continues_iff.mp hlink
  obtain ⟨hsome, hverify⟩ := Option.filter_eq_some_iff.mp hproof
  exact {
    previousHash_eq := hprevious
    height_eq := hheight
    hash_eq := Block.hashMatches_iff.mp hhash
    verify_eq := Block.isSigned_iff.mp hsigned
    proof_verifies := ⟨proof, hsome, hverify⟩
    timestamp_le := htime
    difficulty_eq := hdifficulty
    next_eq := by rw [Block.seed_eq hsome]; exact hnext }

/-! ### Lists of blocks -/

/-- A list of blocks, the first one first, each accepted after the one before. -/
structure History (s : Suite) (policy : Policy) (blocks : List Block) : Prop where
  first : ∃ genesis, blocks[0]? = some genesis ∧ checkGenesis s genesis = .ok ()
  link : ∀ {i : Nat} {parent b : Block}, blocks[i]? = some parent → blocks[i + 1]? = some b →
    ∃ now, validate s policy now parent b = .ok ()

namespace History

variable {s : Suite} {policy : Policy} {blocks : List Block}

theorem singleton {genesis : Block} (h : checkGenesis s genesis = .ok ()) :
    History s policy [genesis] where
  first := ⟨genesis, rfl, h⟩
  link _ hb := by simp at hb

/-- **A history grows** by a block that is accepted after its last one. -/
theorem snoc {now : UInt64} {parent b : Block} (h : History s policy blocks)
    (hlast : blocks.getLast? = some parent) (hb : validate s policy now parent b = .ok ()) :
    History s policy (blocks ++ [b]) := by
  obtain ⟨genesis, hgenesis, hcheck⟩ := h.first
  refine ⟨⟨genesis, List.getElem?_append_left (List.getElem?_eq_some_iff.mp hgenesis).1 ▸ hgenesis,
    hcheck⟩, fun {i p d} hp hd => ?_⟩
  have hlt : i + 1 < (blocks ++ [b]).length := (List.getElem?_eq_some_iff.mp hd).1
  rw [List.length_append, List.length_singleton] at hlt
  rw [List.getElem?_append_left (by omega)] at hp
  by_cases hi : i + 1 < blocks.length
  · rw [List.getElem?_append_left hi] at hd
    exact h.link hp hd
  · have hi : i + 1 = blocks.length := by omega
    rw [List.getLast?_eq_getElem?, ← hi, Nat.add_sub_cancel, hp] at hlast
    rw [hi, List.getElem?_concat_length] at hd
    injection hlast with hlast
    injection hd with hd
    exact ⟨now, hlast ▸ hd ▸ hb⟩

theorem follows (h : History s policy blocks) {i : Nat} {parent b : Block}
    (hp : blocks[i]? = some parent) (hb : blocks[i + 1]? = some b) : b.Follows s policy parent :=
  have ⟨_, hnow⟩ := h.link hp hb
  follows_of_validate hnow

theorem exists_parent {i : Nat} {b : Block} (hb : blocks[i + 1]? = some b) :
    ∃ parent, blocks[i]? = some parent := by
  have hlt := (List.getElem?_eq_some_iff.mp hb).1
  exact ⟨blocks[i], List.getElem?_eq_getElem _⟩

/-- What holds of the first block and passes from parent to child holds of every block. -/
theorem forall_blocks (h : History s policy blocks) {motive : Nat → Block → Prop}
    (hfirst : ∀ genesis, checkGenesis s genesis = .ok () → motive 0 genesis)
    (hchild : ∀ i parent b, motive i parent → b.Follows s policy parent → motive (i + 1) b)
    {i : Nat} {b : Block} (hb : blocks[i]? = some b) : motive i b := by
  induction i generalizing b with
  | zero =>
    obtain ⟨genesis, hgenesis, hcheck⟩ := h.first
    rw [hgenesis] at hb
    injection hb with hb
    exact hb ▸ hfirst genesis hcheck
  | succ i ih =>
    obtain ⟨parent, hp⟩ := exists_parent hb
    exact hchild i parent b (ih hp) (h.follows hp hb)

theorem height_eq (h : History s policy blocks) {i : Nat} {b : Block} (hb : blocks[i]? = some b) :
    b.height.toNat = i := by
  refine h.forall_blocks (motive := fun i b => b.height.toNat = i) ?_ ?_ hb
  · intro genesis hcheck
    have hgenesis := (checkGenesis_eq_ok_iff.mp hcheck).1
    rw [Block.isGenesis, Bool.and_eq_true, beq_iff_eq] at hgenesis
    rw [hgenesis.1]
    rfl
  · intro i parent b hp hb
    rw [hb.height_eq, hp]

theorem nodup (h : History s policy blocks) : blocks.Nodup := by
  refine List.nodup_iff_getElem?_ne_getElem?.mpr fun i j hij hj heq => ?_
  have hb : blocks[j]? = some blocks[j] := List.getElem?_eq_getElem hj
  have hi := h.height_eq (heq.trans hb)
  have hj := h.height_eq hb
  omega

/-- **A height names one block of a history.** -/
theorem eq_of_height_eq (h : History s policy blocks) {a b : Block} (ha : a ∈ blocks)
    (hb : b ∈ blocks) (hab : a.height = b.height) : a = b := by
  obtain ⟨i, hi⟩ := List.mem_iff_getElem?.mp ha
  obtain ⟨j, hj⟩ := List.mem_iff_getElem?.mp hb
  have hij : i = j := by rw [← h.height_eq hi, ← h.height_eq hj, hab]
  rw [hij, hj] at hi
  exact (Option.some.inj hi).symm

theorem exists_follows (h : History s policy blocks) {b : Block} (hb : b ∈ blocks)
    (hpos : b.height ≠ 0) : ∃ parent ∈ blocks, b.Follows s policy parent := by
  obtain ⟨i, hi⟩ := List.mem_iff_getElem?.mp hb
  cases i with
  | zero =>
    have hzero : b.height = 0 := UInt64.toNat_inj.mp (h.height_eq hi)
    contradiction
  | succ i =>
    obtain ⟨parent, hparent⟩ := exists_parent hi
    exact ⟨parent, List.mem_of_getElem? hparent, h.follows hparent hi⟩

theorem hash_eq (h : History s policy blocks) {b : Block} (hb : b ∈ blocks) :
    b.contentHash s = b.hash := by
  obtain ⟨i, hi⟩ := List.mem_iff_getElem?.mp hb
  refine h.forall_blocks (motive := fun _ b => b.contentHash s = b.hash) ?_ ?_ hi
  · intro genesis hcheck
    exact Block.hashMatches_iff.mp (checkGenesis_eq_ok_iff.mp hcheck).2.2.2.1
  · intro i parent b _ hb
    exact hb.hash_eq

theorem verify_eq (h : History s policy blocks) {b : Block} (hb : b ∈ blocks) :
    b.verify s = .ok () := by
  obtain ⟨i, hi⟩ := List.mem_iff_getElem?.mp hb
  refine h.forall_blocks (motive := fun _ b => b.verify s = .ok ()) ?_ ?_ hi
  · intro genesis hcheck
    exact Block.isSigned_iff.mp (checkGenesis_eq_ok_iff.mp hcheck).2.2.2.2
  · intro i parent b _ hb
    exact hb.verify_eq

theorem difficulty_ne_zero (h : History s policy blocks) {b : Block} (hb : b ∈ blocks) :
    b.difficulty ≠ 0 := by
  obtain ⟨i, hi⟩ := List.mem_iff_getElem?.mp hb
  refine h.forall_blocks (motive := fun _ b => b.difficulty ≠ 0) ?_ ?_ hi
  · intro genesis hcheck
    exact (checkGenesis_eq_ok_iff.mp hcheck).2.2.1
  · intro i parent b hp hb
    rw [hb.difficulty_eq]
    exact Policy.next_ne_zero hp

end History

end DelayLedger
