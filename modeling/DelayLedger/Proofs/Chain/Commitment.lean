import DelayLedger.Proofs.Block.Preimage
import DelayLedger.Proofs.Chain.Restore

/-!
# What a hash commits to

A block's hash tells everything of it that is hashed, its parent's hash among it.  So equal hashes in
two histories stand at equal heights and have equal parents, and from the tip down the histories agree
on all but signatures, whatever policies and clocks they grew under.

* `Distinguishable`: what is assumed of the blocks involved.
* `History.agree_of_hash_eq`: two histories agree from blocks of one hash down.
* `Chain.Reachable.tip_commits`: the hash of the tip commits to the chain.
-/

namespace DelayLedger

/-- Blocks that can be told apart by their hashes: no two collide, and the lengths of their lists and
byte strings fit the four bytes that are hashed of them. -/
structure Distinguishable (s : Suite) (blocks : List Block) : Prop where
  collisionFree : CollisionFree s (· ∈ blocks)
  within : ∀ b ∈ blocks, b.Within UInt32.size

namespace History

variable {s : Suite} {p q : Policy} {l m : List Block}

theorem unsigned_eq_of_hash_eq (hl : History s p l) (hm : History s q m)
    (h : Distinguishable s (l ++ m)) {a b : Block} (ha : a ∈ l) (hb : b ∈ m)
    (hab : a.hash = b.hash) : a.unsigned = b.unsigned := by
  have hamem : a ∈ l ++ m := List.mem_append_left m ha
  have hbmem : b ∈ l ++ m := List.mem_append_right l hb
  have hcontent : a.contentHash s = b.contentHash s := by rw [hl.hash_eq ha, hm.hash_eq hb, hab]
  have hunsealed := Block.unsealed_eq_of_preimage_eq (h.within a hamem) (h.within b hbmem)
    (h.collisionFree a b hamem hbmem hcontent)
  exact Block.unsigned_eq_of_unsealed_eq hunsealed hab

theorem index_eq_of_hash_eq (hl : History s p l) (hm : History s q m)
    (h : Distinguishable s (l ++ m)) {i j : Nat} {a b : Block} (ha : l[i]? = some a)
    (hb : m[j]? = some b) (hab : a.hash = b.hash) : i = j := by
  have hunsigned := hl.unsigned_eq_of_hash_eq hm h (List.mem_of_getElem? ha)
    (List.mem_of_getElem? hb) hab
  have hheight := congrArg (fun b : Block => b.height.toNat) hunsigned
  rw [← hl.height_eq ha, ← hm.height_eq hb]
  exact hheight

/-- **From blocks of one hash down, two histories agree** on all but signatures. -/
theorem agree_of_hash_eq (hl : History s p l) (hm : History s q m) (h : Distinguishable s (l ++ m))
    {i k : Nat} {a b : Block} (ha : l[i]? = some a) (hb : m[i]? = some b) (hab : a.hash = b.hash)
    (hk : k ≤ i) : l[k]?.map Block.unsigned = m[k]?.map Block.unsigned := by
  have hunsigned := hl.unsigned_eq_of_hash_eq hm h (List.mem_of_getElem? ha)
    (List.mem_of_getElem? hb) hab
  -- the induction goes down the links to the parents
  induction i generalizing a b with
  | zero => rw [Nat.le_zero.mp hk, ha, hb, Option.map_some, Option.map_some, hunsigned]
  | succ i ih =>
    by_cases hki : k = i + 1
    · rw [hki, ha, hb, Option.map_some, Option.map_some, hunsigned]
    · obtain ⟨parent, hparent⟩ := exists_parent ha
      obtain ⟨other, hother⟩ := exists_parent hb
      have hprevious := congrArg Block.previousHash hunsigned
      change a.previousHash = b.previousHash at hprevious
      rw [(hl.follows hparent ha).previousHash_eq, (hm.follows hother hb).previousHash_eq]
        at hprevious
      have hparents : parent.hash = other.hash := Option.some.inj hprevious
      exact ih hparent hother hparents (by omega) (hl.unsigned_eq_of_hash_eq hm h
        (List.mem_of_getElem? hparent) (List.mem_of_getElem? hother) hparents)

theorem map_unsigned_eq (hl : History s p l) (hm : History s q m) (h : Distinguishable s (l ++ m))
    {a b : Block} (ha : l.getLast? = some a) (hb : m.getLast? = some b) (hab : a.hash = b.hash) :
    l.map Block.unsigned = m.map Block.unsigned := by
  rw [List.getLast?_eq_getElem?] at ha hb
  have hindex := hl.index_eq_of_hash_eq hm h ha hb hab
  have hlpos := (List.getElem?_eq_some_iff.mp ha).1
  have hmpos := (List.getElem?_eq_some_iff.mp hb).1
  have hlength : l.length = m.length := by omega
  rw [← hindex] at hb
  apply List.ext_getElem?
  intro k
  rw [List.getElem?_map, List.getElem?_map]
  by_cases hk : k < l.length
  · exact hl.agree_of_hash_eq hm h ha hb hab (by omega)
  · rw [List.getElem?_eq_none (by omega), List.getElem?_eq_none (by omega)]

end History

namespace Chain

/-- **The hash of the tip commits to the whole chain.**  Reachable chains whose tips have one hash have
one length and, at every height, blocks that differ at most in their signatures; and so does a list of
blocks that is restored and ends with that hash. -/
theorem Reachable.tip_commits {s : Suite} {c : Chain} (hc : Reachable s c) :
    (∀ d : Chain, Reachable s d → Distinguishable s (c.blocks ++ d.blocks) →
      c.tip.hash = d.tip.hash →
      c.length = d.length ∧ c.blocks.map Block.unsigned = d.blocks.map Block.unsigned) ∧
    (∀ (policy : Policy) (now : UInt64) (blocks : List Block) (d : Chain),
      Chain.restore s policy now blocks = .ok d → Distinguishable s (c.blocks ++ blocks) →
      blocks.getLast?.map Block.hash = some c.tip.hash →
      blocks.length = c.length ∧ blocks.map Block.unsigned = c.blocks.map Block.unsigned) := by
  have hlength : ∀ {l : List Block}, c.blocks.map Block.unsigned = l.map Block.unsigned →
      c.length = l.length := fun h => by
    rw [← length_blocks, ← List.length_map Block.unsigned, h, List.length_map]
  constructor
  · intro d hd h htip
    have hagree := hc.history.map_unsigned_eq hd.history h c.getLast?_blocks d.getLast?_blocks htip
    rw [← d.length_blocks]
    exact ⟨hlength hagree, hagree⟩
  · intro policy now blocks d hrestore h hlast
    obtain ⟨last, hblock, hhash⟩ := Option.map_eq_some_iff.mp hlast
    have hrestored := (blocks_of_restore hrestore).1 ▸ history_of_restore hrestore
    have hagree :=
      hc.history.map_unsigned_eq hrestored h c.getLast?_blocks hblock hhash.symm
    exact ⟨(hlength hagree).symm, hagree.symm⟩

end Chain

namespace Sample

/-- The small suite with every signature accepted. -/
def lenient : Suite := { Suite.small with accepts := fun _ _ _ => true }

def resigned : Block := { second with signature := List.replicate 32 0 }

theorem checkGenesis_lenient : checkGenesis lenient first = .ok () :=
  checkGenesis_eq_ok_iff.mpr (by decide +kernel)

theorem reachable_lenient {b : Block} (h : validate lenient .fixed 100 first b = .ok ()) :
    Chain.Reachable lenient (founded.push b) := by
  have hcall := Chain.Reachable.call (.append 100 b)
    (.new (Chain.new_of_checkGenesis .fixed checkGenesis_lenient))
  rw [Chain.Call.run, AppendCall.runAlone_of_ok h] at hcall
  exact hcall

theorem validate_resigned : validate lenient .fixed 100 first resigned = .ok () :=
  validate_eq_ok_iff.mpr (by decide +kernel)

theorem restore_resigned :
    Chain.restore lenient .fixed 100 [first, resigned] = .ok (founded.push resigned).quiet :=
  Chain.restore_eq_ok_iff_accepts.mpr ⟨first, [resigned], founded.push resigned, rfl,
    checkGenesis_lenient, .cons validate_resigned (.nil _), rfl⟩

theorem distinguishable_resigned :
    Distinguishable lenient (chain.blocks ++ [first, resigned]) where
  collisionFree := by
    have h : ∀ a ∈ chain.blocks ++ [first, resigned], ∀ b ∈ chain.blocks ++ [first, resigned],
        a.contentHash lenient = b.contentHash lenient → a.preimage = b.preimage := by decide +kernel
    exact fun a b ha hb => h a ha b hb
  within := by decide +kernel

/-- Two blocks that differ in their signatures end chains that agree in all else, one of them
restored. -/
theorem commits_resigned :
    second ≠ resigned ∧
      (founded.push second).blocks.map Block.unsigned =
        (founded.push resigned).blocks.map Block.unsigned ∧
      [first, resigned].map Block.unsigned = (founded.push second).blocks.map Block.unsigned := by
  have hsecond := reachable_lenient (b := second) (validate_eq_ok_iff.mpr (by decide +kernel))
  have hresigned := reachable_lenient validate_resigned
  obtain ⟨hlive, hrestored⟩ := Chain.Reachable.tip_commits hsecond
  refine ⟨by decide +kernel, ?_, ?_⟩
  · exact (hlive _ hresigned distinguishable_resigned rfl).2
  · exact (hrestored .fixed 100 _ _ restore_resigned distinguishable_resigned rfl).2

end Sample

end DelayLedger
