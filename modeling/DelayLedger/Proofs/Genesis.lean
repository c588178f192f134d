import DelayLedger.Proofs.Chain.Restore
import DelayLedger.Proofs.Membership.Capacity

/-!
# The first block

Whoever founds a chain lists the nodes that are to start with it.  The set of the first block has the
founder and, of the others, as many of the smallest as there is room for.  Of the list only matters which
others are on it.

* `Ascending.IsLinear.mem_take_iff`: the front of an ascending list holds its smallest elements.
* `toFinset_otherNodes`, `card_lowest`: the others that are taken.
* `nodes_genesis`: the set of the first block.
* `checkGenesis_genesis`: the difficulty alone can be at fault.
* `genesis_founds`: all of it.
-/

namespace DelayLedger

/-! ### The smallest elements -/

/-- **The front of an ascending list** holds the elements with the fewest elements below them. -/
theorem Ascending.IsLinear.mem_take_iff {α : Type} {lt : α → α → Bool} (h : IsLinear lt) {l : List α}
    (hl : Sorted lt l) {n : Nat} {x : α} :
    x ∈ l.take n ↔ x ∈ l ∧ (l.filter (lt · x)).length < n := by
  induction l generalizing n with
  | nil => simp
  | cons y r ih =>
    obtain ⟨hy, hr⟩ := List.pairwise_cons.mp hl
    cases n with
    | zero => simp
    | succ n =>
      rw [List.take_succ_cons, List.mem_cons, List.mem_cons, ih hr]
      by_cases hxy : x = y
      · -- nothing is below the first element
        subst hxy
        have hnone : (x :: r).filter (lt · x) = [] := by
          refine List.filter_eq_nil_iff.mpr fun z hz hzx => ?_
          rcases List.mem_cons.mp hz with rfl | hz
          · exact absurd hzx (by rw [h.irrefl]; exact Bool.false_ne_true)
          · exact absurd (h.trans hzx (hy z hz)) (by rw [h.irrefl]; exact Bool.false_ne_true)
        rw [hnone]
        exact iff_of_true (Or.inl rfl) ⟨Or.inl rfl, Nat.succ_pos n⟩
      · -- what comes later has the first element below it
        rw [or_iff_right hxy, or_iff_right hxy]
        refine and_congr_right fun hx => ?_
        have hbelow : (y :: r).filter (lt · x) = y :: r.filter (lt · x) :=
          List.filter_cons_of_pos (hy x hx)
        rw [hbelow, List.length_cons, Nat.succ_lt_succ_iff]

namespace Membership

/-- The `n` smallest of some identities: those that have fewer than `n` of them below. -/
def lowest (n : Nat) (identities : Finset Bytes) : Finset Bytes :=
  identities.filter fun x => (identities.filter fun y => Bytes.lt y x).card < n

theorem toFinset_take {l : List Bytes} (hl : Ascending.Sorted Bytes.lt l) (n : Nat) :
    (l.take n).toFinset = lowest n l.toFinset := by
  ext x
  have hbelow : (l.toFinset.filter fun y => Bytes.lt y x).card = (l.filter (Bytes.lt · x)).length := by
    have hsorted : Ascending.Sorted Bytes.lt (l.filter (Bytes.lt · x)) :=
      List.Pairwise.filter _ hl
    rw [length_eq_card hsorted, List.toFinset_filter]
  rw [List.mem_toFinset, Bytes.isLinear_lt.mem_take_iff hl, lowest, Finset.mem_filter,
    List.mem_toFinset, hbelow]

theorem card_lowest (n : Nat) (identities : Finset Bytes) :
    (lowest n identities).card = min identities.card n := by
  have hsorted := Bytes.isLinear_lt.sorted_ofList identities.toList
  have hall : (Ascending.ofList Bytes.lt identities.toList).toFinset = identities := by
    ext x
    rw [List.mem_toFinset, Bytes.isLinear_lt.mem_ofList, Finset.mem_toList]
  have hfront := toFinset_take hsorted n
  have hfrontSorted : Ascending.Sorted Bytes.lt
      ((Ascending.ofList Bytes.lt identities.toList).take n) :=
    List.Pairwise.sublist (List.take_sublist n _) hsorted
  rw [hall] at hfront
  rw [← hfront, ← length_eq_card hfrontSorted, List.length_take, length_eq_card hsorted, hall,
    Nat.min_comm]

theorem lowest_subset (n : Nat) (identities : Finset Bytes) : lowest n identities ⊆ identities :=
  Finset.filter_subset _ _

end Membership

/-! ### The set of the first block -/

section Founded

open Ascending (Sorted)
open DelayLedger.Membership (lowest)

variable {s : Suite} {keys : Keypair} {nodes : List Bytes} {difficulty timestamp : UInt64}

def otherNodes (keys : Keypair) (nodes : List Bytes) : List Bytes :=
  Ascending.ofList Bytes.lt (nodes.filter (· != keys.publicKey))

theorem sorted_otherNodes (keys : Keypair) (nodes : List Bytes) : Sorted Bytes.lt (otherNodes keys nodes) :=
  Bytes.isLinear_lt.sorted_ofList _

theorem toFinset_otherNodes (keys : Keypair) (nodes : List Bytes) :
    (otherNodes keys nodes).toFinset = nodes.toFinset.erase keys.publicKey := by
  ext x
  rw [List.mem_toFinset, otherNodes, Bytes.isLinear_lt.mem_ofList, List.mem_filter, Finset.mem_erase,
    List.mem_toFinset, bne_iff_ne]
  exact and_comm

theorem nodes_genesis :
    (genesis s keys nodes difficulty timestamp).nodes =
      Membership.enrol keys.publicKey ((otherNodes keys nodes).take 999) := rfl

theorem sorted_genesis : Sorted Bytes.lt (genesis s keys nodes difficulty timestamp).nodes :=
  Membership.sorted_enrol (List.Pairwise.sublist (List.take_sublist _ _) (sorted_otherNodes keys nodes))

/-- **The set of the first block** has the founder and the smallest of the others. -/
theorem toFinset_genesis :
    (genesis s keys nodes difficulty timestamp).nodes.toFinset =
      insert keys.publicKey (lowest 999 (nodes.toFinset.erase keys.publicKey)) := by
  rw [nodes_genesis, Membership.toFinset_enrol, Membership.toFinset_take (sorted_otherNodes keys nodes),
    toFinset_otherNodes]

theorem not_mem_lowest (n : Nat) :
    keys.publicKey ∉ lowest n (nodes.toFinset.erase keys.publicKey) :=
  fun h => Finset.notMem_erase _ _ (Membership.lowest_subset n _ h)

theorem length_genesis :
    (genesis s keys nodes difficulty timestamp).nodes.length =
      min 1000 ((nodes.toFinset.erase keys.publicKey).card + 1) := by
  rw [Membership.length_eq_card sorted_genesis, toFinset_genesis,
    Finset.card_insert_of_notMem (not_mem_lowest 999), Membership.card_lowest]
  omega

/-- **Of the list only matters which others are on it.** -/
theorem genesis_eq_of_listed {listed : List Bytes}
    (h : ∀ x, x ≠ keys.publicKey → (x ∈ listed ↔ x ∈ nodes)) :
    genesis s keys listed difficulty timestamp = genesis s keys nodes difficulty timestamp := by
  have hothers : otherNodes keys listed = otherNodes keys nodes := by
    refine Bytes.isLinear_lt.ofList_eq_of_mem_iff fun x => ?_
    rw [List.mem_filter, List.mem_filter, bne_iff_ne]
    exact and_congr_left fun hx => h x hx
  rw [otherNodes, otherNodes] at hothers
  rw [genesis, genesis, hothers]

/-! ### Founding a chain -/

/-- **The difficulty alone can be at fault** in the first block. -/
theorem checkGenesis_genesis
    (hsign : ∀ message, s.verify keys.publicKey message (s.sign keys.secretKey message) = .ok ()) :
    checkGenesis s (genesis s keys nodes difficulty timestamp) =
      if difficulty = 0 then .error .zeroDifficulty else .ok () := by
  have hhash : (genesis s keys nodes difficulty timestamp).hashMatches s = true :=
    Block.hashMatches_sealWith s _ keys
  have hsigned : (genesis s keys nodes difficulty timestamp).isSigned s = true :=
    Block.isSigned_sealWith rfl hsign
  rw [checkGenesis, hhash, hsigned]
  rfl

/-- **Founding a chain.**  The first block lists, in byte order, the founder and the smallest of the other
nodes, up to 1000 in all, whatever their order and however often they are listed.  It is the first
block of a chain, new or restored, exactly when its difficulty is positive. -/
theorem genesis_founds (s : Suite) (policy : Policy) (now : UInt64) (keys : Keypair)
    (nodes : List Bytes) (difficulty timestamp : UInt64)
    (hsign : ∀ message, s.verify keys.publicKey message (s.sign keys.secretKey message) = .ok ()) :
    let others := nodes.toFinset.erase keys.publicKey
    let first := genesis s keys nodes difficulty timestamp
    Sorted Bytes.lt first.nodes ∧ keys.publicKey ∈ first.nodes ∧
      first.nodes.length = min 1000 (others.card + 1) ∧
      first.nodes.toFinset.erase keys.publicKey = lowest 999 others ∧
      (lowest 999 others).card = min others.card 999 ∧
      (∀ listed, (∀ x, x ≠ keys.publicKey → (x ∈ listed ↔ x ∈ nodes)) →
        genesis s keys listed difficulty timestamp = first) ∧
      ((∃ c, Chain.new s policy first = .ok c) ↔ 0 < difficulty) ∧
      ((∃ c, Chain.restore s policy now [first] = .ok c) ↔ 0 < difficulty) := by
  intro others first
  have hset : first.nodes.toFinset = _ := toFinset_genesis
  have hcheck : checkGenesis s first = .ok () ↔ 0 < difficulty := by
    rw [checkGenesis_genesis hsign, UInt64.pos_iff_ne_zero]
    split
    · next hzero => exact iff_of_false nofun (absurd hzero)
    · next hzero => exact iff_of_true rfl hzero
  refine ⟨sorted_genesis, ?_, length_genesis, ?_, Membership.card_lowest 999 others,
    fun listed => genesis_eq_of_listed, ?_, ?_⟩
  · rw [← List.mem_toFinset, hset]
    exact Finset.mem_insert_self _ _
  · rw [hset, Finset.erase_insert (not_mem_lowest 999)]
  · rw [← hcheck]
    constructor
    · rintro ⟨c, hc⟩
      exact (Chain.new_eq_ok_iff.mp hc).1
    · intro hok
      exact ⟨_, Chain.new_eq_ok_iff.mpr ⟨hok, rfl⟩⟩
  · rw [← hcheck]
    constructor
    · rintro ⟨c, hc⟩
      obtain ⟨founder, rest, grown, heq, hok, -⟩ := Chain.restore_eq_ok_iff_accepts.mp hc
      exact (List.cons.inj heq).1 ▸ hok
    · intro hok
      exact ⟨_, Chain.restore_eq_ok_iff_accepts.mpr ⟨first, [], _, rfl, hok, .nil _, rfl⟩⟩

end Founded

namespace Sample

open Suite (small)

/-- A list with the founder on it, with every other node twice, and with one node too many. -/
def crowd : List Bytes := joiner.publicKey :: (crowded.nodes ++ crowded.nodes)

theorem card_crowd : (crowd.toFinset.erase maker.publicKey).card = 1000 := by
  have hmem : maker.publicKey ∈ crowd.toFinset :=
    List.mem_toFinset.mpr (List.mem_cons_of_mem _ (List.mem_append_left _ List.mem_cons_self))
  have hout : joiner.publicKey ∉ crowded.nodes.toFinset :=
    mt List.mem_toFinset.mp joiner_not_mem_crowded
  rw [Finset.card_erase_of_mem hmem, crowd, List.toFinset_cons, List.toFinset_append,
    Finset.union_self, Finset.card_insert_of_notMem hout, card_crowded]

/-- One of the others does not find room in the first block, and a chain can start with it. -/
theorem founded_crowd :
    (∀ message, small.verify maker.publicKey message (small.sign maker.secretKey message) = .ok ()) ∧
      maker.publicKey ∈ (genesis small maker crowd 5 100).nodes ∧
      (genesis small maker crowd 5 100).nodes.length = 1000 ∧
      genesis small maker crowd.reverse 5 100 = genesis small maker crowd 5 100 ∧
      ∃ c, Chain.new small .fixed (genesis small maker crowd 5 100) = .ok c := by
  have hsign := Suite.small_verify_sign [1]
  obtain ⟨-, hmem, hlength, -, -, hlisted, hnew, -⟩ :=
    genesis_founds small .fixed 100 maker crowd 5 100 hsign
  rw [card_crowd] at hlength
  exact ⟨hsign, hmem, hlength, hlisted _ fun x _ => List.mem_reverse, hnew.mpr (by decide)⟩

end Sample

end DelayLedger
