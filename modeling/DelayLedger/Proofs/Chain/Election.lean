import DelayLedger.Proofs.Chain.Reachable

/-!
# Who makes the next block

Whoever holds a set of candidates and a seed puts them in the same order.  The tip of a chain records
its set in the order of its own seed, so the first node that it lists is the one that is to make the
next block.

* `Block.Follows.order_nodes`: an accepted child lists its set in order.
* `Ticket.order_unique_and_recorded`: the order, and what the tip of a chain says about it.
-/

namespace DelayLedger

theorem Block.Follows.order_nodes {s : Suite} {policy : Policy} {parent b : Block}
    (h : b.Follows s policy parent) : Ticket.order s b.seed b.nodes = b.nodes := by
  obtain ⟨result, -, -, hnodes⟩ := Membership.account_of_next h.next_eq
  rw [← hnodes, Ticket.order_order]

theorem History.isGenesis_of_height_eq_zero {s : Suite} {policy : Policy} {blocks : List Block}
    (h : History s policy blocks) {b : Block} (hb : b ∈ blocks) (hzero : b.height = 0) :
    b.isGenesis = true := by
  obtain ⟨i, hi⟩ := List.mem_iff_getElem?.mp hb
  have hheight := h.height_eq hi
  rw [hzero] at hheight
  obtain ⟨genesis, hgenesis, hcheck⟩ := h.first
  rw [← hheight] at hi
  have hsame : b = genesis := Option.some.inj (hi.symm.trans hgenesis)
  rw [hsame]
  exact (checkGenesis_eq_ok_iff.mp hcheck).1

namespace Ticket

variable (s : Suite)

theorem length_order_le (seed : Bytes) (candidates : List Bytes) :
    (order s seed candidates).length ≤ candidates.length := by
  have hsubset : order s seed candidates ⊆ candidates := fun _ hx => (mem_order s).mp hx
  exact ((nodup_order s seed candidates).subperm hsubset).length_le

/-- A rank is a place, unless there are more candidates than a rank can number. -/
theorem draw_eq_of_length_le (seed : Bytes) {candidates : List Bytes}
    (h : candidates.length ≤ UInt32.size) :
    draw s seed candidates = (order s seed candidates).mapIdx fun place identity =>
      ⟨identity, valueOf s seed identity, place⟩ := by
  rw [draw_eq, List.mapIdx_eq_mapIdx_iff]
  intro place hplace
  rw [Nat.mod_eq_of_lt (hplace.trans_le ((length_order_le s seed candidates).trans h))]

/-- **The order of tickets is unique, and a tip records it.**  For every seed there is one list of the
candidates that is strictly ascending by ticket and identity, whether or not tickets collide; it does
not depend on how the candidates are listed, and putting it in order again changes nothing.  Draws have
their identity's ticket and their place, in 32 bits, as rank.  The tip of a chain, unless it is the first
block, lists its set in that order, and the first node in it is to make the next block. -/
theorem order_unique_and_recorded :
    (∀ seed candidates,
      (∀ listed, listed = order s seed candidates ↔
        (∀ x, x ∈ listed ↔ x ∈ candidates) ∧ Ascending.Sorted (precedes s seed) listed) ∧
      (∀ others, (∀ x, x ∈ others ↔ x ∈ candidates) →
        order s seed others = order s seed candidates) ∧
      order s seed (order s seed candidates) = order s seed candidates ∧
      (draw s seed candidates = (order s seed candidates).mapIdx fun place identity =>
        ⟨identity, valueOf s seed identity, place % UInt32.size⟩) ∧
      (candidates.length ≤ UInt32.size →
        draw s seed candidates = (order s seed candidates).mapIdx fun place identity =>
          ⟨identity, valueOf s seed identity, place⟩)) ∧
    ∀ c : Chain, c.Reachable s → c.tip.isGenesis = false →
      c.ticketOrder s = c.tip.nodes ∧
        ∃ first, c.tip.nodes.head? = some first ∧
          ∀ committeeSize, (c.tip.schedule s committeeSize).producer? = some first := by
  constructor
  · intro seed candidates
    exact ⟨fun listed => eq_order_iff s, fun others hothers => order_eq_of_mem_iff s hothers,
      order_order s seed candidates, draw_eq s seed candidates, draw_eq_of_length_le s seed⟩
  · intro c hreachable hlater
    have htip : c.tip ∈ c.blocks := List.mem_of_getLast? c.getLast?_blocks
    have hpos : c.tip.height ≠ 0 := by
      intro hzero
      rw [hreachable.history.isGenesis_of_height_eq_zero htip hzero] at hlater
      contradiction
    obtain ⟨parent, -, hfollows⟩ := hreachable.history.exists_follows htip hpos
    have horder : order s c.tip.seed c.tip.nodes = c.tip.nodes := hfollows.order_nodes
    have hproducer := Membership.producer_mem_of_next hfollows.next_eq
    obtain ⟨first, rest, hfirst⟩ := List.exists_cons_of_ne_nil (List.ne_nil_of_mem hproducer)
    have hhead : c.tip.nodes.head? = some first := by rw [hfirst, List.head?_cons]
    refine ⟨horder, first, hhead, fun committeeSize => ?_⟩
    rw [Block.schedule, Schedule.producer?, horder, hhead]

end Ticket

/-- The second block of the small ledger lists its set in order. -/
theorem Sample.ticketOrder_chain :
    chain.Reachable Suite.small ∧ chain.tip.isGenesis = false ∧
      chain.ticketOrder Suite.small = second.nodes := by
  have hlater : chain.tip.isGenesis = false := by decide +kernel
  have htip := (Ticket.order_unique_and_recorded Suite.small).2 chain reachable_chain hlater
  exact ⟨reachable_chain, hlater, htip.1⟩

end DelayLedger
