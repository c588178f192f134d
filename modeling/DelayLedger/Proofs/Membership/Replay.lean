import DelayLedger.Proofs.Membership.Consent
import DelayLedger.Proofs.Membership.Rule
import DelayLedger.Round

/-!
# Requests that come again

A recorded change was asked for at some height and is signed, but nothing keeps a later block from
recording it once more: whether it may be recorded depends on the parent's height and set alone
(`Membership.next_singleton_eq_ok_iff`).  It finds its identity on one side of the set and leaves it on
the other (`Block.Follows.moves_of_mem`).  So a request comes again only after its identity has moved
back, and within the blocks in which it is fresh.

* `History.moved_back`: what lies between two blocks that record one request.
* `Chain.Reachable.recorded_again`: when a request may come again.
* `Sample.recorded_twice`: one that does.
-/

namespace DelayLedger

/-- What a change asks for, whatever its signature. -/
structure Request where
  identity : Bytes
  action : Action
  requestedAt : UInt64
deriving DecidableEq

def Change.request (c : Change) : Request := ⟨c.identity, c.action, c.requestedAt⟩

def Block.requests (b : Block) : List Request := b.changes.map Change.request

/-! ### One block -/

namespace Membership

variable {s : Suite} {parent : Block} {producer seed : Bytes} {c : Change}

/-- **When one change may be recorded**: it is fresh and signed, it moves its identity, and there is
room.  What earlier blocks recorded has no part in it. -/
theorem next_singleton_eq_ok_iff :
    (∃ nodes, next s parent producer [c] seed = .ok nodes) ↔
      c.isFresh parent.height = true ∧ c.isSigned s = true ∧
        (c.identity ∈ parent.nodes ↔ c.action = .leave) ∧
        (c.action = .leave → c.identity ≠ producer) ∧
        (successors parent.nodes [c] producer).card ≤ maxNodes := by
  rw [exists_next_iff]
  constructor
  · rintro ⟨h, -, hroom⟩
    have hmem : c ∈ [c] := List.mem_singleton_self c
    refine ⟨Change.isFresh_iff.mpr (h.fresh c hmem), Change.isSigned_iff.mpr (h.signed c hmem), ?_,
      h.leave_ne c hmem, hroom⟩
    cases hact : c.action with
    | join => exact iff_of_false (h.join_not_mem c hmem hact) nofun
    | leave => exact iff_of_true (h.leave_mem c hmem hact) rfl
  · rintro ⟨hfresh, hsigned, hmoved, hproducer, hroom⟩
    refine ⟨?_, joinsFit_singleton.mpr fun _ => hroom, hroom⟩
    exact {
      length_le := show 1 ≤ 64 by decide
      nodup := List.nodup_singleton _
      fresh := List.forall_mem_singleton.mpr (Change.isFresh_iff.mp hfresh)
      signed := List.forall_mem_singleton.mpr (Change.isSigned_iff.mp hsigned)
      join_not_mem := List.forall_mem_singleton.mpr fun hjoin hin => by
        rw [hmoved.mp hin] at hjoin
        contradiction
      leave_mem := List.forall_mem_singleton.mpr hmoved.mpr
      leave_ne := List.forall_mem_singleton.mpr hproducer }

end Membership

namespace Block.Follows

variable {s : Suite} {policy : Policy} {parent b : Block} {c : Change}

theorem height_of_mem (h : b.Follows s policy parent) (hc : c ∈ b.changes) :
    c.requestedAt.toNat < b.height.toNat ∧ b.height.toNat ≤ c.requestedAt.toNat + 65 := by
  obtain ⟨result, hacc, -⟩ := Membership.account_of_next h.next_eq
  obtain ⟨hasked, hlate⟩ := Change.isFresh_iff.mp (hacc.fresh c hc)
  have hheight := h.height_eq
  rw [UInt64.le_iff_toNat_le] at hasked
  omega

/-- **A recorded change finds its identity on one side of the set and leaves it on the other.** -/
theorem moves_of_mem (h : b.Follows s policy parent) (hc : c ∈ b.changes) :
    (c.identity ∈ parent.nodes ↔ c.action = .leave) ∧ (c.identity ∈ b.nodes ↔ c.action = .join) := by
  obtain ⟨result, hacc, -⟩ := Membership.account_of_next h.next_eq
  rw [h.mem_nodes_iff]
  cases hact : c.action with
  | join =>
    have hout : c.identity ∉ parent.nodes := mt Membership.mem_members.mpr (hacc.join_not_mem c hc hact)
    have hstays : c.identity ∉ Membership.leaving b.changes := by
      intro hleaving
      obtain ⟨d, hd, hleave, hidentity⟩ := Membership.mem_leaving.mp hleaving
      exact hout (hidentity ▸ Membership.mem_members.mp (hacc.leave_mem d hd hleave))
    have hjoining := Membership.mem_joining.mpr ⟨c, hc, hact, rfl⟩
    exact ⟨iff_of_false hout nofun, iff_of_true (Or.inr ⟨Or.inr hjoining, hstays⟩) rfl⟩
  | leave =>
    have hin : c.identity ∈ parent.nodes := Membership.mem_members.mp (hacc.leave_mem c hc hact)
    have hleaving := Membership.mem_leaving.mpr ⟨c, hc, hact, rfl⟩
    refine ⟨iff_of_true hin rfl, iff_of_false ?_ nofun⟩
    rintro (hproducer | ⟨-, hstays⟩)
    · exact hacc.leave_ne c hc hact hproducer
    · exact hstays hleaving

end Block.Follows

theorem Block.mem_requests {b : Block} {r : Request} :
    r ∈ b.requests ↔ ∃ c ∈ b.changes, c.request = r := List.mem_map

/-! ### Two blocks -/

/-- What a block does that moves an identity back once a request of it was recorded.  After a join it
records that the identity leaves; after a leave it records that it joins, or is made by it. -/
def Block.MovesBack (s : Suite) (b : Block) (r : Request) : Prop :=
  match r.action with
  | .join => b.producer ≠ r.identity ∧ b.Records s r.identity .leave
  | .leave => (b.producer = r.identity ∧ b.verify s = .ok ()) ∨ b.Records s r.identity .join

theorem History.exists_movesBack {s : Suite} {policy : Policy} {blocks : List Block}
    (h : History s policy blocks) {a parent : Block} {r : Request} (ha : a ∈ blocks)
    (hparent : parent ∈ blocks) (hle : a.height ≤ parent.height)
    (hafter : r.identity ∈ a.nodes ↔ r.action = .join)
    (hbefore : r.identity ∈ parent.nodes ↔ r.action = .leave) :
    ∃ b ∈ blocks, a.height < b.height ∧ b.height ≤ parent.height ∧ b.MovesBack s r := by
  have hlt : a.height < parent.height := by
    refine UInt64.lt_of_le_of_ne hle fun heq => ?_
    obtain rfl := h.eq_of_height_eq ha hparent heq
    have hboth : r.action = .join ↔ r.action = .leave := hafter.symm.trans hbefore
    cases hact : r.action <;> simp [hact] at hboth
  unfold Block.MovesBack
  cases hact : r.action with
  | join =>
    have hin : r.identity ∈ a.nodes := hafter.mpr hact
    have hout : r.identity ∉ parent.nodes := fun hmem => nomatch hact.symm.trans (hbefore.mp hmem)
    obtain ⟨p, b, hb, hab, hbp, hfollows, hp, hchild⟩ :=
      h.exists_link (P := fun b => r.identity ∈ b.nodes) ha hparent hlt hin hout
    exact ⟨b, hb, hab, hbp, hfollows.records_leave hp hchild⟩
  | leave =>
    have hin : r.identity ∈ parent.nodes := hbefore.mpr hact
    have hout : r.identity ∉ a.nodes := fun hmem => nomatch hact.symm.trans (hafter.mp hmem)
    obtain ⟨p, b, hb, hab, hbp, hfollows, hp, hchild⟩ :=
      h.exists_link (P := fun b => r.identity ∉ b.nodes) ha hparent hlt hout (not_not.mpr hin)
    exact ⟨b, hb, hab, hbp, hfollows.producer_or_records_join hp (not_not.mp hchild)⟩

/-- **Between two blocks that record one request** its identity has moved back by an act of its own,
and the two are at most 64 blocks apart. -/
theorem History.moved_back {s : Suite} {policy : Policy} {blocks : List Block}
    (h : History s policy blocks) {a d : Block} {c : Change} (ha : a ∈ blocks) (hd : d ∈ blocks)
    (hpos : a.height ≠ 0) (hlt : a.height < d.height) (hc : c ∈ a.changes)
    (hagain : c.request ∈ d.requests) :
    d.height.toNat ≤ a.height.toNat + 64 ∧
      ∃ b ∈ blocks, a.height < b.height ∧ b.height < d.height ∧ b.MovesBack s c.request := by
  obtain ⟨e, he, hsame⟩ := Block.mem_requests.mp hagain
  obtain ⟨hidentity, haction, hat⟩ := Request.mk.inj hsame
  have hdpos : d.height ≠ 0 := fun hzero => UInt64.not_lt_zero (hzero ▸ hlt)
  obtain ⟨before, -, hafollows⟩ := h.exists_follows ha hpos
  obtain ⟨parent, hparent, hdfollows⟩ := h.exists_follows hd hdpos
  have hawindow := hafollows.height_of_mem hc
  have hdwindow := hdfollows.height_of_mem he
  have hheight := hdfollows.height_eq
  rw [hat] at hdwindow
  rw [UInt64.lt_iff_toNat_lt] at hlt
  refine ⟨by omega, ?_⟩
  have hle : a.height ≤ parent.height := by
    rw [UInt64.le_iff_toNat_le]
    omega
  -- `a` leaves the identity on one side of the set, and the parent of `d` has it on the other
  have hafter := (hafollows.moves_of_mem hc).2
  have hbefore := (hdfollows.moves_of_mem he).1
  rw [hidentity, haction] at hbefore
  obtain ⟨b, hb, hab, hbp, hback⟩ := h.exists_movesBack (r := c.request) ha hparent hle hafter hbefore
  refine ⟨b, hb, hab, ?_, hback⟩
  rw [UInt64.le_iff_toNat_le] at hbp
  rw [UInt64.lt_iff_toNat_lt]
  omega

namespace Chain

variable {s : Suite} {c : Chain}

/-- **A request that a block records may be recorded again** when its identity has moved back while it
is still fresh, and only then.  Two blocks that record it are at most 64 blocks apart, and in between
the identity left or came in by an act of its own.  A child of the tip may record it once more if the
request is not older than 64 blocks, the identity is where the request can move it from, it does not
make the child when it is to leave, and there is room; that the request was recorded before does not
matter. -/
theorem Reachable.recorded_again (h : Reachable s c) {a : Block} (ha : a ∈ c.blocks)
    (hpos : a.height ≠ 0) {change : Change} (hchange : change ∈ a.changes) :
    (∀ d ∈ c.blocks, a.height < d.height → change.request ∈ d.requests →
      d.height.toNat ≤ a.height.toNat + 64 ∧
        ∃ b ∈ c.blocks, a.height < b.height ∧ b.height < d.height ∧ b.MovesBack s change.request) ∧
    ∀ producer seed,
      (∃ nodes, Membership.next s c.tip producer [change] seed = .ok nodes) ↔
        c.tip.height.toNat ≤ change.requestedAt.toNat + 64 ∧
          (change.identity ∈ c.tip.nodes ↔ change.action = .leave) ∧
          (change.action = .leave → change.identity ≠ producer) ∧
          (Membership.successors c.tip.nodes [change] producer).card ≤ 1000 := by
  constructor
  · intro d hd hlt hagain
    exact h.history.moved_back ha hd hpos hlt hchange hagain
  · intro producer seed
    obtain ⟨parent, -, hfollows⟩ := h.history.exists_follows ha hpos
    obtain ⟨result, hacc, -⟩ := Membership.account_of_next hfollows.next_eq
    have hasked := (hfollows.height_of_mem hchange).1
    have htip := height_le_tip_of_history h.history ha
    have hfresh : change.isFresh c.tip.height = true ↔
        c.tip.height.toNat ≤ change.requestedAt.toNat + 64 := by
      rw [Change.isFresh_iff, UInt64.le_iff_toNat_le]
      omega
    rw [Membership.next_singleton_eq_ok_iff, hfresh, and_iff_right (hacc.signed change hchange)]
    exact Iff.rfl

end Chain

/-! ### A ledger with a request that comes again -/

namespace Sample

open Suite (small)

def joining : Change := Change.signed small joiner .join 0

/-- The joining node leaves again. -/
def third : Block :=
  forge small .fixed maker second ⟨[1], [1]⟩ [Change.signed small joiner .leave 1] 102

def left : Chain := chain.push third

/-- The maker, to whom somebody handed the first request again. -/
def node : Participant := ⟨maker, .fixed, .ofMillis 1000, 0, [joining]⟩

def fourth : Block := Round.forgeOn small 103 node third ⟨[1], [1]⟩

def rejoined : Chain := left.push fourth

theorem reachable_left : Chain.Reachable small left := by
  have hthird : validate small chain.policy 102 chain.tip third = .ok () :=
    validate_eq_ok_iff.mpr (by decide +kernel)
  have hcall := reachable_chain.call (.append 102 third)
  rw [Chain.Call.run, AppendCall.runAlone_of_ok hthird] at hcall
  exact hcall

theorem reachable_rejoined : Chain.Reachable small rejoined := by
  have hfourth : validate small left.policy 103 left.tip fourth = .ok () :=
    validate_eq_ok_iff.mpr (by decide +kernel)
  have hcall := reachable_left.call (.append 103 fourth)
  rw [Chain.Call.run, AppendCall.runAlone_of_ok hfourth] at hcall
  exact hcall

/-- The first request of the joining node comes again after the node left, and the rules for the set
let it. -/
theorem joining_again :
    (∃ b ∈ rejoined.blocks, second.height < b.height ∧ b.height < fourth.height ∧
      b.MovesBack small joining.request) ∧
    ∃ nodes, Membership.next small left.tip maker.publicKey [joining] [] = .ok nodes := by
  have hleft : second ∈ left.blocks := by decide +kernel
  have hblocks : second ∈ rejoined.blocks ∧ fourth ∈ rejoined.blocks := by decide +kernel
  have hpos : second.height ≠ 0 := by decide +kernel
  have hjoining : joining ∈ second.changes := by decide +kernel
  have hbetween := (reachable_rejoined.recorded_again hblocks.1 hpos hjoining).1
  have hopen := (reachable_left.recorded_again hleft hpos hjoining).2
  constructor
  · exact (hbetween fourth hblocks.2 (by decide +kernel) (by decide +kernel)).2
  · exact (hopen maker.publicKey []).mpr (by decide +kernel)

/-- **A request can be recorded twice.**  The maker takes the old request into its queue, its own round
records it in a block, and the block is accepted. -/
theorem recorded_twice :
    Queue.request small [] joining = .ok node.queue ∧
      ((Round.start small node left).undisturbed small 103 node left).2.2.blocks =
        rejoined.blocks ∧
      ¬ ∀ c : Chain, c.Reachable small → ∀ a ∈ c.blocks, ∀ d ∈ c.blocks, ∀ r : Request,
        r ∈ a.requests → r ∈ d.requests → a = d := by
  refine ⟨?_, ?_, ?_⟩
  · decide +kernel
  · decide +kernel
  · intro honce
    have hsame := honce rejoined reachable_rejoined second (by decide +kernel) fourth
      (by decide +kernel) joining.request (by decide +kernel) (by decide +kernel)
    exact absurd hsame (by decide +kernel)

end Sample

end DelayLedger
