import DelayLedger.Chain.Call
import DelayLedger.Forge
import DelayLedger.Proofs.Chain.History
import DelayLedger.Suite.Small

/-!
# Reachable chains

A chain is reachable when calls lead to it from a new or a restored one.  Whatever a call is, it only
puts accepted blocks on the chain, one after another (`Accepts`, `exists_accepts_run`), so the blocks
of a reachable chain are a history (`Reachable.history`) and a chain never loses a block
(`blocks_prefix_foldl_run`).  `Reachable.sound_and_append_only` puts together what reachable chains
satisfy and what calls do to them.
-/

namespace DelayLedger

theorem Chain.getLast?_blocks (c : Chain) : c.blocks.getLast? = some c.tip := by
  rw [blocks, List.getLast?_reverse, List.head?_cons]

namespace AppendCall

variable {s : Suite} {now : UInt64} {c : Chain} {candidate : Block}

theorem runAlone_of_ok (h : validate s c.policy now c.tip candidate = .ok ()) :
    runAlone s now c candidate = (c.push candidate, .finished (.ok candidate.appended)) := by
  rw [runAlone_eq_append, (Chain.append_eq_ok_iff s).mpr ⟨h, rfl⟩]

theorem runAlone_of_error {e : ValidationError}
    (h : validate s c.policy now c.tip candidate = .error e) :
    runAlone s now c candidate = (c, .finished (.error e)) := by
  rw [runAlone_eq_append, (Chain.append_eq_error_iff s).mpr h]

end AppendCall

namespace Chain

/-! ### What calls do -/

inductive Call
  | append (now : UInt64) (candidate : Block)
  | sync (now : UInt64) (batch : List Block)

def Call.run (s : Suite) (c : Chain) : Call → Chain
  | append now candidate => (AppendCall.runAlone s now c candidate).1
  | sync now batch => (c.sync s now batch).1

/-- Blocks go onto a chain one after another, each accepted as a child of the tip it finds. -/
inductive Accepts (s : Suite) (now : UInt64) : Chain → List Block → Chain → Prop
  | nil (c : Chain) : Accepts s now c [] c
  | cons {c d : Chain} {b : Block} {l : List Block} :
      validate s c.policy now c.tip b = .ok () → Accepts s now (c.push b) l d →
      Accepts s now c (b :: l) d

namespace Accepts

variable {s : Suite} {now : UInt64} {c d : Chain} {l : List Block}

theorem policy_eq (h : Accepts s now c l d) : d.policy = c.policy := by
  induction h with
  | nil => rfl
  | cons _ _ ih => exact ih

/-- **The new blocks are exactly the accepted ones**, in order and after the old ones. -/
theorem blocks_eq (h : Accepts s now c l d) : d.blocks = c.blocks ++ l := by
  induction h with
  | nil => exact (List.append_nil _).symm
  | cons _ _ ih => rw [ih, blocks_push, List.append_assoc, List.singleton_append]

/-- **Each accepted block is published once.** -/
theorem feed_eq (h : Accepts s now c l d) : d.feed = l.foldl Feed.publish c.feed := by
  induction h with
  | nil => rfl
  | cons _ _ ih => exact ih

theorem history (h : Accepts s now c l d) (hc : History s c.policy c.blocks) :
    History s d.policy d.blocks := by
  induction h with
  | nil => exact hc
  | @cons c d b l hb _ ih =>
    refine ih ?_
    rw [blocks_push]
    exact hc.snoc c.getLast?_blocks hb

end Accepts

theorem exists_accepts_appendAll (s : Suite) (now : UInt64) (batch : List Block) (c : Chain)
    (report : BatchReport) :
    ∃ accepted, Accepts s now c accepted (appendAll s now c report batch).1 ∧
      accepted.Sublist batch ∧
      (appendAll s now c report batch).2.appended = report.appended + accepted.length := by
  induction batch generalizing c report with
  | nil => exact ⟨[], .nil c, .slnil, rfl⟩
  | cons b batch ih =>
    rw [appendAll]
    split
    · obtain ⟨accepted, hacc, hsub, hlen⟩ := ih c { report with known := report.known + 1 }
      exact ⟨accepted, hacc, .cons b hsub, hlen⟩
    split
    · exact ⟨[], .nil c, List.nil_sublist _, rfl⟩
    · next next hnext =>
      obtain ⟨hb, rfl⟩ := (append_eq_ok_iff s).mp hnext
      obtain ⟨accepted, hacc, hsub, hlen⟩ :=
        ih (c.push b) { report with appended := report.appended + 1 }
      refine ⟨b :: accepted, .cons hb hacc, .cons_cons b hsub, ?_⟩
      rw [hlen, List.length_cons]
      show report.appended + 1 + accepted.length = report.appended + (accepted.length + 1)
      omega

theorem exists_accepts_runAlone (s : Suite) (now : UInt64) (c : Chain) (candidate : Block) :
    ∃ accepted, Accepts s now c accepted (AppendCall.runAlone s now c candidate).1 ∧
      accepted.Sublist [candidate] := by
  cases h : validate s c.policy now c.tip candidate with
  | error e =>
    rw [AppendCall.runAlone_of_error h]
    exact ⟨[], .nil c, List.nil_sublist _⟩
  | ok u =>
    rw [AppendCall.runAlone_of_ok h]
    exact ⟨[candidate], .cons h (.nil _), List.Sublist.refl _⟩

/-- **A call only puts accepted blocks on the chain.** -/
theorem exists_accepts_run (s : Suite) (c : Chain) (call : Call) :
    ∃ now accepted, Accepts s now c accepted (call.run s c) := by
  cases call with
  | append now candidate =>
    obtain ⟨accepted, hacc, -⟩ := exists_accepts_runAlone s now c candidate
    exact ⟨now, accepted, hacc⟩
  | sync now batch =>
    obtain ⟨accepted, hacc, -⟩ := exists_accepts_appendAll s now batch c ⟨0, 0, none⟩
    exact ⟨now, accepted, hacc⟩

/-- **No call takes a block away.** -/
theorem blocks_prefix_foldl_run (s : Suite) (c : Chain) (calls : List Call) :
    c.blocks <+: (calls.foldl (Call.run s) c).blocks := by
  induction calls generalizing c with
  | nil => exact List.prefix_refl _
  | cons call calls ih =>
    obtain ⟨now, accepted, hacc⟩ := exists_accepts_run s c call
    have hcall : c.blocks <+: (call.run s c).blocks := ⟨accepted, hacc.blocks_eq.symm⟩
    exact hcall.trans (ih (call.run s c))

/-! ### Which chains are reachable -/

/-- A chain that calls lead to from a new or a restored one. -/
inductive Reachable (s : Suite) : Chain → Prop
  | new {policy : Policy} {genesis : Block} {c : Chain} :
      Chain.new s policy genesis = .ok c → Reachable s c
  | restore {policy : Policy} {now : UInt64} {blocks : List Block} {c : Chain} :
      Chain.restore s policy now blocks = .ok c → Reachable s c
  | call {c : Chain} (call : Call) : Reachable s c → Reachable s (call.run s c)

theorem new_of_checkGenesis {s : Suite} (policy : Policy) {genesis : Block}
    (h : checkGenesis s genesis = .ok ()) :
    Chain.new s policy genesis = .ok ⟨policy, [], genesis, .empty⟩ := by rw [Chain.new, h]

theorem history_of_new {s : Suite} {policy : Policy} {genesis : Block} {c : Chain}
    (h : Chain.new s policy genesis = .ok c) : History s c.policy c.blocks := by
  rw [Chain.new] at h
  split at h
  · contradiction
  · next hcheck =>
    injection h with h
    exact h ▸ History.singleton hcheck

theorem history_of_restoreFrom {s : Suite} {policy : Policy} {now : UInt64} {l earlier : List Block}
    {tip : Block} {c : Chain} (hc : History s policy (tip :: earlier).reverse)
    (h : restoreFrom s policy now earlier tip l = .ok c) : History s c.policy c.blocks := by
  induction l generalizing earlier tip with
  | nil =>
    rw [restoreFrom] at h
    injection h with h
    exact h ▸ hc
  | cons b l ih =>
    rw [restoreFrom] at h
    split at h
    · contradiction
    · next hb =>
      refine ih ?_ h
      rw [List.reverse_cons]
      exact hc.snoc (by rw [List.getLast?_reverse, List.head?_cons]) hb

theorem history_of_restore {s : Suite} {policy : Policy} {now : UInt64} {blocks : List Block}
    {c : Chain} (h : Chain.restore s policy now blocks = .ok c) : History s c.policy c.blocks := by
  cases blocks with
  | nil => contradiction
  | cons genesis l =>
    rw [Chain.restore] at h
    split at h
    · contradiction
    · next hcheck => exact history_of_restoreFrom (History.singleton hcheck) h

/-- **The blocks of a reachable chain are a history.** -/
theorem Reachable.history {s : Suite} {c : Chain} (h : Reachable s c) :
    History s c.policy c.blocks := by
  induction h with
  | new hnew => exact history_of_new hnew
  | restore hrestore => exact history_of_restore hrestore
  | @call c call _ ih =>
    obtain ⟨now, accepted, hacc⟩ := exists_accepts_run s c call
    exact hacc.history ih

end Chain

/-! ### A small ledger -/

namespace Sample

open Suite (small)

def maker : Keypair := small.generate [1]

def leaver : Keypair := small.generate [2]

def joiner : Keypair := small.generate [3]

def first : Block := genesis small maker [leaver.publicKey] 5 100

/-- A child of the first block, in which one node leaves and another joins. -/
def second : Block :=
  forge small .fixed maker first ⟨[16], [1]⟩
    [Change.signed small leaver .leave 0, Change.signed small joiner .join 0] 101

def founded : Chain := ⟨.fixed, [], first, .empty⟩

def chain : Chain := founded.push second

theorem validate_second :
    validate small founded.policy 100 founded.tip second = .ok () :=
  validate_eq_ok_iff.mpr (by decide +kernel)

theorem reachable_founded : Chain.Reachable small founded :=
  .new (Chain.new_of_checkGenesis .fixed (checkGenesis_eq_ok_iff.mpr (by decide +kernel)))

theorem reachable_chain : Chain.Reachable small chain := by
  have hcall := Chain.Reachable.call (.append 100 second) reachable_founded
  rw [Chain.Call.run, AppendCall.runAlone_of_ok validate_second] at hcall
  exact hcall

end Sample

/-! ### What reachable chains satisfy -/

/-- What a block has to be as a child: linked to its parent and stamped no earlier, with a delay over
the parent, the difficulty that the policy prescribes, and a set in the order of its own tickets. -/
structure Block.ChildOf (s : Suite) (policy : Policy) (b parent : Block) : Prop where
  previousHash_eq : b.previousHash = some parent.hash
  proof_verifies : ∃ proof, b.proof = some proof ∧
    Delay.verify s parent.difficulty parent.hash.bytes proof = true
  timestamp_le : parent.timestamp ≤ b.timestamp
  difficulty_ne_zero : b.difficulty ≠ 0
  difficulty_eq : b.difficulty = policy.next parent.difficulty parent.timestamp b.timestamp
  nodup : b.nodes.Nodup
  length_le : b.nodes.length ≤ maxNodes
  sorted : Ascending.Sorted (Ticket.precedes s b.seed) b.nodes
  producer_mem : b.producer ∈ b.nodes

namespace Chain

/-- What the blocks of a chain satisfy together. -/
structure Sound (s : Suite) (c : Chain) : Prop where
  length_eq : c.blocks.length = c.tip.height.toNat + 1
  getLast?_eq : c.blocks.getLast? = some c.tip
  height_eq : ∀ i (b : Block), c.blocks[i]? = some b → b.height.toNat = i
  hash_eq : ∀ b ∈ c.blocks, b.contentHash s = b.hash
  verify_eq : ∀ b ∈ c.blocks, b.verify s = .ok ()
  childOf : ∀ i (parent b : Block), c.blocks[i]? = some parent → c.blocks[i + 1]? = some b →
    b.ChildOf s c.policy parent

theorem length_eq_of_history {s : Suite} {c : Chain} (h : History s c.policy c.blocks) :
    c.blocks.length = c.tip.height.toNat + 1 := by
  have htip := c.getLast?_blocks
  rw [List.getLast?_eq_getElem?] at htip
  rw [h.height_eq htip, length_blocks, length]
  omega

theorem height_le_tip_of_history {s : Suite} {c : Chain} (h : History s c.policy c.blocks) {b : Block}
    (hb : b ∈ c.blocks) : b.height.toNat ≤ c.tip.height.toNat := by
  obtain ⟨i, hi⟩ := List.mem_iff_getElem?.mp hb
  have hlt : i < c.blocks.length := (List.getElem?_eq_some_iff.mp hi).1
  rw [length_eq_of_history h] at hlt
  rw [h.height_eq hi]
  exact Nat.le_of_lt_succ hlt

theorem sound_of_history {s : Suite} {c : Chain} (h : History s c.policy c.blocks) : c.Sound s where
  length_eq := length_eq_of_history h
  getLast?_eq := c.getLast?_blocks
  height_eq _ _ hb := h.height_eq hb
  hash_eq _ hb := h.hash_eq hb
  verify_eq _ hb := h.verify_eq hb
  childOf _ _ _ hp hb :=
    have hfollows := h.follows hp hb
    { previousHash_eq := hfollows.previousHash_eq
      proof_verifies := hfollows.proof_verifies
      timestamp_le := hfollows.timestamp_le
      difficulty_ne_zero := h.difficulty_ne_zero (List.mem_of_getElem? hb)
      difficulty_eq := hfollows.difficulty_eq
      nodup := Membership.nodup_of_next hfollows.next_eq
      length_le := Membership.length_le_of_next hfollows.next_eq
      sorted := Membership.sorted_of_next hfollows.next_eq
      producer_mem := Membership.producer_mem_of_next hfollows.next_eq }

/-- **Reachable chains are sound and only grow.**  A candidate that is rejected leaves blocks, tip and
feed as they are; one that is accepted is put on the chain and published once; a batch does that for
the blocks of it that are accepted; and whatever calls follow, the blocks stay where they are. -/
theorem Reachable.sound_and_append_only {s : Suite} {c : Chain} (h : Reachable s c) :
    c.Sound s ∧
      (∀ now candidate e, c.append s now candidate = .error e →
        AppendCall.runAlone s now c candidate = (c, .finished (.error e))) ∧
      (∀ now candidate next, c.append s now candidate = .ok next →
        AppendCall.runAlone s now c candidate = (next, .finished (.ok candidate.appended)) ∧
          next.blocks = c.blocks ++ [candidate] ∧ next.tip = candidate ∧
          next.feed = c.feed.publish candidate) ∧
      (∀ now batch, ∃ accepted, Accepts s now c accepted (c.sync s now batch).1 ∧
        accepted.Sublist batch ∧ (c.sync s now batch).2.appended = accepted.length ∧
        (c.sync s now batch).1.blocks = c.blocks ++ accepted ∧
        (c.sync s now batch).1.feed = accepted.foldl Feed.publish c.feed) ∧
      ∀ calls : List Call, c.blocks <+: (calls.foldl (Call.run s) c).blocks := by
  refine ⟨sound_of_history h.history, ?_, ?_, ?_, blocks_prefix_foldl_run s c⟩
  · intro now candidate e he
    exact AppendCall.runAlone_of_error ((append_eq_error_iff s).mp he)
  · intro now candidate next hnext
    obtain ⟨hok, rfl⟩ := (append_eq_ok_iff s).mp hnext
    exact ⟨AppendCall.runAlone_of_ok hok, blocks_push c candidate, rfl, rfl⟩
  · intro now batch
    obtain ⟨accepted, hacc, hsub, hlen⟩ := exists_accepts_appendAll s now batch c ⟨0, 0, none⟩
    refine ⟨accepted, hacc, hsub, ?_, hacc.blocks_eq, hacc.feed_eq⟩
    rw [Nat.zero_add] at hlen
    exact hlen

end Chain

theorem Sample.sound_chain :
    Chain.Reachable Suite.small chain ∧ chain.Sound Suite.small ∧ chain.blocks.length = 2 :=
  ⟨reachable_chain, reachable_chain.sound_and_append_only.1, rfl⟩

end DelayLedger
