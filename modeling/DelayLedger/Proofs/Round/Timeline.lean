import DelayLedger.Proofs.Round.Requests
import DelayLedger.Proofs.Round.Undisturbed
import DelayLedger.Round.Timeline

/-!
# Round after round

A timeline takes one step at a time, and a step is one of four things (`Timeline.Happens`): a round
begins, it ends because another block was heard of, it ends without a block when its slot is over, or the
node appends a block of its own.  What one step keeps, a run of any number of steps keeps.

* `Timeline.happens_of_step`: every step is one of the four.
* `Timeline.Since`: what has become of the node, its queue and its chain from one moment to another.
* `Timeline.advance_keeps`: what a run keeps, among it that a node appends one block a slot at most and
  that it does not go beyond its goal.
* `Timeline.exists_advance_eq_goal`: a node that is due at every tip comes to its goal.
-/

namespace DelayLedger

/-! ### One round -/

namespace Round

variable {s : Suite} {now : UInt64} {p : Participant} {c : Chain} {r : Round}

/-- The node computes its delay or waits: it has not come further in its round. -/
def IsFresh (r : Round) : Prop := r.phase = .computing ∨ r.phase = .waiting

theorem isFresh_start (s : Suite) (p : Participant) (c : Chain) : (start s p c).IsFresh := by
  rw [IsFresh, start, readTip]
  dsimp only
  split
  · exact Or.inl rfl
  · exact Or.inr rfl

theorem changes_forgeOn_subset (s : Suite) (now : UInt64) (p : Participant) (tip : Block)
    (proof : DelayProof) : (forgeOn s now p tip proof).changes ⊆ p.queue :=
  Membership.select_subset s tip p.keys.publicKey p.queue

theorem hearUpTo_cases (hc : c.Broadcasts) (count : Nat) (r : Round) :
    (∃ cursor, r.hearUpTo c count = .going { r with cursor := cursor }) ∨
      ∃ height, r.hearUpTo c count = .done (r.superseded height) := by
  induction count generalizing r with
  | zero => exact Or.inl ⟨r.cursor, rfl⟩
  | succ count ih =>
    rw [hearUpTo]
    rcases hear_cases (r := r) hc with ⟨cursor, hhear⟩ | ⟨b, -, -, hhear⟩
    · rw [hhear]
      exact ih { r with cursor := cursor }
    · rw [hhear]
      exact Or.inr ⟨b.height, rfl⟩

theorem superseded_ne_produced (height : UInt64) (a : Appended) :
    r.superseded height ≠ .produced a := by
  rw [superseded]
  split
  · simp
  · simp

/-- **A producer whose slot is over** appends a block of its pending requests, or its round ends with
nothing changed. -/
theorem undisturbed_cases (s : Suite) (now : UInt64) (p : Participant) (c : Chain)
    (hphase : r.phase = .computing) :
    (∃ proof b, b = forgeOn s now p r.tip proof ∧ validate s c.policy now c.tip b = .ok () ∧
      r.undisturbed s now p c =
        (.done (.produced b.appended), { p with queue := p.queue.settle b.changes b.height },
          c.push b)) ∨
    ∃ outcome, (∀ a, outcome ≠ .produced a) ∧ r.undisturbed s now p c = (.done outcome, p, c) := by
  simp only [undisturbed, finishDelay, hphase]
  cases Delay.compute s r.tip.difficulty r.tip.hash.bytes fun _ => false with
  | error cause =>
    cases cause with
    | interrupted => exact Or.inr ⟨.stopped, by simp, rfl⟩
    | _ => exact Or.inr ⟨_, by simp, rfl⟩
  | ok proof =>
    simp only [finishSlot, proceedUpTo, proceed, AppendCall.step]
    cases hok : validate s c.policy now c.tip (forgeOn s now p r.tip proof) with
    | error e => exact Or.inr ⟨.rejected e, by simp, rfl⟩
    | ok _ =>
      refine Or.inl ⟨proof, _, rfl, hok, ?_⟩
      simp only [Chain.commit, ne_eq, not_true_eq_false, if_false]

end Round

/-! ### One step -/

namespace Timeline

/-- The slot of the round at hand is over, or the run is to go on until it is. -/
def MayEnd (h : Horizon) (x : Timeline) : Prop := (h.waits || x.slotEnd ≤ x.clock) = true

inductive Happens (s : Suite) (now : UInt64) (h : Horizon) (x : Timeline) : Timeline → Prop
  | begins : Happens s now h x { x with progress := .going (Round.start s x.node x.chain) }
  | hears {outcome : RoundOutcome} :
      (∀ a, outcome ≠ .produced a) →
      Happens s now h x { x with progress := .done outcome, began := x.clock }
  | ends {outcome : RoundOutcome} :
      MayEnd h x → (∀ a, outcome ≠ .produced a) →
      Happens s now h x { x with progress := .done outcome, began := x.slotEnd }
  | appends {b tip : Block} {proof : DelayProof} :
      MayEnd h x → reached h.goal x = false → b = Round.forgeOn s now x.node tip proof →
      validate s x.chain.policy now x.chain.tip b = .ok () →
      Happens s now h x
        { x with
          node := { x.node with queue := x.node.queue.settle b.changes b.height }
          chain := x.chain.push b
          progress := .done (.produced b.appended)
          began := x.slotEnd }

/-- What holds of a timeline at every moment. -/
structure Sound (s : Suite) (x : Timeline) : Prop where
  reachable : x.chain.Reachable s
  queue_valid : x.node.queue.Valid s
  fresh : ∀ r, x.progress = .going r → r.IsFresh

/-- From one moment to another the node has appended the blocks `new`, all of them made of requests in
its queue, and its queue has lost what they record and what they leave too old. -/
structure Since (x y : Timeline) (new : List Block) : Prop where
  node_eq : y.node = { x.node with queue := y.node.queue }
  clock_eq : y.clock = x.clock
  policy_eq : y.chain.policy = x.chain.policy
  blocks_eq : y.chain.blocks = x.chain.blocks ++ new
  producer_eq : ∀ b ∈ new, b.producer = x.node.keys.publicKey
  recorded : ∀ b ∈ new, b.changes ⊆ x.node.queue
  queue_subset : y.node.queue ⊆ x.node.queue
  left : ∀ d ∈ x.node.queue, d ∉ y.node.queue →
    ∃ b ∈ new, d ∈ b.changes ∨ d.requestedAt.toNat + 64 < b.height.toNat

variable {s : Suite} {now : UInt64} {h : Horizon} {x y z : Timeline} {new more : List Block}

theorem sound_start {c : Chain} (hc : c.Reachable s) {p : Participant} (hq : p.queue.Valid s)
    (isStopped : Bool) : (start s p c isStopped).Sound s where
  reachable := hc
  queue_valid := hq
  fresh r hr := by
    have hgoing : Round.startUnlessStopped s p c isStopped = .going r := hr
    rw [Round.startUnlessStopped] at hgoing
    split at hgoing
    · contradiction
    · injection hgoing with hgoing
      exact hgoing ▸ Round.isFresh_start s p c

/-- Between two runs others may append, requests may come in and time may pass. -/
theorem Sound.meanwhile (hx : x.Sound s) {c : Chain} (hc : c.Reachable s) {p : Participant}
    (hq : p.queue.Valid s) (clock : Nat) :
    Sound s { x with node := p, chain := c, clock := clock } := ⟨hc, hq, hx.fresh⟩

/-- **Every step is one of four things.** -/
theorem happens_of_step (hx : x.Sound s) (hstep : x.step s now h = some y) : Happens s now h x y := by
  rw [step] at hstep
  split at hstep
  · contradiction
  next hgoal =>
  split at hstep
  · split at hstep
    · injection hstep with hstep
      exact hstep ▸ .begins
    · contradiction
  next r hprogress =>
  rcases Round.hearUpTo_cases hx.reachable.broadcasts (x.chain.feed.total - r.cursor) r with
    ⟨cursor, hhear⟩ | ⟨height, hhear⟩
  · rw [Round.hearAll, hhear] at hstep
    rcases hx.fresh r hprogress with hphase | hphase
    · simp only [hphase] at hstep
      split at hstep
      · next hover =>
        have hcomputing : ({ r with cursor := cursor } : Round).phase = .computing := hphase
        rcases Round.undisturbed_cases s now x.node x.chain hcomputing with
          ⟨proof, b, hb, hok, hround⟩ | ⟨outcome, hne, hround⟩
        · rw [hphase] at hround
          rw [hround] at hstep
          injection hstep with hstep
          exact hstep ▸ .appends hover (Bool.eq_false_iff.mpr hgoal) hb hok
        · rw [hphase] at hround
          rw [hround] at hstep
          injection hstep with hstep
          exact hstep ▸ .ends hover hne
      · contradiction
    · simp only [hphase] at hstep
      contradiction
  · rw [Round.hearAll, hhear] at hstep
    injection hstep with hstep
    exact hstep ▸ .hears (Round.superseded_ne_produced height)

theorem Sound.of_happens (hx : x.Sound s) (hstep : Happens s now h x y) : y.Sound s := by
  cases hstep with
  | begins =>
    refine ⟨hx.reachable, hx.queue_valid, fun r hr => ?_⟩
    injection hr with hr
    exact hr ▸ Round.isFresh_start s x.node x.chain
  | hears _ =>
    refine ⟨hx.reachable, hx.queue_valid, fun r hr => ?_⟩
    injection hr
  | ends _ _ =>
    refine ⟨hx.reachable, hx.queue_valid, fun r hr => ?_⟩
    injection hr
  | @appends b tip proof _ _ _ hok =>
    have hcall := hx.reachable.call (.append now b)
    rw [Chain.Call.run, AppendCall.runAlone_of_ok hok] at hcall
    refine ⟨hcall, hx.queue_valid.settle b.changes b.height, fun r hr => ?_⟩
    injection hr

/-! ### What has become of the node -/

theorem Since.refl (x : Timeline) : x.Since x [] where
  node_eq := rfl
  clock_eq := rfl
  policy_eq := rfl
  blocks_eq := (List.append_nil _).symm
  producer_eq := List.forall_mem_nil _
  recorded := List.forall_mem_nil _
  queue_subset := List.Subset.refl _
  left _ hd hmissing := absurd hd hmissing

theorem Since.trans (hxy : x.Since y new) (hyz : y.Since z more) : x.Since z (new ++ more) where
  node_eq := by
    rw [hyz.node_eq, hxy.node_eq]
  clock_eq := hyz.clock_eq.trans hxy.clock_eq
  policy_eq := hyz.policy_eq.trans hxy.policy_eq
  blocks_eq := by rw [hyz.blocks_eq, hxy.blocks_eq, List.append_assoc]
  producer_eq b hb := by
    rcases List.mem_append.mp hb with hb | hb
    · exact hxy.producer_eq b hb
    · rw [hyz.producer_eq b hb, hxy.node_eq]
  recorded b hb := by
    rcases List.mem_append.mp hb with hb | hb
    · exact hxy.recorded b hb
    · exact List.Subset.trans (hyz.recorded b hb) hxy.queue_subset
  queue_subset := List.Subset.trans hyz.queue_subset hxy.queue_subset
  left d hd hmissing := by
    by_cases hthere : d ∈ y.node.queue
    · obtain ⟨b, hb, hwhy⟩ := hyz.left d hthere hmissing
      exact ⟨b, List.mem_append_right _ hb, hwhy⟩
    · obtain ⟨b, hb, hwhy⟩ := hxy.left d hd hthere
      exact ⟨b, List.mem_append_left _ hb, hwhy⟩

theorem since_of_same (x : Timeline) (progress : Progress) (began : Nat) :
    x.Since { x with progress := progress, began := began } [] :=
  { Since.refl x with }

theorem exists_since_of_happens (hstep : Happens s now h x y) : ∃ new, x.Since y new := by
  cases hstep with
  | begins => exact ⟨[], since_of_same x _ x.began⟩
  | hears _ => exact ⟨[], since_of_same x _ x.clock⟩
  | ends _ _ => exact ⟨[], since_of_same x _ x.slotEnd⟩
  | @appends b tip proof _ _ hb _ =>
    refine ⟨[b], ⟨rfl, rfl, rfl, Chain.blocks_push x.chain b, ?_, ?_, ?_, ?_⟩⟩
    · intro d hd
      rw [List.mem_singleton.mp hd, hb]
      rfl
    · intro d hd
      rw [List.mem_singleton.mp hd, hb]
      exact Round.changes_forgeOn_subset s now x.node tip proof
    · exact fun d hd => (Queue.mem_settle.mp hd).1
    · intro d hd hmissing
      refine ⟨b, List.mem_cons_self, ?_⟩
      by_cases hrecorded : d ∈ b.changes
      · exact Or.inl hrecorded
      · refine Or.inr (Scene.expired_of_not_isUsable fun husable => ?_).1
        exact hmissing (Queue.mem_settle.mpr ⟨hd, hrecorded, husable⟩)

/-! ### Pace and goal -/

/-- The blocks that the node has appended since `x` took it a slot each. -/
structure Paced (x y : Timeline) : Prop where
  slot_eq : y.node.slot = x.node.slot
  began_le : y.began ≤ y.clock
  pace : x.began + y.chain.length * max 1 x.node.slot.millis ≤
    y.began + x.chain.length * max 1 x.node.slot.millis

theorem Paced.step (hy : x.Paced y) (hwaits : h.waits = false) (hstep : Happens s now h y z) :
    x.Paced z := by
  have hpace := hy.pace
  have hbegan := hy.began_le
  have hover (hend : MayEnd h y) : y.began + max 1 x.node.slot.millis ≤ y.clock := by
    rw [MayEnd, hwaits, Bool.false_or] at hend
    exact hy.slot_eq ▸ of_decide_eq_true hend
  have hend_eq : y.slotEnd = y.began + max 1 x.node.slot.millis := by rw [slotEnd, hy.slot_eq]
  cases hstep with
  | begins => exact ⟨hy.slot_eq, hbegan, hpace⟩
  | hears _ => exact ⟨hy.slot_eq, Nat.le_refl _, hpace.trans (Nat.add_le_add_right hbegan _)⟩
  | ends hend _ =>
    refine ⟨hy.slot_eq, hend_eq ▸ hover hend, ?_⟩
    show x.began + y.chain.length * _ ≤ y.slotEnd + _
    omega
  | @appends b tip proof hend _ _ _ =>
    refine ⟨hy.slot_eq, hend_eq ▸ hover hend, ?_⟩
    show x.began + (y.chain.length + 1) * max 1 x.node.slot.millis ≤ y.slotEnd + _
    rw [Nat.succ_mul]
    omega

theorem reached_eq_false_iff {goal : UInt64} (hgoal : h.goal = some goal) :
    reached h.goal x = false ↔ x.chain.tip.height < goal := by
  rw [reached, hgoal, Option.any_some, decide_eq_false_iff_not, UInt64.not_le]

theorem height_le_of_happens {goal : UInt64} (hgoal : h.goal = some goal)
    (hle : x.chain.tip.height ≤ goal) (hstep : Happens s now h x y) :
    y.chain.tip.height ≤ goal := by
  cases hstep with
  | @appends b tip proof _ hreached _ hok =>
    have hlt := (reached_eq_false_iff hgoal).mp hreached
    have hheight := (follows_of_validate hok).height_eq
    show b.height ≤ goal
    rw [UInt64.lt_iff_toNat_lt] at hlt
    rw [UInt64.le_iff_toNat_le, hheight]
    exact hlt
  | _ => exact hle

/-! ### Whole runs -/

theorem advance_induction {motive : Timeline → Prop} (hx : x.Sound s) (hfirst : motive x)
    (hnext : ∀ y z, y.Sound s → Happens s now h y z → motive y → motive z) (count : Nat) :
    (x.advance s now h count).Sound s ∧ motive (x.advance s now h count) := by
  induction count generalizing x with
  | zero => exact ⟨hx, hfirst⟩
  | succ count ih =>
    rw [advance]
    cases hstep : x.step s now h with
    | none => exact ⟨hx, hfirst⟩
    | some y =>
      have hhappens := happens_of_step hx hstep
      exact ih (hx.of_happens hhappens) (hnext x y hx hhappens hfirst)

theorem step_eq_none (hreached : reached h.goal x = true) : x.step s now h = none := by
  rw [step, hreached]
  rfl

theorem advance_eq_self (hnone : x.step s now h = none) (count : Nat) :
    x.advance s now h count = x := by
  cases count with
  | zero => rw [advance]
  | succ count => rw [advance, hnone]

theorem advance_add (s : Suite) (now : UInt64) (h : Horizon) (m n : Nat) (x : Timeline) :
    x.advance s now h (m + n) = (x.advance s now h m).advance s now h n := by
  induction m generalizing x with
  | zero => rw [Nat.zero_add, advance]
  | succ m ih =>
    rw [Nat.add_right_comm, advance, advance]
    cases hstep : x.step s now h with
    | some y => exact ih y
    | none => exact (advance_eq_self hstep n).symm

theorem since_advance (hx : x.Sound s) (count : Nat) :
    (x.advance s now h count).Sound s ∧ ∃ new, x.Since (x.advance s now h count) new := by
  refine advance_induction (motive := fun y => ∃ new, x.Since y new) hx ⟨[], Since.refl x⟩
    (fun y z _ hstep hy => ?_) count
  obtain ⟨new, hxy⟩ := hy
  obtain ⟨more, hyz⟩ := exists_since_of_happens hstep
  exact ⟨new ++ more, hxy.trans hyz⟩

theorem paced_advance (hx : x.Sound s) (hwaits : h.waits = false) (hbegan : x.began ≤ x.clock)
    (count : Nat) : x.Paced (x.advance s now h count) :=
  (advance_induction hx ⟨rfl, hbegan, Nat.le_refl _⟩
    (fun _ _ _ hstep hy => hy.step hwaits hstep) count).2

/-- **What a run of rounds keeps.**  The chain stays reachable and the queue valid; the node's keys,
policy and slot stay as they are; the blocks that are new are the node's, record what was pending, and
account for every request that is pending no more.  A node that does not wait for slots to pass appends
one block a slot at most, and no node goes beyond its goal. -/
theorem advance_keeps (hx : x.Sound s) (count : Nat) :
    let y := x.advance s now h count
    y.Sound s ∧ ∃ new, x.Since y new ∧
      (h.waits = false → x.began ≤ x.clock →
        y.began ≤ x.clock ∧ x.began + new.length * max 1 x.node.slot.millis ≤ y.began) ∧
      ∀ goal, h.goal = some goal → x.chain.tip.height ≤ goal → y.chain.tip.height ≤ goal := by
  intro y
  obtain ⟨hy, new, hsince⟩ : y.Sound s ∧ ∃ new, x.Since y new := since_advance hx count
  refine ⟨hy, new, hsince, fun hwaits hbegan => ?_, fun goal hgoal hle => ?_⟩
  · obtain ⟨-, hclock, hpace⟩ : x.Paced y := paced_advance hx hwaits hbegan count
    have hlength : y.chain.length = x.chain.length + new.length := by
      rw [← Chain.length_blocks, hsince.blocks_eq, List.length_append, Chain.length_blocks]
    refine ⟨hsince.clock_eq ▸ hclock, ?_⟩
    rw [hlength, Nat.add_mul] at hpace
    omega
  · exact (advance_induction hx hle
      (fun y z _ hstep hy => height_le_of_happens hgoal hy hstep) count).2

/-! ### A node that is due -/

/-- **A node that is due appends a block when its slot is over.** -/
theorem step_of_due (hdue : x.node.Due s x.chain)
    (hround : x.progress = .going (Round.start s x.node x.chain)) (hend : MayEnd h x)
    (hgoal : reached h.goal x = false) (htime : x.chain.tip.timestamp.toNat ≤ now.toNat + 30) :
    ∃ b, x.node.Makes s x.chain [now] b ∧
      x.step s now h =
        some { x with
          node := { x.node with queue := x.node.queue.settle b.changes b.height }
          chain := x.chain.push b
          progress := .done (.produced b.appended)
          began := x.slotEnd } := by
  obtain ⟨b, hb, hends⟩ := hdue.undisturbed_eq htime
  have hstart : Round.start s x.node x.chain = ⟨x.chain.tip, x.chain.feed.total, .computing⟩ := by
    simp only [Round.start, Round.readTip, Schedule.dutyOf_of_rank_eq hdue.rank_eq]
  refine ⟨b, hb, ?_⟩
  rw [hstart] at hround hends
  have hnothing : (⟨x.chain.tip, x.chain.feed.total, .computing⟩ : Round).hearAll x.chain =
      .going ⟨x.chain.tip, x.chain.feed.total, .computing⟩ := by
    rw [Round.hearAll, Nat.sub_self, Round.hearUpTo]
  rw [step, hgoal, hround]
  simp only [Bool.false_eq_true, if_false, hnothing, hends]
  exact if_pos hend

theorem timestamp_of_makes {p : Participant} {c : Chain} {b : Block} (hb : p.Makes s c [now] b) :
    b.timestamp = max now c.tip.timestamp := by
  obtain ⟨began, hbegan, proof, pending, -, rfl⟩ := hb
  rw [List.mem_singleton.mp hbegan]
  rfl

theorem step_of_done {outcome : RoundOutcome} (hdone : x.progress = .done outcome)
    (hgoes : goesOn outcome = true) (hrepeats : h.repeats = true)
    (hreached : reached h.goal x = false) :
    x.step s now h = some { x with progress := .going (Round.start s x.node x.chain) } := by
  rw [step, hreached, hdone]
  simp only [Bool.false_eq_true, if_false, hrepeats, hgoes, Bool.and_self, if_true]

/-- The next round, once the node has appended a block. -/
def nextRound (s : Suite) (x : Timeline) (b : Block) : Timeline :=
  let node := { x.node with queue := x.node.queue.settle b.changes b.height }
  { node := node
    chain := x.chain.push b
    progress := .going (Round.start s node (x.chain.push b))
    began := x.slotEnd
    clock := x.clock }

/-- A node that is due reaches the next height, and if its goal is higher it begins the next round. -/
theorem advance_of_due {goal : UInt64} (hgoal : h.goal = some goal) (hwaits : h.waits = true)
    (hrepeats : h.repeats = true) (hround : x.progress = .going (Round.start s x.node x.chain))
    (hlt : x.chain.tip.height < goal) (htime : x.chain.tip.timestamp.toNat ≤ now.toNat + 30)
    (hdue : x.node.Due s x.chain) :
    ∃ b : Block, b.height.toNat = x.chain.tip.height.toNat + 1 ∧
      b.timestamp = max now x.chain.tip.timestamp ∧ (x.advance s now h 1).chain.tip = b ∧
      (b.height < goal → x.advance s now h 2 = x.nextRound s b) := by
  have hend : MayEnd h x := Bool.or_eq_true_iff.mpr (Or.inl hwaits)
  obtain ⟨b, hb, hstep⟩ := step_of_due hdue hround hend ((reached_eq_false_iff hgoal).mpr hlt) htime
  refine ⟨b, (hdue.nextBy_of_makes hb).height_eq, timestamp_of_makes hb, ?_, fun hmore => ?_⟩
  · rw [advance, hstep]
    rfl
  · rw [advance, hstep]
    simp only
    rw [advance, step_of_done rfl rfl hrepeats ((reached_eq_false_iff hgoal).mpr hmore)]
    rfl

/-- **A node that is due at every tip comes to its goal**, block after block. -/
theorem exists_advance_eq_goal {goal : UInt64} (hgoal : h.goal = some goal) (hwaits : h.waits = true)
    (hrepeats : h.repeats = true) (hround : x.progress = .going (Round.start s x.node x.chain))
    (hle : x.chain.tip.height ≤ goal) (htime : x.chain.tip.timestamp.toNat ≤ now.toNat + 30)
    (hdue : ∀ count, let y := x.advance s now h count
      y.chain.tip.height < goal → y.node.Due s y.chain) :
    ∃ count, (x.advance s now h count).chain.tip.height = goal := by
  rw [UInt64.le_iff_toNat_le] at hle
  induction hleft : goal.toNat - x.chain.tip.height.toNat generalizing x with
  | zero => exact ⟨0, UInt64.toNat_inj.mp (Nat.le_antisymm hle (Nat.sub_eq_zero_iff_le.mp hleft))⟩
  | succ left ih =>
    have hlt : x.chain.tip.height < goal := by
      rw [UInt64.lt_iff_toNat_lt]
      omega
    obtain ⟨b, hheight, htimestamp, hone, htwo⟩ :=
      advance_of_due hgoal hwaits hrepeats hround hlt htime (hdue 0 hlt)
    by_cases hmore : b.height < goal
    · have hnext : b.timestamp.toNat ≤ now.toNat + 30 := by
        rw [htimestamp, UInt64.toNat_max]
        omega
      have hlater (count : Nat) :
          x.advance s now h (2 + count) = (x.nextRound s b).advance s now h count := by
        rw [advance_add, htwo hmore]
      have hgoes : ∃ count, ((x.nextRound s b).advance s now h count).chain.tip.height = goal := by
        refine ih rfl (UInt64.le_iff_toNat_le.mp (UInt64.le_of_lt hmore)) hnext (fun count => ?_) ?_
        · rw [← hlater]
          exact hdue (2 + count)
        · show goal.toNat - b.height.toNat = left
          omega
      obtain ⟨count, hcount⟩ := hgoes
      exact ⟨2 + count, by rw [hlater]; exact hcount⟩
    · refine ⟨1, ?_⟩
      rw [hone]
      rw [UInt64.lt_iff_toNat_lt] at hmore
      exact UInt64.toNat_inj.mp (by omega)

end Timeline

/-! ### The small ledger, one round on -/

namespace Sample

open Suite (small)

def started : Timeline := .start small worker founded false

def toFirst : Horizon := ⟨true, true, some 1⟩

theorem height_started : (started.advance small 100 toFirst 1).chain.tip.height = 1 := by
  decide +kernel

/-- The worker is due as long as the height to come is the first. -/
example : ∃ count, (started.advance small 100 toFirst count).chain.tip.height = 1 := by
  refine Timeline.exists_advance_eq_goal rfl rfl rfl rfl (by decide) (by decide) ?_
  rintro (_ | count) y hlt
  · exact due_worker
  · have hend : (started.advance small 100 toFirst 1).step small 100 toFirst = none :=
      Timeline.step_eq_none (by rw [Timeline.reached, height_started]; decide)
    have hy : y = started.advance small 100 toFirst 1 := by
      rw [← Timeline.advance_eq_self hend count, ← Timeline.advance_add, Nat.add_comm]
    rw [hy, height_started] at hlt
    exact absurd hlt (UInt64.lt_irrefl 1)

end Sample

end DelayLedger
