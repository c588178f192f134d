import DelayLedger.Proofs.Chain.Feed
import DelayLedger.Proofs.Chain.Race
import DelayLedger.Proofs.Delay.Computation
import DelayLedger.Proofs.Membership.Queue
import DelayLedger.Round

/-!
# One round among others

A scene is a node in the course of one round together with everything that may come between any two of
its steps: others append to the same chain, a call of theirs being three steps as well; a block that
landed is published some time later, and such publications overtake one another; requests come in; and
at some moment the node is asked to stop.  `Scene.run` takes any list of events in its order.  An event
that cannot happen where the round stands changes nothing.

* `Round.hear_cases`, `Round.finishDelay_cases`: what the node may hear, and how its computation ends.
* `Scene.step_proceed_landed` and the lemmas beside it: what its last steps do, phase by phase.
* `Scene.queue_step`: what an event does to the queue.
* `Scene.queue_run`: until the round has produced, the queue only takes in requests.
-/

namespace DelayLedger

/-! ### Steps of a round -/

namespace Round

/-- Whether a round takes part in the feed and may be stopped. -/
def listens (r : Round) : Bool :=
  match r.phase with
  | .appending .. => false
  | .settling _ => false
  | _ => true

variable {s : Suite} {c : Chain} {r : Round}

/-- **A reader goes on or hears of a higher block.**  No block is taken for a newer one than it is, and
nobody is told that the feed of a chain in use is closed. -/
theorem hear_cases (hc : c.Broadcasts) :
    (∃ cursor, r.hear c = .going { r with cursor := cursor }) ∨
      ∃ b ∈ c.blocks, r.tip.height < b.height ∧ r.hear c = .done (r.superseded b.height) := by
  rw [hear]
  rcases hheard : c.feed.receive r.cursor with ⟨heard, cursor⟩
  cases heard with
  | closed =>
    have hclosed := Feed.isClosed_of_receive hheard
    rw [hc.open_feed] at hclosed
    contradiction
  | nothing => exact Or.inl ⟨cursor, rfl⟩
  | item b =>
    by_cases hhigher : r.tip.height < b.height
    · refine Or.inr ⟨b, hc.recent_subset b (Feed.mem_recent_of_receive hheard), hhigher, ?_⟩
      simp only [supersededBy?, if_pos hhigher]
    · refine Or.inl ⟨cursor, ?_⟩
      simp only [supersededBy?, if_neg hhigher]
  | lagged missed =>
    -- the block heard of is then the tip
    by_cases hhigher : r.tip.height < c.tip.height
    · refine Or.inr ⟨c.tip, AppendCall.mem_blocks_tip c, hhigher, ?_⟩
      simp only [supersededBy?, if_pos hhigher]
    · refine Or.inl ⟨cursor, ?_⟩
      simp only [supersededBy?, if_neg hhigher]

theorem finishDelay_of_ne {abort : Nat → Bool} (h : r.phase ≠ .computing) :
    r.finishDelay s abort = .going r := by
  rw [finishDelay]
  split
  · next hphase => exact absurd hphase h
  · rfl

/-- **The end of a computation** leads to a proof, or to a stop when it was called off. -/
theorem finishDelay_cases (abort : Nat → Bool) (htip : r.tip.difficulty ≠ 0)
    (hphase : r.phase = .computing) :
    (∃ proof, r.finishDelay s abort = .going { r with phase := .pacing proof }) ∨
      r.finishDelay s abort = .done .stopped ∧ ∃ n, abort n = true := by
  simp only [finishDelay, hphase]
  cases hcompute : Delay.compute s r.tip.difficulty r.tip.hash.bytes abort with
  | ok proof => exact Or.inl ⟨proof, rfl⟩
  | error cause =>
    obtain ⟨rfl, step, -, -, hup⟩ := Delay.calledOff_of_compute_eq_error htip hcompute
    exact Or.inr ⟨rfl, hup.elim (fun h => ⟨_, h⟩) fun h => ⟨_, h⟩⟩

theorem stop_of_listens (h : r.listens = true) : r.stop = .done .stopped := by
  rw [listens] at h
  rw [stop]
  split
  · next hphase => simp [hphase] at h
  · next hphase => simp [hphase] at h
  · rfl

theorem stop_of_not_listens (h : r.listens = false) : r.stop = .going r := by
  rw [listens] at h
  rw [stop]
  split
  · rfl
  · rfl
  · next happending hsettling =>
    split at h
    · next hphase => exact absurd hphase (happending _ _)
    · next hphase => exact absurd hphase (hsettling _)
    · contradiction

theorem settling_or_proceed (s : Suite) (now : UInt64) (p : Participant) (c : Chain) (r : Round) :
    (∃ b, r.phase = .settling b) ∨ (r.proceed s now p c).2.1 = p := by
  rw [proceed]
  cases r.phase with
  | settling b => exact Or.inl ⟨b, rfl⟩
  | appending b call =>
    right
    dsimp only
    split <;> rfl
  | _ => exact Or.inr rfl

end Round

/-! ### Scenes -/

inductive Author
  | node
  | other
deriving DecidableEq

/-- How far the node is with its round. -/
inductive Stage
  | idle
  /-- The feed is joined, and the tip is not read yet. -/
  | joined (cursor : Nat)
  | running (round : Round)
  /-- A block at `height` superseded the tip, and the node waits for its computation to end. -/
  | leaving (height : UInt64)
  | ended (outcome : RoundOutcome)

def Progress.stage : Progress → Stage
  | .going round => .running round
  | .done outcome => .ended outcome

structure Scene where
  node : Participant
  /-- The chain, its feed holding what has been published so far. -/
  chain : Chain
  /-- The blocks of the chain that are still to be published. -/
  unpublished : List Block
  /-- The calls of others. -/
  calls : List AppendCall
  stage : Stage
  /-- Whether the node has been asked to stop. -/
  stopAsked : Bool
  /-- Whether the node has called its computation off.  A stop calls it off as well. -/
  aborted : Bool
  /-- The tip that the round read, once it has. -/
  tipRead : Option Block
  /-- The blocks that landed since the scene began, the latest last. -/
  landed : List (Author × Block)

inductive Event
  /-- The node joins the feed, unless it is to stop already. -/
  | join
  | readTip
  /-- The node takes the next item of the feed.  If it finds that it lost some, it looks at the tip. -/
  | hear
  /-- The node's computation ends.  `abort` says at which looks it would see that it is called off. -/
  | finishDelay (abort : Nat → Bool)
  /-- The node's slot is over, and it takes the next step with its own block. -/
  | proceed (now : UInt64)
  /-- The node notices that it is to stop. -/
  | heedStop
  /-- Somebody else calls to append a block. -/
  | call (candidate : Block)
  /-- A call of somebody else takes its next step. -/
  | advance (index : Nat) (now : UInt64)
  /-- A block that landed is published. -/
  | publish (index : Nat)
  | request (change : Change)
  | askStop

namespace Event

def request? : Event → Option Change
  | .request c => some c
  | _ => none

def requests (events : List Event) : List Change := events.filterMap request?

theorem requests_concat (events : List Event) (e : Event) :
    requests (events ++ [e]) = requests events ++ e.request?.toList := by
  rw [requests, List.filterMap_append]
  cases h : e.request? <;> simp [requests, h]

end Event

namespace Scene

/-- Before a round: `late` are blocks of the chain that others are still to publish. -/
def before (p : Participant) (c : Chain) (late : List Block) : Scene where
  node := p
  chain := c
  unpublished := late
  calls := []
  stage := .idle
  stopAsked := false
  aborted := false
  tipRead := none
  landed := []

def outcome? (x : Scene) : Option RoundOutcome :=
  match x.stage with
  | .ended outcome => some outcome
  | _ => none

def own (x : Scene) : List Block := (x.landed.filter (·.1 == .node)).map Prod.snd

/-- A step of a call has left `c`.  What landed is published later, as an event of its own. -/
def land (x : Scene) (author : Author) (c : Chain) : Scene :=
  let new := c.blocks.drop x.chain.length
  { x with
    chain := { c with feed := x.chain.feed }
    unpublished := x.unpublished ++ new
    landed := x.landed ++ new.map fun b => (author, b) }

def during (x : Scene) (f : Round → Scene) : Scene :=
  match x.stage with
  | .running r => f r
  | _ => x

def step (s : Suite) (x : Scene) : Event → Scene
  | .join =>
    match x.stage with
    | .idle =>
      { x with stage := if x.stopAsked then .ended .stopped else .joined x.chain.feed.total }
    | _ => x
  | .readTip =>
    match x.stage with
    | .joined cursor =>
      { x with
        stage := .running (Round.readTip s x.node x.chain cursor)
        tipRead := some x.chain.tip }
    | _ => x
  | .hear => x.during fun r =>
    if r.listens then
      match r.hear x.chain, r.phase with
      | .done (.interrupted height), .computing =>
        { x with stage := .leaving height, aborted := true }
      | progress, _ => { x with stage := progress.stage }
    else x
  | .finishDelay abort =>
    match x.stage with
    | .running r =>
      { x with stage := (r.finishDelay s fun n => (x.stopAsked || x.aborted) && abort n).stage }
    -- whatever has become of the computation
    | .leaving height => { x with stage := .ended (.interrupted height) }
    | _ => x
  | .proceed now => x.during fun r =>
    let (progress, node, c) := r.proceed s now x.node x.chain
    { x.land .node c with node := node, stage := progress.stage }
  | .heedStop => x.during fun r => if x.stopAsked then { x with stage := r.stop.stage } else x
  | .call candidate => { x with calls := x.calls ++ [.reading candidate] }
  | .advance i now =>
    match x.calls[i]? with
    | some call =>
      let (c, call) := call.step s now x.chain
      { x.land .other c with calls := x.calls.set i call }
    | none => x
  | .publish i =>
    match x.unpublished[i]? with
    | some b =>
      { x with
        chain := { x.chain with feed := x.chain.feed.publish b }
        unpublished := x.unpublished.eraseIdx i }
    | none => x
  | .request c => { x with node := { x.node with queue := x.node.queue.offer s c } }
  | .askStop => { x with stopAsked := true }

def run (s : Suite) (x : Scene) (events : List Event) : Scene := events.foldl (step s) x

variable {s : Suite} {x : Scene} {r : Round}

theorem outcome?_eq_some_iff {outcome : RoundOutcome} :
    x.outcome? = some outcome ↔ x.stage = .ended outcome := by
  rw [outcome?]
  cases x.stage <;> simp

theorem run_concat (s : Suite) (x : Scene) (events : List Event) (e : Event) :
    x.run s (events ++ [e]) = (x.run s events).step s e := by
  rw [run, List.foldl_append]
  rfl

theorem run_append (s : Suite) (x : Scene) (events later : List Event) :
    x.run s (events ++ later) = (x.run s events).run s later := List.foldl_append ..

/-- One more block lies on the chain and is still to be published. -/
def push (x : Scene) (author : Author) (b : Block) : Scene :=
  { x with
    chain := { x.chain.push b with feed := x.chain.feed }
    unpublished := x.unpublished ++ [b]
    landed := x.landed ++ [(author, b)] }

theorem land_self (x : Scene) (author : Author) : x.land author x.chain = x := by
  have hnone : x.chain.blocks.drop x.chain.length = [] := by
    rw [← Chain.length_blocks, List.drop_length]
  simp [land, hnone]

theorem land_push (x : Scene) (author : Author) (b : Block) :
    x.land author (x.chain.push b) = x.push author b := by
  have hone : (x.chain.push b).blocks.drop x.chain.length = [b] := by
    rw [← Chain.length_blocks, Chain.blocks_push, List.drop_left]
  simp [land, push, hone]

theorem own_push_node (x : Scene) (b : Block) : (x.push .node b).own = x.own ++ [b] := by
  simp [own, push]

theorem own_push_other (x : Scene) (b : Block) : (x.push .other b).own = x.own := by
  simp [own, push]

theorem blocks_push (x : Scene) (author : Author) (b : Block) :
    (x.push author b).chain.blocks = x.chain.blocks ++ [b] := Chain.blocks_push x.chain b

/-! ### The node's own steps -/

theorem step_proceed_pacing {now : UInt64} {proof : DelayProof} (hstage : x.stage = .running r)
    (hphase : r.phase = .pacing proof) :
    x.step s (.proceed now) =
      { x with
        stage := .running
          { r with
            phase := .appending (Round.forgeOn s now x.node r.tip proof)
              (.reading (Round.forgeOn s now x.node r.tip proof)) } } := by
  rw [step, during, hstage]
  simp only [Round.proceed, hphase, land_self, Progress.stage]

theorem step_proceed_going {now : UInt64} {b : Block} {call next : AppendCall}
    (hstage : x.stage = .running r) (hphase : r.phase = .appending b call)
    (hcall : call.step s now x.chain = (x.chain, next)) (hnext : next.ended = false) :
    x.step s (.proceed now) =
      { x with stage := .running { r with phase := .appending b next } } := by
  rw [step, during, hstage]
  cases next with
  | finished result => contradiction
  | reading => simp only [Round.proceed, hphase, hcall, land_self, Progress.stage]
  | checking => simp only [Round.proceed, hphase, hcall, land_self, Progress.stage]
  | committing => simp only [Round.proceed, hphase, hcall, land_self, Progress.stage]

theorem step_proceed_rejected {now : UInt64} {b : Block} {call : AppendCall} {e : ValidationError}
    (hstage : x.stage = .running r) (hphase : r.phase = .appending b call)
    (hcall : call.step s now x.chain = (x.chain, .finished (.error e))) :
    x.step s (.proceed now) = { x with stage := .ended (.rejected e) } := by
  rw [step, during, hstage]
  simp only [Round.proceed, hphase, hcall, land_self, Progress.stage]

theorem step_proceed_landed {now : UInt64} {b : Block} {call : AppendCall}
    (hstage : x.stage = .running r) (hphase : r.phase = .appending b call)
    (hcall : call.step s now x.chain = (x.chain.push b, .finished (.ok b.appended))) :
    x.step s (.proceed now) =
      { x.push .node b with stage := .running { r with phase := .settling b } } := by
  rw [step, during, hstage]
  simp only [Round.proceed, hphase, hcall, land_push, Progress.stage]
  rfl

theorem step_proceed_settling {now : UInt64} {b : Block} (hstage : x.stage = .running r)
    (hphase : r.phase = .settling b) :
    x.step s (.proceed now) =
      { x with
        node := { x.node with queue := x.node.queue.settle b.changes b.height }
        stage := .ended (.produced b.appended) } := by
  rw [step, during, hstage]
  simp only [Round.proceed, hphase, land_self, Progress.stage]

theorem step_proceed_idle {now : UInt64} (hstage : x.stage = .running r)
    (hphase : r.phase = .computing ∨ r.phase = .waiting) : x.step s (.proceed now) = x := by
  rw [step, during, hstage]
  rcases hphase with hphase | hphase
  · simp only [Round.proceed, hphase, land_self, Progress.stage, ← hstage]
  · simp only [Round.proceed, hphase, land_self, Progress.stage, ← hstage]

/-! ### What is heard -/

/-- **A node that listens** goes on, or it hears of a higher block.  Then the round ends, at once or
when the node's computation has ended. -/
theorem step_hear_cases (hc : x.chain.Broadcasts) (hstage : x.stage = .running r)
    (hlistens : r.listens = true) :
    (∃ cursor, x.step s .hear = { x with stage := .running { r with cursor := cursor } }) ∨
      ∃ b ∈ x.chain.blocks, r.tip.height < b.height ∧
        (x.step s .hear = { x with stage := .leaving b.height, aborted := true } ∨
          x.step s .hear = { x with stage := .ended (r.superseded b.height) }) := by
  rw [step, during, hstage]
  dsimp only
  rw [if_pos hlistens]
  rcases Round.hear_cases (r := r) hc with ⟨cursor, hhear⟩ | ⟨b, hb, hlt, hhear⟩
  · rw [hhear]
    exact Or.inl ⟨cursor, rfl⟩
  · refine Or.inr ⟨b, hb, hlt, ?_⟩
    rw [hhear, Round.superseded]
    cases r.phase with
    | computing => exact Or.inl rfl
    | _ => exact Or.inr rfl

theorem step_hear_self (h : ∀ r, x.stage = .running r → r.listens = false) : x.step s .hear = x := by
  rw [step, during]
  split
  · next r hstage => rw [if_neg (Bool.eq_false_iff.mp (h r hstage))]
  · rfl

/-! ### The steps of others -/

theorem step_advance {i : Nat} {now : UInt64} {call next : AppendCall}
    (hcall : x.calls[i]? = some call)
    (hnext : call.step s now x.chain = (x.chain, next)) :
    x.step s (.advance i now) = { x with calls := x.calls.set i next } := by
  rw [step]
  simp only [hcall, hnext, land_self]

theorem step_advance_landed {i : Nat} {now : UInt64} {b : Block} {call next : AppendCall}
    (hcall : x.calls[i]? = some call)
    (hnext : call.step s now x.chain = (x.chain.push b, next)) :
    x.step s (.advance i now) = { x.push .other b with calls := x.calls.set i next } := by
  rw [step]
  simp only [hcall, hnext, land_push]

theorem step_advance_none {i : Nat} (now : UInt64) (hcall : x.calls[i]? = none) :
    x.step s (.advance i now) = x := by
  rw [step]
  simp only [hcall]

theorem step_publish {i : Nat} {b : Block} (hb : x.unpublished[i]? = some b) :
    x.step s (.publish i) =
      { x with
        chain := { x.chain with feed := x.chain.feed.publish b }
        unpublished := x.unpublished.eraseIdx i } := by
  rw [step]
  simp only [hb]

theorem step_publish_none {i : Nat} (hb : x.unpublished[i]? = none) : x.step s (.publish i) = x := by
  rw [step]
  simp only [hb]

/-! ### What no event undoes -/

theorem stage_step_of_ended {outcome : RoundOutcome} (h : x.stage = .ended outcome) (e : Event) :
    (x.step s e).stage = .ended outcome := by
  cases e with
  | advance i now =>
    rw [step]
    split <;> exact h
  | publish i =>
    rw [step]
    split <;> exact h
  | call candidate => exact h
  | request c => exact h
  | askStop => exact h
  | _ => simp only [step, during, h]

theorem stage_run_of_ended {outcome : RoundOutcome} (h : x.stage = .ended outcome)
    (events : List Event) : (x.run s events).stage = .ended outcome := by
  induction events generalizing x with
  | nil => exact h
  | cons e events ih => exact ih (stage_step_of_ended h e)

theorem stopAsked_step {e : Event} (h : (x.step s e).stopAsked = true) :
    x.stopAsked = true ∨ e = .askStop := by
  cases e with
  | askStop => exact Or.inr rfl
  | _ =>
    left
    simp only [step, during] at h
    repeat' split at h
    all_goals exact h

theorem stopAsked_run {events : List Event} (h : (x.run s events).stopAsked = true) :
    x.stopAsked = true ∨ Event.askStop ∈ events := by
  induction events using List.reverseRecOn with
  | nil => exact Or.inl h
  | append_singleton events e ih =>
    rw [run_concat] at h
    rcases stopAsked_step h with h | rfl
    · exact (ih h).imp_right (List.mem_append_left _)
    · exact Or.inr (List.mem_append_right _ List.mem_cons_self)

/-! ### The queue -/

/-- **What an event does to the queue.**  A request is offered to it, and when the round ends with the
node's block it is settled; nothing else changes it. -/
theorem queue_step (s : Suite) (x : Scene) (e : Event) :
    (x.step s e).node.queue = e.request?.toList.foldl (Queue.offer s) x.node.queue ∨
      ∃ now r b, e = .proceed now ∧ x.stage = .running r ∧ r.phase = .settling b := by
  cases e with
  | request c => exact Or.inl rfl
  | proceed now =>
    cases hstage : x.stage with
    | running r =>
      rcases r.settling_or_proceed s now x.node x.chain with ⟨b, hphase⟩ | hnode
      · exact Or.inr ⟨now, r, b, rfl, rfl, hphase⟩
      · left
        simp only [step, during, hstage, hnode]
        rfl
    | _ =>
      left
      simp only [step, during, hstage]
      rfl
  | _ =>
    left
    simp only [step, during]
    repeat' split
    all_goals rfl

/-- **Until the round has produced, the queue only takes in requests.** -/
theorem queue_run (events : List Event)
    (h : ∀ a, (x.run s events).outcome? ≠ some (.produced a)) :
    (x.run s events).node.queue =
      (Event.requests events).foldl (Queue.offer s) x.node.queue := by
  simp only [ne_eq, outcome?_eq_some_iff] at h
  induction events using List.reverseRecOn with
  | nil => rfl
  | append_singleton events e ih =>
    rw [run_concat] at h ⊢
    have hbefore : ∀ a, (x.run s events).stage ≠ .ended (.produced a) :=
      fun a ha => h a (stage_step_of_ended ha e)
    rcases queue_step s (x.run s events) e with hqueue | ⟨now, r, b, rfl, hstage, hphase⟩
    · rw [hqueue, ih hbefore, Event.requests_concat, List.foldl_append]
    · exact absurd (by rw [step_proceed_settling hstage hphase]) (h b.appended)

end Scene

end DelayLedger
