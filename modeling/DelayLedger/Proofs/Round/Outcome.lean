import DelayLedger.Proofs.Round.Scene

/-!
# What the end of a round says

Whatever comes between the steps of a round, the outcome with which it ends is true: of the blocks that
the node put on the chain, of the block that superseded its tip, and of having been asked to stop.

* `Grounded`: what every event keeps, whatever the node does in its round.
* `Stage.Holds`: what is true while the round is at a stage, and what its outcome says once it ended.
* `Coherent.step`, `Coherent.run`: one event keeps both, and so do all of them.
* `history_run`: the blocks stay a history as long as hashes tell them apart.
* `outcome_truthful`: what can be read from an outcome.
-/

namespace DelayLedger

structure Block.MadeOn (b tip : Block) : Prop where
  previousHash_eq : b.previousHash = some tip.hash
  height_eq : b.height = tip.height + 1

theorem Round.madeOn_forgeOn (s : Suite) (now : UInt64) (p : Participant) (tip : Block)
    (proof : DelayProof) : (forgeOn s now p tip proof).MadeOn tip := ⟨rfl, rfl⟩

namespace Scene

/-! ### What a stage says -/

/-- The node has put one block on the chain, a child of the tip. -/
structure Produced (x : Scene) (tip b : Block) : Prop where
  own_eq : x.own = [b]
  previousHash_eq : b.previousHash = some tip.hash
  height_eq : b.height.toNat = tip.height.toNat + 1
  above : ∃ earlier below, below.hash = tip.hash ∧ earlier ++ [below, b] <+: x.chain.blocks

/-- From one moment to a later one the node neither reads a tip, nor calls its computation off, nor puts
a block on the chain. -/
structure Aside (x y : Scene) : Prop where
  tipRead_eq : y.tipRead = x.tipRead
  aborted_eq : y.aborted = x.aborted
  own_eq : y.own = x.own
  policy_eq : y.chain.policy = x.chain.policy
  blocks_prefix : x.chain.blocks <+: y.chain.blocks
  stopAsked : x.stopAsked = true → y.stopAsked = true

end Scene

/-- What is true while the round on a tip is in a phase. -/
def Phase.Holds (s : Suite) (x : Scene) (tip : Block) : Phase → Prop
  | .appending b call =>
    x.own = [] ∧ b.MadeOn tip ∧ call.succeeded = false ∧ ∃ now, call.UnderWay s now x.chain b
  | .settling b => x.Produced tip b
  | _ => x.own = []

def RoundOutcome.IsTrue (x : Scene) : RoundOutcome → Prop
  | .produced a => ∃ tip ∈ x.chain.blocks, ∃ b, x.tipRead = some tip ∧ x.Produced tip b ∧ a = b.appended
  | .observed height | .interrupted height =>
    x.own = [] ∧ ∃ tip, x.tipRead = some tip ∧ tip.height < height ∧
      ∃ b ∈ x.chain.blocks, b.height = height
  | .rejected _ => x.own = []
  | .stopped => x.own = [] ∧ x.stopAsked = true
  | .failed _ => False

def Stage.Holds (s : Suite) (x : Scene) : Stage → Prop
  | .idle => x.own = [] ∧ x.aborted = false
  | .joined _ => x.own = [] ∧ x.aborted = false
  | .running r =>
    x.tipRead = some r.tip ∧ r.tip ∈ x.chain.blocks ∧ x.aborted = false ∧ r.phase.Holds s x r.tip
  | .leaving height => (RoundOutcome.interrupted height).IsTrue x
  | .ended outcome => outcome.IsTrue x

namespace Scene

variable {s : Suite} {p : Participant} {c : Chain} {x y : Scene} {r : Round} {tip b : Block}

theorem Produced.aside (h : x.Produced tip b) (hxy : x.Aside y) : y.Produced tip b where
  own_eq := hxy.own_eq.trans h.own_eq
  previousHash_eq := h.previousHash_eq
  height_eq := h.height_eq
  above :=
    have ⟨earlier, below, hhash, habove⟩ := h.above
    ⟨earlier, below, hhash, habove.trans hxy.blocks_prefix⟩

theorem phase_holds_aside {phase : Phase} (h : phase.Holds s x tip) (hxy : x.Aside y) :
    phase.Holds s y tip := by
  cases phase with
  | appending b call =>
    obtain ⟨hown, hmade, hcall, now, hunder⟩ := h
    exact ⟨hxy.own_eq.trans hown, hmade, hcall, now, hunder.mono hxy.policy_eq hxy.blocks_prefix⟩
  | settling b => exact Produced.aside h hxy
  | computing => exact hxy.own_eq.trans h
  | pacing proof => exact hxy.own_eq.trans h
  | waiting => exact hxy.own_eq.trans h

theorem isTrue_aside {outcome : RoundOutcome} (h : outcome.IsTrue x) (hxy : x.Aside y) :
    outcome.IsTrue y := by
  have hsuperseded {height : UInt64} (h : (RoundOutcome.observed height).IsTrue x) :
      (RoundOutcome.observed height).IsTrue y := by
    obtain ⟨hown, tip, hread, hlt, b, hb, hheight⟩ := h
    exact ⟨hxy.own_eq.trans hown, tip, hxy.tipRead_eq.trans hread, hlt, b,
      hxy.blocks_prefix.subset hb, hheight⟩
  cases outcome with
  | produced a =>
    obtain ⟨tip, htip, b, hread, hproduced, ha⟩ := h
    exact ⟨tip, hxy.blocks_prefix.subset htip, b, hxy.tipRead_eq.trans hread, hproduced.aside hxy, ha⟩
  | observed height => exact hsuperseded h
  | interrupted height => exact hsuperseded h
  | rejected e => exact hxy.own_eq.trans h
  | stopped => exact ⟨hxy.own_eq.trans h.1, hxy.stopAsked h.2⟩
  | failed cause => exact h

/-- **What is true at a stage stays true** as long as the node itself does nothing. -/
theorem holds_aside {stage : Stage} (h : stage.Holds s x) (hxy : x.Aside y) : stage.Holds s y := by
  cases stage with
  | idle => exact ⟨hxy.own_eq.trans h.1, hxy.aborted_eq.trans h.2⟩
  | joined cursor => exact ⟨hxy.own_eq.trans h.1, hxy.aborted_eq.trans h.2⟩
  | running r =>
    obtain ⟨hread, htip, haborted, hphase⟩ := h
    exact ⟨hxy.tipRead_eq.trans hread, hxy.blocks_prefix.subset htip,
      hxy.aborted_eq.trans haborted, phase_holds_aside hphase hxy⟩
  | leaving height =>
    have htrue : (RoundOutcome.interrupted height).IsTrue x := h
    exact isTrue_aside htrue hxy
  | ended outcome => exact isTrue_aside h hxy

/-! ### What every event keeps -/

/-- What holds of a scene that began with the node `p` and the chain `c`, at every stage. -/
structure Grounded (s : Suite) (p : Participant) (c : Chain) (x : Scene) : Prop where
  policy_eq : x.chain.policy = c.policy
  node_eq : x.node = { p with queue := x.node.queue }
  blocks_eq : x.chain.blocks = c.blocks ++ x.landed.map Prod.snd
  difficulty_ne_zero : ∀ b ∈ x.chain.blocks, b.difficulty ≠ 0
  broadcasts : x.chain.Broadcasts
  unpublished_subset : ∀ b ∈ x.unpublished, b ∈ x.chain.blocks
  underWay : ∀ call ∈ x.calls, ∃ now candidate, call.UnderWay s now x.chain candidate

/-- A round whose stage is what it should be. -/
structure Coherent (s : Suite) (p : Participant) (c : Chain) (x : Scene) : Prop
    extends Grounded s p c x where
  holds : x.stage.Holds s x

theorem grounded_before (hc : c.Reachable s) (p : Participant) {late : List Block}
    (hlate : ∀ b ∈ late, b ∈ c.blocks) : Grounded s p c (before p c late) where
  policy_eq := rfl
  node_eq := rfl
  blocks_eq := (List.append_nil _).symm
  difficulty_ne_zero _ hb := hc.history.difficulty_ne_zero hb
  broadcasts := hc.broadcasts
  unpublished_subset := hlate
  underWay := List.forall_mem_nil _

theorem coherent_before (hc : c.Reachable s) (p : Participant) {late : List Block}
    (hlate : ∀ b ∈ late, b ∈ c.blocks) : Coherent s p c (before p c late) where
  toGrounded := grounded_before hc p hlate
  holds := ⟨rfl, rfl⟩

theorem Grounded.atStage (h : Grounded s p c x) (stage : Stage) (tipRead : Option Block)
    (aborted : Bool) :
    Grounded s p c { x with stage := stage, tipRead := tipRead, aborted := aborted } where
  policy_eq := h.policy_eq
  node_eq := h.node_eq
  blocks_eq := h.blocks_eq
  difficulty_ne_zero := h.difficulty_ne_zero
  broadcasts := h.broadcasts
  unpublished_subset := h.unpublished_subset
  underWay := h.underWay

theorem Grounded.withQueue (h : Grounded s p c x) (q : Queue) :
    Grounded s p c { x with node := { x.node with queue := q } } where
  policy_eq := h.policy_eq
  node_eq := by rw [h.node_eq]
  blocks_eq := h.blocks_eq
  difficulty_ne_zero := h.difficulty_ne_zero
  broadcasts := h.broadcasts
  unpublished_subset := h.unpublished_subset
  underWay := h.underWay

theorem Grounded.withCalls (h : Grounded s p c x) {calls : List AppendCall}
    (hcalls : ∀ call ∈ calls, ∃ now candidate, call.UnderWay s now x.chain candidate) :
    Grounded s p c { x with calls := calls } where
  policy_eq := h.policy_eq
  node_eq := h.node_eq
  blocks_eq := h.blocks_eq
  difficulty_ne_zero := h.difficulty_ne_zero
  broadcasts := h.broadcasts
  unpublished_subset := h.unpublished_subset
  underWay := hcalls

theorem prefix_push (x : Scene) (author : Author) (b : Block) :
    x.chain.blocks <+: (x.push author b).chain.blocks := ⟨[b], (blocks_push x author b).symm⟩

theorem Grounded.push (h : Grounded s p c x) (author : Author) {snapshot : Block} {now : UInt64}
    (hmem : snapshot ∈ x.chain.blocks)
    (hok : validate s x.chain.policy now snapshot b = .ok ()) :
    Grounded s p c (x.push author b) where
  policy_eq := h.policy_eq
  node_eq := h.node_eq
  blocks_eq := by
    rw [blocks_push, h.blocks_eq, List.append_assoc]
    simp [Scene.push]
  difficulty_ne_zero d hd := by
    rw [blocks_push, List.mem_append, List.mem_singleton] at hd
    rcases hd with hd | rfl
    · exact h.difficulty_ne_zero d hd
    · rw [(follows_of_validate hok).difficulty_eq]
      exact Policy.next_ne_zero (h.difficulty_ne_zero snapshot hmem)
  broadcasts :=
    ⟨h.broadcasts.open_feed,
      fun d hd => (prefix_push x author b).subset (h.broadcasts.recent_subset d hd)⟩
  unpublished_subset d hd := by
    rw [blocks_push, List.mem_append]
    exact (List.mem_append.mp hd).imp_left (h.unpublished_subset d)
  underWay call hcall :=
    have ⟨now, candidate, hunder⟩ := h.underWay call hcall
    ⟨now, candidate, hunder.mono rfl (prefix_push x author b)⟩

/-! ### What others do -/

theorem aside_of_unchanged (hread : y.tipRead = x.tipRead) (haborted : y.aborted = x.aborted)
    (hlanded : y.landed = x.landed) (hpolicy : y.chain.policy = x.chain.policy)
    (hblocks : y.chain.blocks = x.chain.blocks) (hstop : x.stopAsked = true → y.stopAsked = true) :
    x.Aside y :=
  ⟨hread, haborted, by rw [own, own, hlanded], hpolicy, hblocks ▸ List.prefix_refl _, hstop⟩

theorem aside_push_other (x : Scene) (b : Block) (calls : List AppendCall) :
    x.Aside { x.push .other b with calls := calls } :=
  ⟨rfl, rfl, own_push_other x b, rfl, prefix_push x .other b, id⟩

/-- **A step of somebody else's call** leaves the chain as it is, or it puts on it a block that was
accepted after one with the hash of the tip. -/
theorem Grounded.advance_cases (h : Grounded s p c x) (i : Nat) (now : UInt64) :
    (∃ calls, x.step s (.advance i now) = { x with calls := calls } ∧
      ∀ call ∈ calls, ∃ now candidate, call.UnderWay s now x.chain candidate) ∨
    ∃ b calls, ∃ snapshot ∈ x.chain.blocks, ∃ now', x.chain.tip.hash = snapshot.hash ∧
      validate s x.chain.policy now' snapshot b = .ok () ∧
      x.step s (.advance i now) = { x.push .other b with calls := calls } ∧
      ∀ call ∈ calls, ∃ now candidate, call.UnderWay s now (x.push .other b).chain candidate := by
  cases hcall : x.calls[i]? with
  | none => exact Or.inl ⟨x.calls, step_advance_none now hcall, h.underWay⟩
  | some call =>
    obtain ⟨began, candidate, hunder⟩ := h.underWay call (List.mem_of_getElem? hcall)
    rcases hunder.step_cases now with
      ⟨next, hnext, -, later, hlater⟩ | ⟨snapshot, hmem, htip, hok, hnext⟩
    · refine Or.inl ⟨_, step_advance hcall hnext, fun d hd => ?_⟩
      rcases List.mem_or_eq_of_mem_set hd with hd | rfl
      · exact h.underWay d hd
      · exact ⟨later, candidate, hlater⟩
    · refine Or.inr ⟨candidate, _, snapshot, hmem, began, htip, hok, step_advance_landed hcall hnext,
        fun d hd => ?_⟩
      rcases List.mem_or_eq_of_mem_set hd with hd | rfl
      · exact (h.push .other hmem hok).underWay d hd
      · exact ⟨began, candidate, .appended⟩

theorem Grounded.step_publish (h : Grounded s p c x) (i : Nat) :
    Grounded s p c (x.step s (.publish i)) ∧ x.Aside (x.step s (.publish i)) := by
  cases hb : x.unpublished[i]? with
  | none =>
    rw [step_publish_none hb]
    exact ⟨h, aside_of_unchanged rfl rfl rfl rfl rfl id⟩
  | some b =>
    rw [Scene.step_publish hb]
    refine ⟨?_, aside_of_unchanged rfl rfl rfl rfl rfl id⟩
    exact {
      policy_eq := h.policy_eq
      node_eq := h.node_eq
      blocks_eq := h.blocks_eq
      difficulty_ne_zero := h.difficulty_ne_zero
      broadcasts := ⟨h.broadcasts.open_feed, fun d hd => by
        rcases Feed.mem_recent_publish hd with rfl | hd
        · exact h.unpublished_subset d (List.mem_of_getElem? hb)
        · exact h.broadcasts.recent_subset d hd⟩
      unpublished_subset := fun d hd => h.unpublished_subset d (List.mem_of_mem_eraseIdx hd)
      underWay := fun call hcall =>
        have ⟨now, candidate, hunder⟩ := h.underWay call hcall
        ⟨now, candidate, hunder.mono rfl (List.prefix_refl _)⟩ }

/-! ### What the node does -/

theorem Coherent.holds_at (h : Coherent s p c x) {stage : Stage} (hstage : x.stage = stage) :
    stage.Holds s x := hstage ▸ h.holds

theorem Coherent.atStage (h : Coherent s p c x) {stage : Stage}
    (hholds : stage.Holds s { x with stage := stage }) :
    Coherent s p c { x with stage := stage } :=
  ⟨h.toGrounded.atStage stage x.tipRead x.aborted, hholds⟩

theorem aside_atStage (x : Scene) (stage : Stage) : x.Aside { x with stage := stage } :=
  aside_of_unchanged rfl rfl rfl rfl rfl id

theorem own_eq_nil_of_listens (h : r.phase.Holds s x tip) (hlistens : r.listens = true) :
    x.own = [] := by
  rw [Round.listens] at hlistens
  cases hphase : r.phase with
  | appending b call =>
    rw [hphase] at hlistens
    contradiction
  | settling b =>
    rw [hphase] at hlistens
    contradiction
  | _ =>
    rw [hphase] at h
    exact h

theorem isTrue_superseded {height : UInt64} (h : (RoundOutcome.observed height).IsTrue x) :
    (r.superseded height).IsTrue x := by
  rw [Round.superseded]
  split
  · exact h
  · exact h

theorem Coherent.step_join (h : Coherent s p c x) : Coherent s p c (x.step s .join) := by
  rw [step]
  split
  · next hstage =>
    obtain ⟨hown, haborted⟩ := h.holds_at hstage
    refine h.atStage ?_
    by_cases hstop : x.stopAsked = true
    · rw [if_pos hstop]
      exact ⟨hown, hstop⟩
    · rw [if_neg hstop]
      exact ⟨hown, haborted⟩
  · exact h

theorem Coherent.step_readTip (h : Coherent s p c x) : Coherent s p c (x.step s .readTip) := by
  rw [step]
  split
  · next cursor hstage =>
    obtain ⟨hown, haborted⟩ := h.holds_at hstage
    refine ⟨h.toGrounded.atStage _ _ x.aborted, rfl, AppendCall.mem_blocks_tip x.chain, haborted, ?_⟩
    rw [Round.readTip]
    dsimp only
    split
    · exact hown
    · exact hown
  · exact h

theorem Coherent.step_hear (h : Coherent s p c x) : Coherent s p c (x.step s .hear) := by
  by_cases hlistening : ∃ r, x.stage = .running r ∧ r.listens = true
  · obtain ⟨r, hstage, hlistens⟩ := hlistening
    obtain ⟨hread, htip, haborted, hphase⟩ := h.holds_at hstage
    have hown := own_eq_nil_of_listens hphase hlistens
    rcases step_hear_cases (s := s) h.broadcasts hstage hlistens with
      ⟨cursor, hstep⟩ | ⟨b, hb, hlt, hstep | hstep⟩
    · rw [hstep]
      exact h.atStage ⟨hread, htip, haborted, phase_holds_aside hphase (aside_atStage x _)⟩
    · rw [hstep]
      exact ⟨h.toGrounded.atStage _ _ _, hown, r.tip, hread, hlt, b, hb, rfl⟩
    · rw [hstep]
      exact h.atStage (isTrue_superseded ⟨hown, r.tip, hread, hlt, b, hb, rfl⟩)
  · rw [step_hear_self]
    · exact h
    · exact fun r hstage => Bool.eq_false_iff.mpr fun hlistens => hlistening ⟨r, hstage, hlistens⟩

/-- A computation that ended early, without the node leaving, was stopped. -/
theorem Coherent.step_finishDelay (h : Coherent s p c x) (abort : Nat → Bool) :
    Coherent s p c (x.step s (.finishDelay abort)) := by
  rw [step]
  split
  · next r hstage =>
    obtain ⟨hread, htip, haborted, hphase⟩ := h.holds_at hstage
    by_cases hcomputing : r.phase = .computing
    · rw [hcomputing] at hphase
      rcases Round.finishDelay_cases (s := s) (fun n => (x.stopAsked || x.aborted) && abort n)
        (h.difficulty_ne_zero r.tip htip) hcomputing with ⟨proof, hfinish⟩ | ⟨hfinish, n, hup⟩
      · rw [hfinish]
        exact h.atStage ⟨hread, htip, haborted, hphase⟩
      · rw [haborted, Bool.or_false] at hup
        rw [hfinish]
        exact h.atStage ⟨hphase, (Bool.and_eq_true_iff.mp hup).1⟩
    · rw [Round.finishDelay_of_ne hcomputing]
      exact h.atStage ⟨hread, htip, haborted, phase_holds_aside hphase (aside_atStage x _)⟩
  · next height hstage =>
    have htrue : (RoundOutcome.interrupted height).IsTrue x := h.holds_at hstage
    exact h.atStage (isTrue_aside htrue (aside_atStage x _))
  · exact h

theorem Coherent.step_heedStop (h : Coherent s p c x) : Coherent s p c (x.step s .heedStop) := by
  rw [step, during]
  split
  · next r hstage =>
    obtain ⟨hread, htip, haborted, hphase⟩ := h.holds_at hstage
    split
    · next hstop =>
      cases hlistens : r.listens with
      | true =>
        have hown := own_eq_nil_of_listens hphase hlistens
        rw [Round.stop_of_listens hlistens]
        exact h.atStage ⟨hown, hstop⟩
      | false =>
        rw [Round.stop_of_not_listens hlistens]
        exact h.atStage ⟨hread, htip, haborted, phase_holds_aside hphase (aside_atStage x _)⟩
    · exact h
  · exact h

/-- **A step of the node's own call.**  The call goes on, the block is rejected, or it lands on a chain
whose tip has the hash of a block that it was accepted after. -/
theorem Coherent.append_cases (h : Coherent s p c x) (hstage : x.stage = .running r)
    {call : AppendCall} (hphase : r.phase = .appending b call) (now : UInt64) :
    (∃ next now', next.succeeded = false ∧ next.UnderWay s now' x.chain b ∧
      x.step s (.proceed now) =
        { x with stage := .running { r with phase := .appending b next } }) ∨
    (∃ e, x.step s (.proceed now) = { x with stage := .ended (.rejected e) }) ∨
    ∃ snapshot ∈ x.chain.blocks, ∃ now', x.chain.tip.hash = snapshot.hash ∧
      validate s x.chain.policy now' snapshot b = .ok () ∧
      x.step s (.proceed now) =
        { x.push .node b with stage := .running { r with phase := .settling b } } := by
  obtain ⟨-, -, -, hholds⟩ := h.holds_at hstage
  rw [hphase] at hholds
  obtain ⟨-, -, hcall, began, hunder⟩ := hholds
  rcases hunder.step_cases now with
    ⟨next, hnext, hsame, later, hlater⟩ | ⟨snapshot, hmem, htip, hok, hnext⟩
  · rw [hcall] at hsame
    cases next with
    | finished result =>
      cases result with
      | error e => exact Or.inr (Or.inl ⟨e, step_proceed_rejected hstage hphase hnext⟩)
      | ok a => contradiction
    | _ =>
      exact Or.inl ⟨_, later, rfl, hlater, step_proceed_going hstage hphase hnext rfl⟩
  · exact Or.inr (Or.inr ⟨snapshot, hmem, began, htip, hok, step_proceed_landed hstage hphase hnext⟩)

theorem produced_of_landed {snapshot : Block} {now : UInt64} (hown : x.own = [])
    (hmade : b.MadeOn tip) (hhash : x.chain.tip.hash = snapshot.hash)
    (hok : validate s x.chain.policy now snapshot b = .ok ()) : (x.push .node b).Produced tip b := by
  have hfollows := follows_of_validate hok
  have hsame : snapshot.hash = tip.hash := by
    have hprevious := hfollows.previousHash_eq
    rw [hmade.previousHash_eq] at hprevious
    exact (Option.some.inj hprevious).symm
  refine ⟨?_, hmade.previousHash_eq, ?_, x.chain.earlier.reverse, x.chain.tip, hhash.trans hsame, ?_⟩
  · rw [own_push_node, hown, List.nil_append]
  · -- the height is one above a height, so it did not wrap around
    have hsucc := hfollows.height_eq
    have htip := tip.height.toNat_lt
    have hone : (1 : UInt64).toNat = 1 := rfl
    rw [hmade.height_eq, UInt64.toNat_add] at hsucc ⊢
    omega
  · rw [blocks_push, Chain.blocks, List.reverse_cons, List.append_assoc]
    exact List.prefix_refl _

theorem Coherent.step_proceed (h : Coherent s p c x) (now : UInt64) :
    Coherent s p c (x.step s (.proceed now)) := by
  cases hstage : x.stage with
  | running r =>
    obtain ⟨hread, htip, haborted, hholds⟩ := h.holds_at hstage
    cases hphase : r.phase with
    | computing =>
      rw [step_proceed_idle hstage (Or.inl hphase)]
      exact h
    | waiting =>
      rw [step_proceed_idle hstage (Or.inr hphase)]
      exact h
    | pacing proof =>
      rw [hphase] at hholds
      rw [step_proceed_pacing hstage hphase]
      have hmade := Round.madeOn_forgeOn s now x.node r.tip proof
      exact h.atStage ⟨hread, htip, haborted, hholds, hmade, rfl, now, .reading⟩
    | appending b call =>
      rw [hphase] at hholds
      obtain ⟨hown, hmade, -, -⟩ := hholds
      rcases h.append_cases hstage hphase now with
        ⟨next, later, hnext, hunder, hstep⟩ | ⟨e, hstep⟩ | ⟨snapshot, hmem, later, hhash, hok, hstep⟩
      · rw [hstep]
        exact h.atStage ⟨hread, htip, haborted, hown, hmade, hnext, later, hunder⟩
      · rw [hstep]
        exact h.atStage hown
      · rw [hstep]
        refine ⟨(h.toGrounded.push .node hmem hok).atStage _ _ x.aborted, hread,
          (prefix_push x .node b).subset htip, haborted, ?_⟩
        exact (produced_of_landed hown hmade hhash hok).aside (aside_atStage _ _)
    | settling b =>
      rw [hphase] at hholds
      rw [step_proceed_settling hstage hphase]
      have hgrounded := h.toGrounded.atStage (.ended (.produced b.appended)) x.tipRead x.aborted
      refine ⟨hgrounded.withQueue (x.node.queue.settle b.changes b.height), r.tip, htip, b, hread, ?_,
        rfl⟩
      exact Produced.aside hholds (aside_of_unchanged rfl rfl rfl rfl rfl id)
  | _ =>
    simp only [step, during, hstage]
    exact h

/-! ### Whole runs -/

/-- **Every event keeps a scene coherent.** -/
theorem Coherent.step (h : Coherent s p c x) (e : Event) : Coherent s p c (x.step s e) := by
  cases e with
  | join => exact h.step_join
  | readTip => exact h.step_readTip
  | hear => exact h.step_hear
  | finishDelay abort => exact h.step_finishDelay abort
  | proceed now => exact h.step_proceed now
  | heedStop => exact h.step_heedStop
  | call candidate =>
    refine ⟨h.toGrounded.withCalls fun call hcall => ?_,
      holds_aside h.holds (aside_of_unchanged rfl rfl rfl rfl rfl id)⟩
    rcases List.mem_append.mp hcall with hcall | hcall
    · exact h.underWay call hcall
    · rw [List.mem_singleton.mp hcall]
      exact ⟨0, candidate, .reading⟩
  | advance i now =>
    rcases h.toGrounded.advance_cases i now with
      ⟨calls, hstep, hcalls⟩ | ⟨b, calls, snapshot, hmem, later, -, hok, hstep, hcalls⟩
    · rw [hstep]
      exact ⟨h.toGrounded.withCalls hcalls,
        holds_aside h.holds (aside_of_unchanged rfl rfl rfl rfl rfl id)⟩
    · rw [hstep]
      exact ⟨(h.toGrounded.push .other hmem hok).withCalls hcalls,
        holds_aside h.holds (aside_push_other x b calls)⟩
  | publish i =>
    obtain ⟨hgrounded, haside⟩ := h.toGrounded.step_publish i
    have hstage : (x.step s (.publish i)).stage = x.stage := by
      rw [Scene.step]
      split <;> rfl
    exact ⟨hgrounded, hstage ▸ holds_aside h.holds haside⟩
  | request change =>
    exact ⟨h.toGrounded.withQueue _, holds_aside h.holds (aside_of_unchanged rfl rfl rfl rfl rfl id)⟩
  | askStop =>
    have hgrounded : Grounded s p c { x with stopAsked := true } := { h.toGrounded with }
    exact ⟨hgrounded, holds_aside h.holds (aside_of_unchanged rfl rfl rfl rfl rfl fun _ => rfl)⟩

theorem Coherent.run (h : Coherent s p c x) (events : List Event) :
    Coherent s p c (x.run s events) := by
  induction events generalizing x with
  | nil => exact h
  | cons e events ih => exact ih (h.step e)

/-- **The blocks grow one at a time**, by a block that was accepted after one with the hash of the
tip. -/
theorem Coherent.blocks_step (h : Coherent s p c x) (e : Event) :
    (x.step s e).chain.blocks = x.chain.blocks ∨
      ∃ b, ∃ snapshot ∈ x.chain.blocks, ∃ now, x.chain.tip.hash = snapshot.hash ∧
        validate s x.chain.policy now snapshot b = .ok () ∧
        (x.step s e).chain.blocks = x.chain.blocks ++ [b] := by
  cases e with
  | proceed now =>
    cases hstage : x.stage with
    | running r =>
      cases hphase : r.phase with
      | computing => exact Or.inl (by rw [step_proceed_idle hstage (Or.inl hphase)])
      | waiting => exact Or.inl (by rw [step_proceed_idle hstage (Or.inr hphase)])
      | pacing proof => exact Or.inl (by rw [step_proceed_pacing hstage hphase])
      | settling b => exact Or.inl (by rw [step_proceed_settling hstage hphase])
      | appending b call =>
        rcases h.append_cases hstage hphase now with
          ⟨next, -, -, -, hstep⟩ | ⟨e, hstep⟩ | ⟨snapshot, hmem, later, hhash, hok, hstep⟩
        · exact Or.inl (by rw [hstep])
        · exact Or.inl (by rw [hstep])
        · exact Or.inr ⟨b, snapshot, hmem, later, hhash, hok, by rw [hstep, ← blocks_push x .node b]⟩
    | _ => exact Or.inl (by simp only [Scene.step, during, hstage])
  | advance i now =>
    rcases h.toGrounded.advance_cases i now with
      ⟨calls, hstep, -⟩ | ⟨b, calls, snapshot, hmem, later, hhash, hok, hstep, -⟩
    · exact Or.inl (by rw [hstep])
    · exact Or.inr ⟨b, snapshot, hmem, later, hhash, hok, by rw [hstep, ← blocks_push x .other b]⟩
  | _ =>
    left
    simp only [Scene.step, during]
    repeat' split
    all_goals rfl

theorem Coherent.blocks_prefix_step (h : Coherent s p c x) (e : Event) :
    x.chain.blocks <+: (x.step s e).chain.blocks := by
  rcases h.blocks_step e with hsame | ⟨b, -, -, -, -, -, hgrown⟩
  · rw [hsame]
  · exact ⟨[b], hgrown.symm⟩

/-- **The blocks of a run are a history** if no two of them have one hash. -/
theorem history_run (hc : c.Reachable s) (p : Participant) {late : List Block}
    (hlate : ∀ b ∈ late, b ∈ c.blocks) (events : List Event)
    (hfree : CollisionFree s (· ∈ ((before p c late).run s events).chain.blocks)) :
    History s c.policy ((before p c late).run s events).chain.blocks := by
  induction events using List.reverseRecOn with
  | nil => exact hc.history
  | append_singleton events e ih =>
    have h := (coherent_before hc p hlate).run events
    rw [run_concat] at hfree ⊢
    have hgrows := h.blocks_prefix_step e
    have hbefore := ih (hfree.mono fun b hb => hgrows.subset hb)
    rcases h.blocks_step e with hsame | ⟨b, snapshot, hmem, now, hhash, hok, hgrown⟩
    · rw [hsame]
      exact hbefore
    · have htip : ((before p c late).run s events).chain.tip = snapshot :=
        hbefore.eq_of_hash_eq (hfree.mono fun b hb => hgrows.subset hb)
          (AppendCall.mem_blocks_tip _) hmem hhash
      rw [hgrown]
      rw [← htip, h.policy_eq] at hok
      exact hbefore.snoc (Chain.getLast?_blocks _) hok

/-- **The end of a round tells the truth**, whatever came between its steps.

* With the node's block produced, that block and no other is the node's, and it is a child of the tip
  that the round read.
* With another block observed, or the round interrupted by one, the node has put nothing on the chain,
  and a block of that height, higher than the tip that was read, is there.
* With the node's block rejected, nothing of it is on the chain, nor with the round stopped, and then
  the node was asked to stop.
* Rounds do not fail, and one that has not produced leaves the queue to those who make requests.

What follows from heights and parents needs hashes that tell the blocks apart, since that is what
appending goes by. -/
theorem outcome_truthful (hc : c.Reachable s) (p : Participant) {late : List Block}
    (hlate : ∀ b ∈ late, b ∈ c.blocks) (events : List Event) :
    let x := (before p c late).run s events
    x.chain.blocks = c.blocks ++ x.landed.map Prod.snd ∧
    (∀ a, x.outcome? = some (.produced a) →
      ∃ tip ∈ x.chain.blocks, ∃ b, x.tipRead = some tip ∧ x.own = [b] ∧ a = b.appended ∧
        a.height.toNat = tip.height.toNat + 1 ∧ b.previousHash = some tip.hash ∧
        ∃ earlier below, earlier ++ [below, b] <+: x.chain.blocks ∧ below.hash = tip.hash ∧
          (CollisionFree s (· ∈ x.chain.blocks) → below = tip)) ∧
    (∀ height, x.outcome? = some (.observed height) ∨ x.outcome? = some (.interrupted height) →
      x.own = [] ∧
        ∃ tip, x.tipRead = some tip ∧ tip.height < height ∧
          (∃ b ∈ x.chain.blocks, b.height = height) ∧
          (CollisionFree s (· ∈ x.chain.blocks) → height ≤ x.chain.tip.height)) ∧
    (∀ e, x.outcome? = some (.rejected e) → x.own = []) ∧
    (x.outcome? = some .stopped → x.own = [] ∧ Event.askStop ∈ events) ∧
    (∀ cause, x.outcome? ≠ some (.failed cause)) ∧
    ((∀ a, x.outcome? ≠ some (.produced a)) →
      x.node.queue = (Event.requests events).foldl (Queue.offer s) p.queue) := by
  intro x
  have h : Coherent s p c x := (coherent_before hc p hlate).run events
  have hholds {outcome : RoundOutcome} (hended : x.outcome? = some outcome) : outcome.IsTrue x :=
    h.holds_at (outcome?_eq_some_iff.mp hended)
  refine ⟨h.blocks_eq, ?_, ?_, fun e hended => hholds hended, ?_, fun cause hended => hholds hended,
    queue_run events⟩
  · intro a hended
    obtain ⟨tip, htip, b, hread, hproduced, rfl⟩ := hholds hended
    obtain ⟨earlier, below, hhash, habove⟩ := hproduced.above
    refine ⟨tip, htip, b, hread, hproduced.own_eq, rfl, hproduced.height_eq,
      hproduced.previousHash_eq, earlier, below, habove, hhash, fun hfree => ?_⟩
    have hbelow : below ∈ x.chain.blocks := habove.subset (by simp)
    exact (history_run hc p hlate events hfree).eq_of_hash_eq hfree hbelow htip hhash
  · intro height hended
    have htrue : (RoundOutcome.observed height).IsTrue x := hended.elim hholds hholds
    obtain ⟨hown, tip, hread, hlt, b, hb, rfl⟩ := htrue
    refine ⟨hown, tip, hread, hlt, ⟨b, hb, rfl⟩, fun hfree => ?_⟩
    have hhistory := history_run hc p hlate events hfree
    rw [← h.policy_eq] at hhistory
    exact UInt64.le_iff_toNat_le.mpr (Chain.height_le_tip_of_history hhistory hb)
  · intro hended
    obtain ⟨hown, hstop⟩ := hholds hended
    exact ⟨hown, (stopAsked_run hstop).resolve_left Bool.false_ne_true⟩

end Scene

namespace Sample

open Suite (small)

/-- The scheduled producer of the round that the first block opens. -/
def worker : Participant := ⟨leaver, .fixed, ⟨0⟩, 1, []⟩

/-- While the node computes its delay, somebody else appends a block.  The node hears of it and calls
its computation off, and only then is it asked to stop. -/
def overtaking : List Event :=
  [.join, .readTip, .call second, .advance 0 100, .advance 0 100,
    .request (Change.signed small joiner .join 0), .advance 0 100, .publish 0, .hear, .askStop,
    .heedStop, .finishDelay fun _ => true]

theorem blocks_run_overtaking :
    ((Scene.before worker founded []).run small overtaking).chain.blocks = chain.blocks := by
  decide +kernel

theorem collisionFree_chain : CollisionFree small (· ∈ chain.blocks) := by
  have hpairs : ∀ a ∈ chain.blocks, ∀ b ∈ chain.blocks,
      a.contentHash small = b.contentHash small → a.preimage = b.preimage := by decide +kernel
  exact fun a b ha hb => hpairs a ha b hb

/-- The node is told of a block that is there, and has put none on the chain itself.  The two blocks
that are there have two hashes, so the height that it is told is no higher than the tip's. -/
theorem outcome_run_overtaking :
    let x := (Scene.before worker founded []).run small overtaking
    Chain.Reachable small founded ∧ x.outcome? = some (.interrupted 1) ∧ x.own = [] ∧
      (∃ b ∈ x.chain.blocks, b.height = 1) ∧
      CollisionFree small (· ∈ x.chain.blocks) ∧ 1 ≤ x.chain.tip.height ∧
      x.node.queue = Queue.offer small [] (Change.signed small joiner .join 0) := by
  have hended : ((Scene.before worker founded []).run small overtaking).outcome? =
      some (.interrupted 1) := by
    decide +kernel
  have hlate := List.forall_mem_nil (· ∈ founded.blocks)
  obtain ⟨-, -, hsuperseded, -, -, -, hqueue⟩ :=
    Scene.outcome_truthful reachable_founded worker hlate overtaking
  obtain ⟨hown, -, -, -, hthere, hlow⟩ := hsuperseded 1 (Or.inr hended)
  have hfree : CollisionFree small
      (· ∈ ((Scene.before worker founded []).run small overtaking).chain.blocks) := by
    rw [blocks_run_overtaking]
    exact collisionFree_chain
  have hquiet := hqueue fun a ha => nomatch hended.symm.trans ha
  have hrequests : Event.requests overtaking = [Change.signed small joiner .join 0] := rfl
  rw [hrequests] at hquiet
  exact ⟨reachable_founded, hended, hown, hthere, hfree, hlow hfree, hquiet⟩

end Sample

end DelayLedger
