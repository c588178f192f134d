import DelayLedger.Proofs.Forge
import DelayLedger.Proofs.Round.Outcome

/-!
# An undisturbed round

A node that is due, being first in the schedule of the tip, makes the next block whenever nobody else's
block lands and nobody stops it.  Whatever requests are in its queue or come in, whatever else happens
around it, the block that it forges is accepted.

* `Participant.Due`: what it takes to be due; `Due.validate_makes`: the block is accepted.
* `Stage.OnCourse`: where an undisturbed round stands, stage by stage.
* `Scene.goesOn_step`: every event keeps it on course, and the steps of the node take it further.
* `Participant.Due.produces`: how an undisturbed round ends, and that it does.
-/

namespace DelayLedger

/-- A node that is to make the next block of a chain, and can: it is first in the schedule of the tip,
signs what verifies, and follows the chain's policy; there is a height to come, sets are of a size that
is allowed, and the delay of the tip has a proof. -/
structure Participant.Due (s : Suite) (p : Participant) (c : Chain) : Prop where
  reachable : c.Reachable s
  genesis_card_le : ∀ genesis, c.blocks[0]? = some genesis → genesis.nodes.toFinset.card ≤ 1000
  height_lt : c.tip.height.toNat < maxWord
  policy_eq : p.policy = c.policy
  rank_eq : (c.tip.schedule s p.committeeSize).rank? p.keys.publicKey = some 0
  signs : ∀ message,
    s.verify p.keys.publicKey message (s.sign p.keys.secretKey message) = .ok ()
  hasGroup : s.HasGroup
  coprime : Nat.Coprime (Delay.groupElement s c.tip.hash.bytes) s.modulus

/-- The block is one that the node makes on the tip, with a proof that verifies, whatever its pending
requests are, when its clock shows one of `readings`. -/
def Participant.Makes (s : Suite) (p : Participant) (c : Chain) (readings : List UInt64) (b : Block) :
    Prop :=
  ∃ began ∈ readings, ∃ proof pending,
    Delay.verify s c.tip.difficulty c.tip.hash.bytes proof = true ∧
      b = forge s p.policy p.keys c.tip proof pending (max began c.tip.timestamp)

structure Block.NextBy (b : Block) (p : Participant) (c : Chain) : Prop where
  producer_eq : b.producer = p.keys.publicKey
  previousHash_eq : b.previousHash = some c.tip.hash
  height_eq : b.height.toNat = c.tip.height.toNat + 1

theorem Schedule.dutyOf_of_rank_eq {x : Schedule} {identity : Bytes} (h : x.rank? identity = some 0) :
    x.dutyOf identity = .producer := by simp only [dutyOf, h]

theorem Block.mem_nodes_of_rank_eq {s : Suite} {b : Block} {committeeSize rank : Nat}
    {identity : Bytes} (h : (b.schedule s committeeSize).rank? identity = some rank) : identity ∈ b.nodes := by
  obtain ⟨hlt, hfound, -⟩ := List.findIdx?_eq_some_iff_getElem.mp h
  have hmem := List.getElem_mem hlt
  rw [beq_iff_eq.mp hfound] at hmem
  exact (Ticket.mem_order s).mp hmem

theorem History.card_nodes_le {s : Suite} {policy : Policy} {blocks : List Block}
    (h : History s policy blocks)
    (hfirst : ∀ genesis, blocks[0]? = some genesis → genesis.nodes.toFinset.card ≤ 1000) {b : Block}
    (hb : b ∈ blocks) : b.nodes.toFinset.card ≤ maxNodes := by
  obtain ⟨i, hi⟩ := List.mem_iff_getElem?.mp hb
  cases i with
  | zero => exact hfirst b hi
  | succ i =>
    obtain ⟨parent, hparent⟩ := exists_parent hi
    exact (List.toFinset_card_le _).trans
      (Membership.length_le_of_next (h.follows hparent hi).next_eq)

namespace Participant.Due

variable {s : Suite} {p : Participant} {c : Chain} {readings : List UInt64} {b : Block}

/-- **The block that is due is accepted**, if the tip is not too far ahead of the clock and the clock
has not been put back too far since it was read. -/
theorem validate_makes (h : p.Due s c) {now : UInt64} (hb : p.Makes s c readings b)
    (htip : c.tip.timestamp.toNat ≤ now.toNat + 30)
    (hsteady : ∀ began ∈ readings, began.toNat ≤ now.toNat + 30) :
    validate s c.policy now c.tip b = .ok () := by
  obtain ⟨began, hbegan, proof, pending, hproof, rfl⟩ := hb
  have hdrift : clockDrift = 30 := rfl
  have hbegan := hsteady began hbegan
  have hearly : ¬ max began c.tip.timestamp < c.tip.timestamp := by
    rw [UInt64.lt_iff_toNat_lt, UInt64.toNat_max]
    omega
  have hlate : ¬ latestTimestamp now < max began c.tip.timestamp := by
    rw [UInt64.not_lt, le_latestTimestamp_iff, UInt64.toNat_max]
    omega
  have hroom : (insert p.keys.publicKey c.tip.nodes.toFinset).card ≤ maxNodes := by
    rw [Finset.insert_eq_of_mem (List.mem_toFinset.mpr (Block.mem_nodes_of_rank_eq h.rank_eq))]
    exact h.reachable.history.card_nodes_le h.genesis_card_le (AppendCall.mem_blocks_tip c)
  have hcard := Membership.card_successors_select_le s pending hroom
  rw [h.policy_eq, validate_forge c.policy now proof pending _ h.height_lt h.signs, hproof,
    if_neg Bool.false_ne_true.symm, if_neg (not_or.mpr ⟨hearly, hlate⟩),
    if_neg (Nat.not_lt.mpr hcard)]

theorem nextBy_of_makes (h : p.Due s c) (hb : p.Makes s c readings b) : b.NextBy p c := by
  obtain ⟨began, -, proof, pending, -, rfl⟩ := hb
  have hcontinues : (forge s p.policy p.keys c.tip proof pending
      (max began c.tip.timestamp)).continues c.tip = true :=
    continues_forge p.policy proof pending _ h.height_lt
  exact ⟨rfl, rfl, (Block.continues_iff.mp hcontinues).2⟩

theorem difficulty_ne_zero (h : p.Due s c) : c.tip.difficulty ≠ 0 :=
  h.reachable.history.difficulty_ne_zero (AppendCall.mem_blocks_tip c)

theorem compute_eq (h : p.Due s c) (abort : Nat → Bool) :
    Delay.compute s c.tip.difficulty c.tip.hash.bytes (fun n => false && abort n) =
      .ok (Delay.honest s c.tip.difficulty c.tip.hash.bytes) := by
  refine Delay.compute_of_not_calledOff h.hasGroup h.difficulty_ne_zero ?_
  rintro ⟨step, -, -, hup | hup⟩
  · exact Bool.false_ne_true hup
  · exact Bool.false_ne_true hup

theorem verify_honest (h : p.Due s c) :
    Delay.verify s c.tip.difficulty c.tip.hash.bytes
      (Delay.honest s c.tip.difficulty c.tip.hash.bytes) = true :=
  Delay.verify_honest h.hasGroup h.difficulty_ne_zero h.coprime

end Participant.Due

/-! ### On course -/

/-- Where a round that is on course stands in a phase, `readings` being what the clock has shown. -/
def Phase.OnCourse (s : Suite) (p : Participant) (c : Chain) (readings : List UInt64)
    (blocks : List Block) : Phase → Prop
  | .computing => blocks = c.blocks
  | .pacing proof =>
    blocks = c.blocks ∧ Delay.verify s c.tip.difficulty c.tip.hash.bytes proof = true
  | .appending b call =>
    blocks = c.blocks ∧ p.Makes s c readings b ∧
      (call = .reading b ∨ call = .checking c.tip b ∨ call = .committing c.tip b)
  | .settling b => blocks = c.blocks ++ [b] ∧ p.Makes s c readings b
  | .waiting => False

def Stage.OnCourse (s : Suite) (p : Participant) (c : Chain) (readings : List UInt64)
    (blocks : List Block) : Stage → Prop
  | .idle => blocks = c.blocks
  | .joined _ => blocks = c.blocks
  | .running r => r.tip = c.tip ∧ r.phase.OnCourse s p c readings blocks
  | .leaving _ => False
  | .ended outcome =>
    ∃ b, outcome = .produced b.appended ∧ blocks = c.blocks ++ [b] ∧ p.Makes s c readings b

@[simp] def Phase.index : Phase → Nat
  | .computing => 2
  | .pacing _ => 3
  | .appending _ (.reading _) => 4
  | .appending _ (.checking ..) => 5
  | .appending _ (.committing ..) => 6
  | .appending _ (.finished _) => 7
  | .settling _ => 7
  | .waiting => 2

/-- How many of its steps a producer has taken, of eight in all. -/
@[simp] def Stage.index : Stage → Nat
  | .idle => 0
  | .joined _ => 1
  | .running r => r.phase.index
  | .leaving _ => 2
  | .ended _ => 8

namespace Event

def reading? : Event → Option UInt64
  | .proceed now => some now
  | _ => none

def readings (events : List Event) : List UInt64 := events.filterMap reading?

theorem readings_concat (events : List Event) (e : Event) :
    readings (events ++ [e]) = readings events ++ e.reading?.toList := by
  rw [readings, List.filterMap_append]
  cases h : e.reading? <;> simp [readings, h]

/-- Whether an event is the step that a producer takes after so many. -/
def takes : Event → Nat → Bool
  | .join, i => i = 0
  | .readTip, i => i = 1
  | .finishDelay _, i => i = 2
  | .proceed _, i => 3 ≤ i ∧ i < 8
  | _, _ => false

end Event

theorem Participant.Makes.mono {s : Suite} {p : Participant} {c : Chain}
    {readings later : List UInt64} {b : Block} (h : p.Makes s c readings b)
    (hsub : readings ⊆ later) : p.Makes s c later b :=
  have ⟨began, hbegan, hb⟩ := h
  ⟨began, hsub hbegan, hb⟩

theorem Phase.OnCourse.mono {s : Suite} {p : Participant} {c : Chain} {readings later : List UInt64}
    {blocks : List Block} {phase : Phase} (h : phase.OnCourse s p c readings blocks)
    (hsub : readings ⊆ later) : phase.OnCourse s p c later blocks := by
  cases phase with
  | appending b call => exact ⟨h.1, h.2.1.mono hsub, h.2.2⟩
  | settling b => exact ⟨h.1, h.2.mono hsub⟩
  | _ => exact h

theorem Stage.OnCourse.mono {s : Suite} {p : Participant} {c : Chain} {readings later : List UInt64}
    {blocks : List Block} {stage : Stage} (h : stage.OnCourse s p c readings blocks)
    (hsub : readings ⊆ later) : stage.OnCourse s p c later blocks := by
  cases stage with
  | running r => exact ⟨h.1, h.2.mono hsub⟩
  | ended outcome =>
    obtain ⟨b, hb, hblocks, hmakes⟩ := h
    exact ⟨b, hb, hblocks, hmakes.mono hsub⟩
  | _ => exact h

theorem Phase.two_le_index (phase : Phase) : 2 ≤ phase.index := by
  cases phase with
  | appending b call => cases call <;> simp
  | _ => simp

theorem Stage.eq_idle_of_index {stage : Stage} (h : stage.index = 0) : stage = .idle := by
  cases stage with
  | idle => rfl
  | running r =>
    have htwo := r.phase.two_le_index
    rw [index] at h
    omega
  | _ => simp at h

theorem Stage.exists_joined_of_index {stage : Stage} (h : stage.index = 1) :
    ∃ cursor, stage = .joined cursor := by
  cases stage with
  | joined cursor => exact ⟨cursor, rfl⟩
  | running r =>
    have htwo := r.phase.two_le_index
    rw [index] at h
    omega
  | _ => simp at h

theorem Phase.eq_computing_of_index {phase : Phase} (h : phase.index = 2) :
    phase = .computing ∨ phase = .waiting := by
  cases phase with
  | computing => exact Or.inl rfl
  | waiting => exact Or.inr rfl
  | appending b call => cases call <;> simp at h
  | _ => simp at h

theorem Stage.running_or_leaving_of_index {stage : Stage} (h : stage.index = 2) :
    (∃ r, stage = .running r) ∨ ∃ height, stage = .leaving height := by
  cases stage with
  | running r => exact Or.inl ⟨r, rfl⟩
  | leaving height => exact Or.inr ⟨height, rfl⟩
  | _ => simp at h

namespace Scene

variable {s : Suite} {p : Participant} {c : Chain} {readings : List UInt64} {x y : Scene} {r : Round}
  {e : Event}

/-- An event keeps a round on course, and a step of the node's takes it further. -/
structure GoesOn (s : Suite) (p : Participant) (c : Chain) (readings : List UInt64) (e : Event)
    (x y : Scene) : Prop where
  onCourse : y.stage.OnCourse s p c readings y.chain.blocks
  index_le : x.stage.index ≤ y.stage.index
  index_lt : e.takes x.stage.index = true → x.stage.index < y.stage.index

theorem goesOn_of_lt (hy : y.stage.OnCourse s p c readings y.chain.blocks)
    (hlt : x.stage.index < y.stage.index) : GoesOn s p c readings e x y := ⟨hy, hlt.le, fun _ => hlt⟩

/-- A round that an event leaves where it is goes on, if it is not the node's turn. -/
theorem goesOn_of_same (hx : x.stage.OnCourse s p c readings x.chain.blocks)
    (hstage : y.stage = x.stage) (hblocks : y.chain.blocks = x.chain.blocks)
    (htakes : e.takes x.stage.index = false) : GoesOn s p c readings e x y where
  onCourse := by
    rw [hstage, hblocks]
    exact hx
  index_le := by rw [hstage]
  index_lt h := absurd (htakes.symm.trans h) Bool.false_ne_true

theorem goesOn_refl (hx : x.stage.OnCourse s p c readings x.chain.blocks)
    (htakes : e.takes x.stage.index = false) : GoesOn s p c readings e x x :=
  goesOn_of_same hx rfl rfl htakes

theorem tip_eq_of_blocks_eq {d : Chain} (h : d.blocks = c.blocks) : d.tip = c.tip := by
  have htip := d.getLast?_blocks
  rw [h, c.getLast?_blocks] at htip
  exact (Option.some.inj htip).symm

theorem goesOn_join (hx : x.stage.OnCourse s p c readings x.chain.blocks)
    (hstop : x.stopAsked = false) : GoesOn s p c readings .join x (x.step s .join) := by
  rw [step]
  split
  · next hstage =>
    rw [hstage] at hx
    rw [hstop]
    exact goesOn_of_lt hx (by simp [hstage])
  · next hstage => exact goesOn_refl hx (decide_eq_false fun h => hstage (Stage.eq_idle_of_index h))

theorem goesOn_readTip (hp : p.Due s c) (h : Grounded s p c x)
    (hx : x.stage.OnCourse s p c readings x.chain.blocks) :
    GoesOn s p c readings .readTip x (x.step s .readTip) := by
  rw [step]
  split
  · next cursor hstage =>
    rw [hstage] at hx
    have htip : x.chain.tip = c.tip := tip_eq_of_blocks_eq hx
    have hduty : (x.chain.tip.schedule s x.node.committeeSize).dutyOf x.node.keys.publicKey =
        .producer := by
      rw [htip, h.node_eq]
      exact Schedule.dutyOf_of_rank_eq hp.rank_eq
    simp only [Round.readTip, hduty]
    exact goesOn_of_lt ⟨htip, hx⟩ (by simp [hstage])
  · next hstage =>
    refine goesOn_refl hx (decide_eq_false fun h => ?_)
    obtain ⟨cursor, hjoined⟩ := Stage.exists_joined_of_index h
    exact hstage cursor hjoined

theorem blocks_eq_of_listens {blocks : List Block} (h : r.phase.OnCourse s p c readings blocks)
    (hlistens : r.listens = true) : blocks = c.blocks := by
  rw [Round.listens] at hlistens
  cases hphase : r.phase with
  | computing =>
    rw [hphase] at h
    exact h
  | pacing proof =>
    rw [hphase] at h
    exact h.1
  | waiting =>
    rw [hphase] at h
    exact h.elim
  | _ =>
    rw [hphase] at hlistens
    contradiction

/-- **Nothing that is heard supersedes the tip**, however late it is published. -/
theorem goesOn_hear (hp : p.Due s c) (h : Grounded s p c x)
    (hx : x.stage.OnCourse s p c readings x.chain.blocks) :
    GoesOn s p c readings .hear x (x.step s .hear) := by
  by_cases hlistening : ∃ r, x.stage = .running r ∧ r.listens = true
  · obtain ⟨r, hstage, hlistens⟩ := hlistening
    rw [hstage] at hx
    obtain ⟨htip, hphase⟩ := hx
    rcases step_hear_cases (s := s) h.broadcasts hstage hlistens with
      ⟨cursor, hstep⟩ | ⟨b, hb, hlt, -⟩
    · have hindex : x.stage.index = r.phase.index := by rw [hstage, Stage.index]
      rw [hstep]
      exact ⟨⟨htip, hphase⟩, hindex.le, fun htakes => absurd htakes Bool.false_ne_true⟩
    · rw [blocks_eq_of_listens hphase hlistens] at hb
      have hle := Chain.height_le_tip_of_history hp.reachable.history hb
      rw [htip, UInt64.lt_iff_toNat_lt] at hlt
      exact absurd hlt (Nat.not_lt.mpr hle)
  · rw [step_hear_self]
    · exact goesOn_refl hx rfl
    · exact fun r hstage => Bool.eq_false_iff.mpr fun hlistens => hlistening ⟨r, hstage, hlistens⟩

/-- **The delay comes to its end**, since nobody calls it off. -/
theorem goesOn_finishDelay (hp : p.Due s c) (h : Coherent s p c x)
    (hx : x.stage.OnCourse s p c readings x.chain.blocks) (hstop : x.stopAsked = false)
    (abort : Nat → Bool) :
    GoesOn s p c readings (.finishDelay abort) x (x.step s (.finishDelay abort)) := by
  rw [step]
  split
  · next r hstage =>
    obtain ⟨-, -, haborted, -⟩ := h.holds_at hstage
    rw [hstop, haborted]
    have hrunning := hx
    rw [hstage] at hrunning
    obtain ⟨htip, hphase⟩ := hrunning
    by_cases hcomputing : r.phase = .computing
    · have hfinish : r.finishDelay s (fun n => (false || false) && abort n) =
          .going { r with phase := .pacing (Delay.honest s c.tip.difficulty c.tip.hash.bytes) } := by
        simp only [Round.finishDelay, hcomputing, htip, Bool.or_false, hp.compute_eq abort]
      rw [hcomputing] at hphase
      rw [hfinish]
      exact goesOn_of_lt ⟨htip, hphase, hp.verify_honest⟩
        (by simp [hstage, hcomputing, Progress.stage])
    · rw [Round.finishDelay_of_ne hcomputing]
      refine goesOn_of_same hx hstage.symm rfl (decide_eq_false fun h => ?_)
      rw [hstage] at h
      rcases Phase.eq_computing_of_index h with h | h
      · exact hcomputing h
      · rw [h] at hphase
        exact hphase
  · next height hstage =>
    rw [hstage] at hx
    exact hx.elim
  · next hrunning hleaving =>
    refine goesOn_refl hx (decide_eq_false fun h => ?_)
    rcases Stage.running_or_leaving_of_index h with ⟨r, hstage⟩ | ⟨height, hstage⟩
    · exact hrunning r hstage
    · exact hleaving height hstage

/-- **The node's own block is accepted and lands**, step by step. -/
theorem goesOn_append (hp : p.Due s c) (h : Grounded s p c x) (hstage : x.stage = .running r)
    (htip : r.tip = c.tip) {b : Block} {call : AppendCall} (hcase : r.phase = .appending b call)
    (hphase : (Phase.appending b call).OnCourse s p c readings x.chain.blocks) {now : UInt64}
    (htime : c.tip.timestamp.toNat ≤ now.toNat + 30)
    (hsteady : ∀ began ∈ readings, began.toNat ≤ now.toNat + 30) :
    GoesOn s p c readings (.proceed now) x (x.step s (.proceed now)) := by
  obtain ⟨hblocks, hmakes, hcall⟩ := hphase
  have hsame : x.chain.tip = c.tip := tip_eq_of_blocks_eq hblocks
  rcases hcall with rfl | rfl | rfl
  · have hread : (AppendCall.reading b).step s now x.chain = (x.chain, .checking c.tip b) := by
      rw [AppendCall.step, hsame]
    rw [step_proceed_going hstage hcase hread rfl]
    exact goesOn_of_lt ⟨htip, hblocks, hmakes, Or.inr (Or.inl rfl)⟩ (by simp [hstage, hcase])
  · have hok := hp.validate_makes hmakes htime hsteady
    have hcheck : (AppendCall.checking c.tip b).step s now x.chain =
        (x.chain, .committing c.tip b) := by
      simp only [AppendCall.step, h.policy_eq, hok]
    rw [step_proceed_going hstage hcase hcheck rfl]
    exact goesOn_of_lt ⟨htip, hblocks, hmakes, Or.inr (Or.inr rfl)⟩ (by simp [hstage, hcase])
  · have hcommit : (AppendCall.committing c.tip b).step s now x.chain =
        (x.chain.push b, .finished (.ok b.appended)) := by
      simp [AppendCall.step, Chain.commit, hsame]
    rw [step_proceed_landed hstage hcase hcommit]
    refine goesOn_of_lt ⟨htip, ?_, hmakes⟩ (by simp [hstage, hcase])
    rw [← hblocks]
    exact blocks_push x .node b

/-- **After its slot the node goes on to the end**: it forges a block, appends it and settles. -/
theorem goesOn_proceed (hp : p.Due s c) (h : Grounded s p c x)
    (hx : x.stage.OnCourse s p c readings x.chain.blocks) {now : UInt64} (hnow : now ∈ readings)
    (htime : c.tip.timestamp.toNat ≤ now.toNat + 30)
    (hsteady : ∀ began ∈ readings, began.toNat ≤ now.toNat + 30) :
    GoesOn s p c readings (.proceed now) x (x.step s (.proceed now)) := by
  cases hstage : x.stage with
  | running r =>
    have hrunning := hx
    rw [hstage] at hrunning
    obtain ⟨htip, hphase⟩ := hrunning
    cases hcase : r.phase with
    | computing =>
      rw [step_proceed_idle hstage (Or.inl hcase)]
      exact goesOn_refl hx (by simp [hstage, hcase, Event.takes])
    | waiting =>
      rw [hcase] at hphase
      exact hphase.elim
    | pacing proof =>
      rw [hcase] at hphase
      obtain ⟨hblocks, hproof⟩ := hphase
      have hmakes : p.Makes s c readings (Round.forgeOn s now x.node r.tip proof) := by
        refine ⟨now, hnow, proof, x.node.queue, hproof, ?_⟩
        rw [htip, h.node_eq, Round.forgeOn]
      rw [step_proceed_pacing hstage hcase]
      exact goesOn_of_lt ⟨htip, hblocks, hmakes, Or.inl rfl⟩ (by simp [hstage, hcase])
    | appending b call =>
      exact goesOn_append hp h hstage htip hcase (hcase ▸ hphase) htime hsteady
    | settling b =>
      rw [hcase] at hphase
      rw [step_proceed_settling hstage hcase]
      exact goesOn_of_lt ⟨b, rfl, hphase⟩ (by simp [hstage, hcase])
  | _ =>
    refine goesOn_of_same hx ?_ ?_ ?_
    · simp only [step, during, hstage]
    · simp only [step, during, hstage]
    · simp [hstage, Event.takes]

/-- **Every event keeps an undisturbed round on course.** -/
theorem goesOn_step (hp : p.Due s c) (h : Coherent s p c x)
    (hx : x.stage.OnCourse s p c readings x.chain.blocks) (hstop : x.stopAsked = false)
    (halone : ∀ b, (.other, b) ∉ (x.step s e).landed)
    (hclock : ∀ now, e.reading? = some now → now ∈ readings ∧
      c.tip.timestamp.toNat ≤ now.toNat + 30 ∧ ∀ began ∈ readings, began.toNat ≤ now.toNat + 30) :
    GoesOn s p c readings e x (x.step s e) := by
  cases e with
  | join => exact goesOn_join hx hstop
  | readTip => exact goesOn_readTip hp h.toGrounded hx
  | hear => exact goesOn_hear hp h.toGrounded hx
  | finishDelay abort => exact goesOn_finishDelay hp h hx hstop abort
  | proceed now =>
    obtain ⟨hnow, htime, hsteady⟩ := hclock now rfl
    exact goesOn_proceed hp h.toGrounded hx hnow htime hsteady
  | heedStop =>
    have hsame : x.step s .heedStop = x := by
      simp only [step, during, hstop]
      split <;> rfl
    rw [hsame]
    exact goesOn_refl hx rfl
  | call candidate => exact goesOn_of_same hx rfl rfl rfl
  | advance i now =>
    rcases h.toGrounded.advance_cases i now with
      ⟨calls, hstep, -⟩ | ⟨b, calls, -, -, -, -, -, hstep, -⟩
    · rw [hstep]
      exact goesOn_of_same hx rfl rfl rfl
    · rw [hstep] at halone
      exact absurd (List.mem_append_right _ List.mem_cons_self) (halone b)
  | publish i =>
    rw [step]
    split
    · exact goesOn_of_same hx rfl rfl rfl
    · exact goesOn_refl hx rfl
  | request change => exact goesOn_of_same hx rfl rfl rfl
  | askStop => exact goesOn_of_same hx rfl rfl rfl

/-! ### Whole runs -/

/-- **Nobody disturbs the round.**  No block of anybody else lands, and the node is not asked to stop.
Its clock is at most 30 seconds behind the tip, and is never put back by more. -/
structure Undisturbed (s : Suite) (p : Participant) (c : Chain) (late : List Block)
    (events : List Event) : Prop where
  late_subset : ∀ b ∈ late, b ∈ c.blocks
  alone : ∀ b, (.other, b) ∉ ((before p c late).run s events).landed
  notStopped : Event.askStop ∉ events
  tip_le : ∀ now ∈ Event.readings events, c.tip.timestamp.toNat ≤ now.toNat + 30
  steady : (Event.readings events).Pairwise fun earlier later => earlier.toNat ≤ later.toNat + 30

theorem landed_prefix_step (s : Suite) (x : Scene) (e : Event) :
    x.landed <+: (x.step s e).landed := by
  cases e with
  | proceed now =>
    rw [step, during]
    split
    · exact List.prefix_append _ _
    · exact List.prefix_refl _
  | advance i now =>
    rw [step]
    split
    · exact List.prefix_append _ _
    · exact List.prefix_refl _
  | _ =>
    simp only [step, during]
    repeat' split
    all_goals exact List.prefix_refl _

variable {late : List Block} {events : List Event}

theorem Undisturbed.of_concat (h : Undisturbed s p c late (events ++ [e])) :
    Undisturbed s p c late events where
  late_subset := h.late_subset
  alone b hb := by
    refine h.alone b ?_
    rw [run_concat]
    exact (landed_prefix_step s _ e).subset hb
  notStopped hmem := h.notStopped (List.mem_append_left _ hmem)
  tip_le now hnow := by
    refine h.tip_le now ?_
    rw [Event.readings_concat]
    exact List.mem_append_left _ hnow
  steady := by
    have hsteady := h.steady
    rw [Event.readings_concat] at hsteady
    exact (List.pairwise_append.mp hsteady).1

theorem Undisturbed.began_le (h : Undisturbed s p c late (events ++ [e])) {began now : UInt64}
    (hnow : e.reading? = some now) (hbegan : began ∈ Event.readings (events ++ [e])) :
    began.toNat ≤ now.toNat + 30 := by
  have hsteady := h.steady
  rw [Event.readings_concat, hnow] at hsteady hbegan
  rcases List.mem_append.mp hbegan with hbegan | hbegan
  · exact (List.pairwise_append.mp hsteady).2.2 began hbegan now List.mem_cons_self
  · rw [List.mem_singleton.mp hbegan]
    exact Nat.le_add_right _ _

theorem goesOn_of_onCourse (hp : p.Due s c) (h : Undisturbed s p c late (events ++ [e]))
    (hx : ((before p c late).run s events).stage.OnCourse s p c (Event.readings events)
      ((before p c late).run s events).chain.blocks) :
    GoesOn s p c (Event.readings (events ++ [e])) e ((before p c late).run s events)
      ((before p c late).run s (events ++ [e])) := by
  have hcoherent := (coherent_before hp.reachable p h.late_subset).run events
  have hstop : ((before p c late).run s events).stopAsked = false := by
    refine Bool.eq_false_iff.mpr fun hstop => ?_
    rcases stopAsked_run hstop with hstop | hmem
    · exact Bool.false_ne_true hstop
    · exact h.of_concat.notStopped hmem
  have hsub : Event.readings events ⊆ Event.readings (events ++ [e]) := by
    rw [Event.readings_concat]
    exact List.subset_append_left _ _
  have halone := h.alone
  rw [run_concat] at halone ⊢
  refine goesOn_step hp hcoherent (hx.mono hsub) hstop halone fun now hnow => ?_
  have hmem : now ∈ Event.readings (events ++ [e]) := by
    rw [Event.readings_concat, hnow]
    exact List.mem_append_right _ List.mem_cons_self
  exact ⟨hmem, h.tip_le now hmem, fun began => h.began_le hnow⟩

/-- **An undisturbed round is on course** at every moment. -/
theorem onCourse_run (hp : p.Due s c) (h : Undisturbed s p c late events) :
    ((before p c late).run s events).stage.OnCourse s p c (Event.readings events)
      ((before p c late).run s events).chain.blocks := by
  induction events using List.reverseRecOn with
  | nil => rfl
  | append_singleton events e ih => exact (goesOn_of_onCourse hp h (ih h.of_concat)).onCourse

/-- **As many steps as the node takes in their order, so far the round has come** at least. -/
theorem length_le_index (hp : p.Due s c) (h : Undisturbed s p c late events) {steps : List Event}
    (hsteps : steps.Sublist events)
    (htakes : ∀ (i : Nat) (e : Event), steps[i]? = some e → e.takes i = true) :
    steps.length ≤ ((before p c late).run s events).stage.index := by
  induction events using List.reverseRecOn generalizing steps with
  | nil =>
    rw [List.sublist_nil.mp hsteps]
    exact Nat.zero_le _
  | append_singleton events e ih =>
    have hgoes := goesOn_of_onCourse hp h (onCourse_run hp h.of_concat)
    obtain ⟨taken, last, rfl, htaken, hlast⟩ := List.sublist_append_iff.mp hsteps
    have hbefore := ih h.of_concat htaken fun i d hd => htakes i d (by
      rw [List.getElem?_append_left (List.getElem?_eq_some_iff.mp hd).1, hd])
    rcases List.sublist_singleton.mp hlast with rfl | rfl
    · rw [List.append_nil]
      exact hbefore.trans hgoes.index_le
    · rw [List.length_append, List.length_singleton]
      have htake : e.takes taken.length = true :=
        htakes _ e List.getElem?_concat_length
      -- the round may have come further already, by a step that the list leaves out
      rcases Nat.eq_or_lt_of_le hbefore with heq | hlt
      · have hlt := hgoes.index_lt (heq ▸ htake)
        omega
      · exact Nat.le_trans hlt hgoes.index_le

end Scene

theorem Phase.index_lt (phase : Phase) : phase.index < 8 := by
  cases phase with
  | appending b call => cases call <;> simp
  | _ => simp

theorem Stage.exists_ended_of_le_index {stage : Stage} (h : 8 ≤ stage.index) :
    ∃ outcome, stage = .ended outcome := by
  cases stage with
  | ended outcome => exact ⟨outcome, rfl⟩
  | running r =>
    have hlt := r.phase.index_lt
    rw [index] at h
    omega
  | _ => simp at h

namespace Participant.Due

variable {s : Suite} {p : Participant} {c : Chain}

theorem undisturbed_eq (h : p.Due s c) {now : UInt64}
    (htime : c.tip.timestamp.toNat ≤ now.toNat + 30) :
    ∃ b, p.Makes s c [now] b ∧
      (Round.start s p c).undisturbed s now p c =
        (.done (.produced b.appended), { p with queue := p.queue.settle b.changes b.height },
          c.push b) := by
  have hstart : Round.start s p c = ⟨c.tip, c.feed.total, .computing⟩ := by
    simp only [Round.start, Round.readTip, Schedule.dutyOf_of_rank_eq h.rank_eq]
  have hcompute : Delay.compute s c.tip.difficulty c.tip.hash.bytes (fun _ => false) =
      .ok (Delay.honest s c.tip.difficulty c.tip.hash.bytes) :=
    h.compute_eq fun _ => false
  have hmakes : p.Makes s c [now]
      (Round.forgeOn s now p c.tip (Delay.honest s c.tip.difficulty c.tip.hash.bytes)) :=
    ⟨now, List.mem_cons_self, _, p.queue, h.verify_honest, rfl⟩
  have hok := h.validate_makes hmakes htime fun began hbegan => by
    rw [List.mem_singleton.mp hbegan]
    exact Nat.le_add_right _ _
  refine ⟨_, hmakes, ?_⟩
  simp only [hstart, Round.undisturbed, Round.finishDelay, hcompute, Round.finishSlot,
    Round.proceedUpTo, Round.proceed, AppendCall.step, hok, Chain.commit, ne_eq, not_true_eq_false,
    if_false]

/-- **A node that is due produces**, whatever requests are pending and whatever the policy prescribes.
With nobody else around its round appends a block of its own and is done.  With others around, who
make requests, publish blocks late and fail to append, its round ends in no other way than with a block
of its own on the chain, and it ends once the node has taken its eight steps. -/
theorem produces (h : p.Due s c) :
    (∀ now : UInt64, c.tip.timestamp.toNat ≤ now.toNat + 30 →
      ∃ b : Block, b.NextBy p c ∧
        (Round.start s p c).undisturbed s now p c =
          (.done (.produced b.appended), { p with queue := p.queue.settle b.changes b.height },
            c.push b)) ∧
    ∀ late events, Scene.Undisturbed s p c late events →
      let x := (Scene.before p c late).run s events
      (∀ outcome, x.outcome? = some outcome →
        ∃ b : Block, b.NextBy p c ∧ outcome = .produced b.appended ∧
          x.chain.blocks = c.blocks ++ [b]) ∧
      ((∃ steps : List Event, steps.Sublist events ∧ steps.length = 8 ∧
          ∀ (i : Nat) (e : Event), steps[i]? = some e → e.takes i = true) →
        ∃ b : Block, b.NextBy p c ∧ x.outcome? = some (.produced b.appended) ∧
          x.chain.blocks = c.blocks ++ [b]) := by
  refine ⟨fun now htime => ?_, fun late events hquiet => ?_⟩
  · obtain ⟨b, hmakes, hround⟩ := h.undisturbed_eq htime
    exact ⟨b, h.nextBy_of_makes hmakes, hround⟩
  · intro x
    have hends : ∀ outcome, x.outcome? = some outcome →
        ∃ b : Block, b.NextBy p c ∧ outcome = .produced b.appended ∧
          x.chain.blocks = c.blocks ++ [b] := by
      intro outcome hended
      have hcourse := Scene.onCourse_run h hquiet
      rw [Scene.outcome?_eq_some_iff.mp hended] at hcourse
      obtain ⟨b, hb, hblocks, hmakes⟩ := hcourse
      exact ⟨b, h.nextBy_of_makes hmakes, hb, hblocks⟩
    refine ⟨hends, ?_⟩
    rintro ⟨steps, hsteps, hlength, htakes⟩
    have hindex := Scene.length_le_index h hquiet hsteps htakes
    rw [hlength] at hindex
    obtain ⟨outcome, hstage⟩ := Stage.exists_ended_of_le_index hindex
    have hended := Scene.outcome?_eq_some_iff.mpr hstage
    obtain ⟨b, hb, rfl, hblocks⟩ := hends outcome hended
    exact ⟨b, hb, hended, hblocks⟩

end Participant.Due

namespace Sample

open Suite (small)

theorem small_hasGroup : small.HasGroup where
  two_lt := by decide
  modulus_le := by decide +kernel

theorem due_worker : worker.Due small founded where
  reachable := reachable_founded
  genesis_card_le genesis hgenesis := by
    obtain rfl := Option.some.inj hgenesis
    decide +kernel
  height_lt := by decide
  policy_eq := rfl
  rank_eq := by decide +kernel
  signs := Suite.small_verify_sign [2]
  hasGroup := small_hasGroup
  coprime := by decide +kernel

def work : List Event :=
  [.join, .readTip, .finishDelay fun _ => true, .proceed 90, .proceed 100, .proceed 80, .proceed 80,
    .proceed 80]

/-- Meanwhile the node hears of the tip, somebody asks to join, and a block of somebody else is
rejected. -/
def working : List Event :=
  [.join, .readTip, .publish 0, .hear, .call first, .advance 0 100, .finishDelay fun _ => true,
    .request (Change.signed small joiner .join 0), .proceed 90, .proceed 100, .advance 0 100,
    .proceed 80, .proceed 80, .proceed 80]

theorem undisturbed_working : Scene.Undisturbed small worker founded [first] working where
  late_subset b hb := hb
  alone b hb := by
    have hauthors : ((Scene.before worker founded [first]).run small working).landed.map Prod.fst =
        [.node] := by
      decide +kernel
    have hauthor := List.mem_map_of_mem (f := Prod.fst) hb
    rw [hauthors] at hauthor
    exact absurd (List.mem_singleton.mp hauthor) nofun
  notStopped := by simp only [working, List.mem_cons, reduceCtorEq, List.not_mem_nil, or_self,
    not_false_eq_true]
  tip_le now hnow := by
    have hall : (Event.readings working).all
        (fun now => founded.tip.timestamp.toNat ≤ now.toNat + 30) = true := by
      decide +kernel
    exact of_decide_eq_true (List.all_eq_true.mp hall now hnow)
  steady := by decide +kernel

theorem work_sublist_working : work.Sublist working :=
  .cons_cons _ (.cons_cons _ (.cons _ (.cons _ (.cons _ (.cons _ (.cons_cons _ (.cons _
    (.cons_cons _ (.cons_cons _ (.cons _ (.cons_cons _ (.cons_cons _ (.cons_cons _ .slnil)))))))))))))

theorem takes_work (i : Nat) (e : Event) (h : work[i]? = some e) : e.takes i = true := by
  have hlt : i < 8 := (List.getElem?_eq_some_iff.mp h).1
  interval_cases i <;> (obtain rfl := Option.some.inj h; rfl)

/-- The node produces, whatever comes in between. -/
theorem outcome_run_working :
    worker.Due small founded ∧ Scene.Undisturbed small worker founded [first] working ∧
      ∃ b : Block, b.producer = leaver.publicKey ∧
        ((Scene.before worker founded [first]).run small working).outcome? =
          some (.produced b.appended) := by
  obtain ⟨-, h⟩ := due_worker.produces
  obtain ⟨-, hends⟩ := h [first] working undisturbed_working
  obtain ⟨b, hb, hended, -⟩ := hends ⟨work, work_sublist_working, rfl, takes_work⟩
  exact ⟨due_worker, undisturbed_working, b, hb.producer_eq, hended⟩

end Sample

end DelayLedger
