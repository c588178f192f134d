import Mathlib.Logic.Function.Basic
import DelayLedger.Proofs.Block.Preimage
import DelayLedger.Proofs.Chain.Reachable

/-!
# Racing appends

Any number of calls append to one chain at one reading of the clock, their steps coming in any order.
A call takes effect at one of its steps (`step_quiet_or_effective`): when it reads the tip, if its
candidate is not accepted as a child of that, and when it commits otherwise.  A commit succeeds only
on the very tip that was read, since a hash names one block of the chain, and one that fails gives the
error that validation gives for the tip that it found.

* `Running`, `Progress`: what every step keeps, and the calls that took effect so far in their order.
* `linearizable`: the calls that have ended are as if run one after another in an order that respects
  which of them ended before others began.
-/

namespace DelayLedger

/-! ### One call -/

namespace AppendCall

/-- How a call will end, once that is settled: a call that checks a candidate which will not be
accepted is as good as ended. -/
def settle (s : Suite) (policy : Policy) (now : UInt64) : AppendCall → AppendCall
  | checking snapshot candidate =>
    match validate s policy now snapshot candidate with
    | .error e => finished (.error e)
    | .ok () => checking snapshot candidate
  | call => call

def succeeded : AppendCall → Bool
  | finished (.ok _) => true
  | _ => false

def ended : AppendCall → Bool
  | finished _ => true
  | _ => false

/-- A call for a candidate that is under way on a chain: what it has read lies on the chain. -/
inductive UnderWay (s : Suite) (now : UInt64) (c : Chain) (candidate : Block) : AppendCall → Prop
  | reading : UnderWay s now c candidate (reading candidate)
  | checking {snapshot : Block} : snapshot ∈ c.blocks →
      UnderWay s now c candidate (checking snapshot candidate)
  | committing {snapshot : Block} : snapshot ∈ c.blocks →
      validate s c.policy now snapshot candidate = .ok () →
      UnderWay s now c candidate (committing snapshot candidate)
  | rejected (e : ValidationError) : UnderWay s now c candidate (finished (.error e))
  | appended : UnderWay s now c candidate (finished (.ok candidate.appended))

variable {s : Suite} {now : UInt64} {c : Chain} {candidate : Block} {call : AppendCall}

theorem ended_iff : call.ended = true ↔ ∃ result, call = finished result := by
  cases call <;> simp [ended]

theorem rejected_of_settle {policy : Policy} {result : Except ValidationError Appended}
    (h : call.settle s policy now = finished result) (hcall : call.ended = false) :
    ∃ e, call.settle s policy now = finished (.error e) := by
  cases call with
  | reading => contradiction
  | committing => contradiction
  | finished => contradiction
  | checking snapshot candidate =>
    cases hv : validate s policy now snapshot candidate with
    | error e => exact ⟨e, by rw [settle, hv]⟩
    | ok u =>
      rw [settle, hv] at h
      contradiction

theorem UnderWay.mono {d : Chain} (h : UnderWay s now c candidate call) (hp : d.policy = c.policy)
    (hcd : c.blocks <+: d.blocks) : UnderWay s now d candidate call := by
  cases h with
  | reading => exact .reading
  | checking hmem => exact .checking (hcd.subset hmem)
  | committing hmem hok => exact .committing (hcd.subset hmem) (hp ▸ hok)
  | rejected e => exact .rejected e
  | appended => exact .appended

theorem mem_blocks_tip (c : Chain) : c.tip ∈ c.blocks := List.mem_of_getLast? c.getLast?_blocks

/-- A candidate that was accepted as a child of one block is no child of a tip with another hash. -/
theorem validate_of_moved {policy : Policy} {snapshot tip : Block}
    (hok : validate s policy now snapshot candidate = .ok ()) (hne : tip.hash ≠ snapshot.hash) :
    validate s policy now tip candidate = .error (.linkMismatch tip.height candidate.height) := by
  have hprevious := (follows_of_validate hok).previousHash_eq
  have hlink : candidate.continues tip = false := by
    rw [Bool.eq_false_iff]
    intro hcontinues
    rw [Block.continues_iff, hprevious] at hcontinues
    exact hne (Option.some.inj hcontinues.1).symm
  exact validate_of_not_continues hlink

/-- **A step of a call is quiet or takes effect.**  A quiet step changes neither the chain nor how the
call will end.  At the one step that takes effect the call, run alone at that moment, would do to the
chain what the step does and end as it will end. -/
theorem step_quiet_or_effective (h : UnderWay s now c candidate call)
    (hc : History s c.policy c.blocks) (hfree : CollisionFree s (· ∈ c.blocks)) :
    ((call.step s now c).1 = c ∧
      ∀ result, settle s c.policy now (call.step s now c).2 = finished result ↔
        settle s c.policy now call = finished result) ∨
    ((∀ result, settle s c.policy now call ≠ finished result) ∧
      ∃ result, settle s c.policy now (call.step s now c).2 = finished result ∧
        runAlone s now c candidate = ((call.step s now c).1, finished result)) := by
  cases h with
  | reading =>
    cases hv : validate s c.policy now c.tip candidate with
    | error e =>
      refine Or.inr ⟨fun _ => by simp [settle], .error e, ?_, runAlone_of_error hv⟩
      simp [step, settle, hv]
    | ok u =>
      refine Or.inl ⟨rfl, fun _ => ?_⟩
      simp [step, settle, hv]
  | @checking snapshot hmem =>
    cases hv : validate s c.policy now snapshot candidate with
    | error e =>
      refine Or.inl ⟨by simp [step, hv], fun _ => ?_⟩
      simp [step, settle, hv]
    | ok u =>
      refine Or.inl ⟨by simp [step, hv], fun _ => ?_⟩
      simp [step, settle, hv]
  | @committing snapshot hmem hok =>
    refine Or.inr ⟨fun _ => by simp [settle], ?_⟩
    by_cases hmoved : c.tip.hash = snapshot.hash
    · have htip : c.tip = snapshot := hc.eq_of_hash_eq hfree (mem_blocks_tip c) hmem hmoved
      have hstep : (committing snapshot candidate).step s now c =
          (c.push candidate, finished (.ok candidate.appended)) := by
        simp [step, Chain.commit, hmoved]
      rw [hstep]
      exact ⟨.ok candidate.appended, rfl, runAlone_of_ok (htip ▸ hok)⟩
    · have hstep : (committing snapshot candidate).step s now c =
          (c, finished (.error (.linkMismatch c.tip.height candidate.height))) := by
        simp [step, Chain.commit, hmoved]
      rw [hstep]
      exact ⟨_, rfl, runAlone_of_error (validate_of_moved hok hmoved)⟩
  | rejected e => exact Or.inl ⟨rfl, fun _ => Iff.rfl⟩
  | appended => exact Or.inl ⟨rfl, fun _ => Iff.rfl⟩

theorem chain_eq_of_rejected {d : Chain} {e : ValidationError}
    (h : runAlone s now c candidate = (d, finished (.error e))) : d = c := by
  cases hv : validate s c.policy now c.tip candidate with
  | error f =>
    rw [runAlone_of_error hv] at h
    exact (Prod.mk.inj h).1.symm
  | ok u =>
    rw [runAlone_of_ok hv] at h
    injection h with _ h
    injection h with h
    contradiction

theorem blocks_of_runAlone {d : Chain} (h : runAlone s now c candidate = (d, call)) :
    d.blocks = c.blocks ++ if call.succeeded then [candidate] else [] := by
  cases hv : validate s c.policy now c.tip candidate with
  | error e =>
    rw [runAlone_of_error hv] at h
    obtain ⟨rfl, rfl⟩ := Prod.mk.inj h
    exact (List.append_nil _).symm
  | ok u =>
    rw [runAlone_of_ok hv] at h
    obtain ⟨rfl, rfl⟩ := Prod.mk.inj h
    exact Chain.blocks_push c candidate

theorem exists_accepts_step (h : UnderWay s now c candidate call)
    (hc : History s c.policy c.blocks) (hfree : CollisionFree s (· ∈ c.blocks)) :
    ∃ accepted, Chain.Accepts s now c accepted (call.step s now c).1 ∧
      accepted.Sublist [candidate] := by
  rcases step_quiet_or_effective h hc hfree with ⟨hquiet, -⟩ | ⟨-, result, -, hrun⟩
  · rw [hquiet]
    exact ⟨[], .nil c, List.nil_sublist _⟩
  · have hacc := Chain.exists_accepts_runAlone s now c candidate
    rw [hrun] at hacc
    exact hacc

theorem UnderWay.step (h : UnderWay s now c candidate call) :
    UnderWay s now (call.step s now c).1 candidate (call.step s now c).2 := by
  cases h with
  | reading => exact .checking (mem_blocks_tip c)
  | @checking snapshot hmem =>
    cases hv : validate s c.policy now snapshot candidate with
    | error e => simp only [AppendCall.step, hv]; exact .rejected e
    | ok u => simp only [AppendCall.step, hv]; exact .committing hmem hv
  | @committing snapshot hmem hok =>
    by_cases hmoved : c.tip.hash = snapshot.hash
    · simp only [AppendCall.step, Chain.commit, hmoved, ne_eq, not_true_eq_false, if_false]
      exact .appended
    · simp only [AppendCall.step, Chain.commit, hmoved, ne_eq, not_false_eq_true, if_true]
      exact .rejected _
  | rejected e => exact .rejected e
  | appended => exact .appended

/-- **What a step of a call does**, whatever the clock shows by then.  It leaves the chain as it is, or
it puts the candidate on a chain whose tip has the hash of the block that the candidate was checked
against. -/
theorem UnderWay.step_cases (h : UnderWay s now c candidate call) (later : UInt64) :
    (∃ next, call.step s later c = (c, next) ∧ next.succeeded = call.succeeded ∧
      ∃ now, UnderWay s now c candidate next) ∨
    ∃ snapshot ∈ c.blocks, c.tip.hash = snapshot.hash ∧
      validate s c.policy now snapshot candidate = .ok () ∧
      call.step s later c = (c.push candidate, finished (.ok candidate.appended)) := by
  cases h with
  | reading => exact Or.inl ⟨.checking c.tip candidate, rfl, rfl, later, .checking (mem_blocks_tip c)⟩
  | @checking snapshot hmem =>
    left
    cases hv : validate s c.policy later snapshot candidate with
    | error e =>
      exact ⟨.finished (.error e), by simp [AppendCall.step, hv], rfl, later, .rejected e⟩
    | ok u =>
      exact ⟨.committing snapshot candidate, by simp [AppendCall.step, hv], rfl, later,
        .committing hmem hv⟩
  | @committing snapshot hmem hok =>
    by_cases hmoved : c.tip.hash = snapshot.hash
    · refine Or.inr ⟨snapshot, hmem, hmoved, hok, ?_⟩
      simp [AppendCall.step, Chain.commit, hmoved]
    · refine Or.inl ⟨.finished (.error (.linkMismatch c.tip.height candidate.height)), ?_, rfl, later,
        .rejected _⟩
      simp [AppendCall.step, Chain.commit, hmoved]
  | rejected e => exact Or.inl ⟨.finished (.error e), rfl, rfl, later, .rejected e⟩
  | appended => exact Or.inl ⟨.finished (.ok candidate.appended), rfl, rfl, later, .appended⟩

end AppendCall

/-! ### Many calls -/

structure Race (ι : Type) where
  chain : Chain
  calls : ι → AppendCall

namespace Race

variable {ι : Type}

/-- The blocks that a race is about: those of the chain that it begins on, and the candidates. -/
def Involved (c : Chain) (candidates : ι → Block) (b : Block) : Prop :=
  b ∈ c.blocks ∨ ∃ i, b = candidates i

/-- One more call runs alone, after some that have ended. -/
def turn (s : Suite) (now : UInt64) (candidates : ι → Block) (done : Chain × List (ι × AppendCall))
    (i : ι) : Chain × List (ι × AppendCall) :=
  let (c, call) := AppendCall.runAlone s now done.1 (candidates i)
  (c, done.2 ++ [(i, call)])

/-- Calls run one after another, none beginning before the one before has ended: the chain that they
leave and how each of them ends. -/
def inTurn (s : Suite) (now : UInt64) (c : Chain) (candidates : ι → Block) (order : List ι) :
    Chain × List (ι × AppendCall) :=
  order.foldl (turn s now candidates) (c, [])

section InTurn

variable {s : Suite} {now : UInt64} {c d : Chain} {candidates : ι → Block} {order : List ι}
  {ends : ι → AppendCall}

theorem inTurn_concat_eq_iff {i : ι} :
    inTurn s now c candidates (order ++ [i]) = (d, (order ++ [i]).map fun j => (j, ends j)) ↔
      ∃ b, inTurn s now c candidates order = (b, order.map fun j => (j, ends j)) ∧
        AppendCall.runAlone s now b (candidates i) = (d, ends i) := by
  have hconcat : inTurn s now c candidates (order ++ [i]) =
      turn s now candidates (inTurn s now c candidates order) i := by
    rw [inTurn, List.foldl_append]
    rfl
  rw [hconcat, turn, List.map_append, List.map_singleton]
  constructor
  · intro h
    obtain ⟨hchain, hlist⟩ := Prod.mk.inj h
    obtain ⟨hinit, hlast⟩ := List.append_inj' hlist rfl
    have hcall := congrArg Prod.snd (List.head_eq_of_cons_eq hlast)
    exact ⟨_, Prod.ext rfl hinit, Prod.ext hchain hcall⟩
  · rintro ⟨b, hb, hrun⟩
    rw [hb]
    simp only [hrun]

/-- Calls in turn go on as before when those whose candidates are rejected are left out. -/
theorem inTurn_filter {p : ι → Bool} (h : inTurn s now c candidates order =
      (d, order.map fun i => (i, ends i)))
    (hp : ∀ i ∈ order, p i = false → ∃ e, ends i = .finished (.error e)) :
    inTurn s now c candidates (order.filter p) =
      (d, (order.filter p).map fun i => (i, ends i)) := by
  induction order using List.reverseRecOn generalizing d with
  | nil => exact h
  | append_singleton order i ih =>
    obtain ⟨b, hb, hrun⟩ := inTurn_concat_eq_iff.mp h
    have hrest := ih hb fun j hj => hp j (List.mem_append_left _ hj)
    rw [List.filter_append]
    cases hpi : p i with
    | true =>
      rw [List.filter_singleton, hpi]
      exact inTurn_concat_eq_iff.mpr ⟨b, hrest, hrun⟩
    | false =>
      obtain ⟨e, he⟩ := hp i (List.mem_append_right _ List.mem_cons_self) hpi
      rw [List.filter_singleton, hpi]
      have hsame : d = b := AppendCall.chain_eq_of_rejected (he ▸ hrun)
      rw [hsame]
      simpa using hrest

theorem blocks_inTurn (h : inTurn s now c candidates order =
      (d, order.map fun i => (i, ends i))) :
    d.blocks = c.blocks ++ (order.filter fun i => (ends i).succeeded).map candidates := by
  induction order using List.reverseRecOn generalizing d with
  | nil =>
    obtain ⟨hchain, -⟩ := Prod.mk.inj h
    rw [← hchain]
    exact (List.append_nil _).symm
  | append_singleton order i ih =>
    obtain ⟨b, hb, hrun⟩ := inTurn_concat_eq_iff.mp h
    rw [AppendCall.blocks_of_runAlone hrun, ih hb, List.filter_append, List.map_append,
      List.append_assoc]
    cases hi : (ends i).succeeded <;> simp [hi]

end InTurn

variable [DecidableEq ι]

def step (s : Suite) (now : UInt64) (r : Race ι) (i : ι) : Race ι :=
  { chain := ((r.calls i).step s now r.chain).1
    calls := Function.update r.calls i ((r.calls i).step s now r.chain).2 }

/-- Calls begin on a chain and take their steps in the order in which a schedule lists them. -/
def run (s : Suite) (now : UInt64) (c : Chain) (candidates : ι → Block) (schedule : List ι) :
    Race ι :=
  schedule.foldl (step s now) ⟨c, fun i => .reading (candidates i)⟩

/-- At some moment of a schedule one call has ended and the other has not begun. -/
def EndsBefore (s : Suite) (now : UInt64) (c : Chain) (candidates : ι → Block) (schedule : List ι)
    (i j : ι) : Prop :=
  ∃ earlier, earlier <+: schedule ∧
    (∃ result, (run s now c candidates earlier).calls i = .finished result) ∧
    ∃ candidate, (run s now c candidates earlier).calls j = .reading candidate

/-- **An order explains a schedule** when it lists the calls that have ended, one that ended before
another began in front of that, and these calls, run in turn, leave the same blocks and end the same. -/
structure Explains (s : Suite) (now : UInt64) (c : Chain) (candidates : ι → Block)
    (schedule order : List ι) : Prop where
  nodup : order.Nodup
  mem_iff : ∀ i, i ∈ order ↔
    ∃ result, (run s now c candidates schedule).calls i = .finished result
  realTime : order.Pairwise fun i j => ¬ EndsBefore s now c candidates schedule j i
  blocks_eq : (inTurn s now c candidates order).1.blocks =
    (run s now c candidates schedule).chain.blocks
  calls_eq : (inTurn s now c candidates order).2 =
    order.map fun i => (i, (run s now c candidates schedule).calls i)

variable {s : Suite} {now : UInt64} {c : Chain} {candidates : ι → Block} {order schedule : List ι}

/-! ### Steps -/

theorem run_concat (schedule : List ι) (i : ι) :
    run s now c candidates (schedule ++ [i]) = (run s now c candidates schedule).step s now i := by
  rw [run, List.foldl_append]
  rfl

theorem step_calls_self (r : Race ι) (i : ι) :
    (r.step s now i).calls i = ((r.calls i).step s now r.chain).2 := Function.update_self ..

theorem step_calls_of_ne (r : Race ι) {i j : ι} (h : j ≠ i) :
    (r.step s now i).calls j = r.calls j := Function.update_of_ne h ..

theorem step_calls_of_finished {r : Race ι} {i j : ι} {result : Except ValidationError Appended}
    (h : r.calls j = .finished result) : (r.step s now i).calls j = .finished result := by
  by_cases hji : j = i
  · subst hji
    rw [step_calls_self, h]
    rfl
  · rw [step_calls_of_ne r hji, h]

theorem run_calls_of_earlier {earlier : List ι} {j : ι} {result : Except ValidationError Appended}
    (hearlier : earlier <+: schedule)
    (h : (run s now c candidates earlier).calls j = .finished result) :
    (run s now c candidates schedule).calls j = .finished result := by
  obtain ⟨later, rfl⟩ := hearlier
  induction later using List.reverseRecOn with
  | nil => rw [List.append_nil, h]
  | append_singleton later i ih =>
    rw [← List.append_assoc, run_concat]
    exact step_calls_of_finished ih

theorem endsBefore_concat {i j k : ι} (h : EndsBefore s now c candidates (schedule ++ [k]) i j) :
    EndsBefore s now c candidates schedule i j ∨
      ∃ candidate, (run s now c candidates (schedule ++ [k])).calls j = .reading candidate := by
  obtain ⟨earlier, hearlier, hended, hreading⟩ := h
  rcases List.prefix_concat_iff.mp hearlier with rfl | hearlier
  · exact Or.inr hreading
  · exact Or.inl ⟨earlier, hearlier, hended, hreading⟩

/-! ### What every step keeps -/

/-- What holds of the chain and of each call after every step of a race. -/
structure Running (s : Suite) (now : UInt64) (c : Chain) (candidates : ι → Block) (r : Race ι) :
    Prop where
  policy_eq : r.chain.policy = c.policy
  history : History s r.chain.policy r.chain.blocks
  prefix_blocks : c.blocks <+: r.chain.blocks
  blocks_involved : ∀ b ∈ r.chain.blocks, Involved c candidates b
  underWay : ∀ i, (r.calls i).UnderWay s now r.chain (candidates i)

theorem running_start (hc : Chain.Reachable s c) (candidates : ι → Block) :
    Running s now c candidates (run s now c candidates []) where
  policy_eq := rfl
  history := hc.history
  prefix_blocks := List.prefix_refl _
  blocks_involved _ hb := Or.inl hb
  underWay _ := .reading

variable {r : Race ι}

theorem Running.exists_accepts (h : Running s now c candidates r)
    (hfree : CollisionFree s (Involved c candidates)) (i : ι) :
    ∃ accepted, Chain.Accepts s now r.chain accepted (r.step s now i).chain ∧
      accepted.Sublist [candidates i] :=
  AppendCall.exists_accepts_step (h.underWay i) h.history (hfree.mono h.blocks_involved)

theorem Running.step (h : Running s now c candidates r)
    (hfree : CollisionFree s (Involved c candidates)) (i : ι) :
    Running s now c candidates (r.step s now i) := by
  obtain ⟨accepted, hacc, hsub⟩ := h.exists_accepts hfree i
  have hpolicy : (r.step s now i).chain.policy = r.chain.policy := hacc.policy_eq
  have hblocks : (r.step s now i).chain.blocks = r.chain.blocks ++ accepted := hacc.blocks_eq
  have hgrows : r.chain.blocks <+: (r.step s now i).chain.blocks := ⟨accepted, hblocks.symm⟩
  refine ⟨hpolicy.trans h.policy_eq, hacc.history h.history, h.prefix_blocks.trans hgrows, ?_, ?_⟩
  · intro b hb
    rw [hblocks, List.mem_append] at hb
    rcases hb with hb | hb
    · exact h.blocks_involved b hb
    · exact Or.inr ⟨i, List.mem_singleton.mp (hsub.subset hb)⟩
  · intro j
    by_cases hji : j = i
    · subst hji
      rw [step_calls_self]
      exact (h.underWay j).step
    · rw [step_calls_of_ne r hji]
      exact (h.underWay j).mono hpolicy hgrows

/-! ### The calls that took effect -/

def ends (s : Suite) (now : UInt64) (policy : Policy) (r : Race ι) (i : ι) : AppendCall :=
  (r.calls i).settle s policy now

/-- `order` lists the calls that took effect, the latest last.  Run in turn they leave the chain as it
is now and end as they will end. -/
structure Progress (s : Suite) (now : UInt64) (c : Chain) (candidates : ι → Block) (r : Race ι)
    (order : List ι) : Prop where
  nodup : order.Nodup
  mem_iff : ∀ i, i ∈ order ↔ ∃ result, r.ends s now c.policy i = .finished result
  inTurn_eq : inTurn s now c candidates order =
    (r.chain, order.map fun i => (i, r.ends s now c.policy i))

theorem progress_start (c : Chain) (candidates : ι → Block) :
    Progress s now c candidates (run s now c candidates []) [] where
  nodup := List.nodup_nil
  mem_iff i := by simp [run, ends, AppendCall.settle]
  inTurn_eq := rfl

omit [DecidableEq ι] in
theorem Progress.ne_reading (h : Progress s now c candidates r order) {i : ι} (hi : i ∈ order)
    (candidate : Block) : r.calls i ≠ .reading candidate := by
  intro hreading
  obtain ⟨result, hresult⟩ := (h.mem_iff i).mp hi
  rw [ends, hreading] at hresult
  contradiction

omit [DecidableEq ι] in
theorem Progress.mem_of_finished (h : Progress s now c candidates r order) {i : ι}
    {result : Except ValidationError Appended} (hi : r.calls i = .finished result) : i ∈ order := by
  refine (h.mem_iff i).mpr ⟨result, ?_⟩
  rw [ends, hi]
  rfl

theorem ends_step_self (policy : Policy) (r : Race ι) (i : ι) :
    (r.step s now i).ends s now policy i =
      ((r.calls i).step s now r.chain).2.settle s policy now := by rw [ends, step_calls_self]

theorem ends_step_of_ne (policy : Policy) {i j : ι} (h : j ≠ i) :
    (r.step s now i).ends s now policy j = r.ends s now policy j := by
  rw [ends, step_calls_of_ne r h, ends]

theorem Progress.step_of_quiet (h : Progress s now c candidates r order) {i : ι}
    (hchain : (r.step s now i).chain = r.chain)
    (hends : ∀ result, (r.step s now i).ends s now c.policy i = .finished result ↔
      r.ends s now c.policy i = .finished result) :
    Progress s now c candidates (r.step s now i) order := by
  have hall : ∀ j result, (r.step s now i).ends s now c.policy j = .finished result ↔
      r.ends s now c.policy j = .finished result := by
    intro j result
    by_cases hji : j = i
    · rw [hji, hends]
    · rw [ends_step_of_ne c.policy hji]
  refine ⟨h.nodup, fun j => ?_, ?_⟩
  · rw [h.mem_iff]
    exact exists_congr fun result => (hall j result).symm
  · rw [h.inTurn_eq, hchain]
    refine Prod.ext rfl (List.map_congr_left fun j hj => ?_)
    obtain ⟨result, hresult⟩ := (h.mem_iff j).mp hj
    rw [hresult, (hall j result).mpr hresult]

theorem Progress.step_of_effective (h : Progress s now c candidates r order) {i : ι}
    {result : Except ValidationError Appended} (hi : i ∉ order)
    (hends : (r.step s now i).ends s now c.policy i = .finished result)
    (hrun : AppendCall.runAlone s now r.chain (candidates i) =
      ((r.step s now i).chain, .finished result)) :
    Progress s now c candidates (r.step s now i) (order ++ [i]) := by
  have hne : ∀ j ∈ order, j ≠ i := fun j hj hji => hi (hji ▸ hj)
  refine ⟨List.concat_eq_append ▸ h.nodup.concat hi, fun j => ?_, ?_⟩
  · rw [List.mem_append, List.mem_singleton]
    by_cases hji : j = i
    · rw [hji]
      exact iff_of_true (Or.inr rfl) ⟨result, hends⟩
    · rw [ends_step_of_ne c.policy hji, ← h.mem_iff]
      exact or_iff_left hji
  · refine inTurn_concat_eq_iff.mpr ⟨r.chain, ?_, by rw [hrun, hends]⟩
    rw [h.inTurn_eq]
    refine Prod.ext rfl (List.map_congr_left fun j hj => ?_)
    rw [ends_step_of_ne c.policy (hne j hj)]

/-- **A step leaves the order as it is or puts the call that takes it at the end.** -/
theorem Progress.step (h : Progress s now c candidates r order) (hr : Running s now c candidates r)
    (hfree : CollisionFree s (Involved c candidates)) (i : ι) :
    Progress s now c candidates (r.step s now i) order ∨
      i ∉ order ∧ Progress s now c candidates (r.step s now i) (order ++ [i]) := by
  rcases AppendCall.step_quiet_or_effective (hr.underWay i) hr.history
    (hfree.mono hr.blocks_involved) with ⟨hchain, hends⟩ | ⟨hbefore, result, hafter, hrun⟩
  · rw [hr.policy_eq] at hends
    left
    refine h.step_of_quiet hchain fun result => ?_
    rw [ends_step_self]
    exact hends result
  · rw [hr.policy_eq] at hbefore hafter
    have hi : i ∉ order := by
      intro hmem
      obtain ⟨result, hresult⟩ := (h.mem_iff i).mp hmem
      exact hbefore result hresult
    right
    refine ⟨hi, h.step_of_effective hi ?_ hrun⟩
    rw [ends_step_self]
    exact hafter

/-! ### Whole runs -/

theorem running_run (hc : Chain.Reachable s c)
    (hfree : CollisionFree s (Involved c candidates)) (schedule : List ι) :
    Running s now c candidates (run s now c candidates schedule) := by
  induction schedule using List.reverseRecOn with
  | nil => exact running_start hc candidates
  | append_singleton schedule i ih =>
    rw [run_concat]
    exact ih.step hfree i

/-- **No block is lost** from one moment of a run to a later one. -/
theorem blocks_prefix_run (hc : Chain.Reachable s c)
    (hfree : CollisionFree s (Involved c candidates)) {earlier : List ι}
    (hearlier : earlier <+: schedule) :
    (run s now c candidates earlier).chain.blocks <+:
      (run s now c candidates schedule).chain.blocks := by
  obtain ⟨later, rfl⟩ := hearlier
  induction later using List.reverseRecOn with
  | nil => rw [List.append_nil]
  | append_singleton later i ih =>
    rw [← List.append_assoc, run_concat]
    obtain ⟨accepted, hacc, -⟩ := (running_run hc hfree (earlier ++ later)).exists_accepts hfree i
    exact ih.trans ⟨accepted, hacc.blocks_eq.symm⟩

/-- One more step keeps an order in accord with what ended before what began, if every call of the
order has begun. -/
theorem realTime_concat {k : ι}
    (hreal : order.Pairwise fun i j => ¬ EndsBefore s now c candidates schedule j i)
    (hbegun : ∀ i ∈ order, ∀ b, (run s now c candidates (schedule ++ [k])).calls i ≠ .reading b) :
    order.Pairwise fun i j => ¬ EndsBefore s now c candidates (schedule ++ [k]) j i := by
  refine hreal.imp_of_mem fun {i j} hi _ hij hends => ?_
  rcases endsBefore_concat hends with hends | ⟨b, hreading⟩
  · exact hij hends
  · exact hbegun i hi b hreading

/-- **Some order of the calls that took effect** agrees with the run and with what ended before what
began. -/
theorem exists_progress (hc : Chain.Reachable s c) (now : UInt64)
    (hfree : CollisionFree s (Involved c candidates)) (schedule : List ι) :
    ∃ order, Progress s now c candidates (run s now c candidates schedule) order ∧
      order.Pairwise fun i j => ¬ EndsBefore s now c candidates schedule j i := by
  induction schedule using List.reverseRecOn with
  | nil => exact ⟨[], progress_start c candidates, List.Pairwise.nil⟩
  | append_singleton schedule k ih =>
    obtain ⟨order, h, hreal⟩ := ih
    have hrunning : Running s now c candidates (run s now c candidates schedule) :=
      running_run hc hfree schedule
    rcases h.step hrunning hfree k with hstep | ⟨hk, hstep⟩
    · rw [← run_concat] at hstep
      exact ⟨order, hstep, realTime_concat hreal fun _ => hstep.ne_reading⟩
    · rw [← run_concat] at hstep
      have hbegun : ∀ i ∈ order, ∀ b,
          (run s now c candidates (schedule ++ [k])).calls i ≠ .reading b :=
        fun _ hi => hstep.ne_reading (List.mem_append_left _ hi)
      refine ⟨order ++ [k], hstep, List.pairwise_append.mpr
        ⟨realTime_concat hreal hbegun, List.pairwise_singleton _ _, ?_⟩⟩
      -- the call that takes effect now had not ended before, so nothing began after it
      intro i hi j hj hends
      obtain rfl := List.mem_singleton.mp hj
      rcases endsBefore_concat hends with ⟨earlier, hearlier, ⟨result, hended⟩, -⟩ | ⟨b, hreading⟩
      · exact hk (h.mem_of_finished (run_calls_of_earlier hearlier hended))
      · exact hbegun i hi b hreading

theorem Progress.explains (h : Progress s now c candidates (run s now c candidates schedule) order)
    (hreal : order.Pairwise fun i j => ¬ EndsBefore s now c candidates schedule j i) :
    Explains s now c candidates schedule
      (order.filter fun i => ((run s now c candidates schedule).calls i).ended) := by
  have hturn := inTurn_filter h.inTurn_eq
    (p := fun i => ((run s now c candidates schedule).calls i).ended) ?_
  · refine ⟨h.nodup.filter _, fun i => ?_, hreal.filter _, ?_, ?_⟩
    · rw [List.mem_filter, AppendCall.ended_iff]
      constructor
      · exact And.right
      · rintro ⟨result, hresult⟩
        exact ⟨h.mem_of_finished hresult, result, hresult⟩
    · rw [hturn]
    · rw [hturn]
      refine List.map_congr_left fun i hi => ?_
      obtain ⟨result, hresult⟩ := AppendCall.ended_iff.mp (List.mem_filter.mp hi).2
      rw [ends, hresult]
      rfl
  · intro i hi hended
    obtain ⟨result, hresult⟩ := (h.mem_iff i).mp hi
    exact AppendCall.rejected_of_settle hresult hended

/-! ### What racing calls leave -/

theorem Explains.blocks_run (h : Explains s now c candidates schedule order) :
    (run s now c candidates schedule).chain.blocks = c.blocks ++
      (order.filter fun i => ((run s now c candidates schedule).calls i).succeeded).map
        candidates := by
  rw [← h.blocks_eq]
  exact blocks_inTurn (Prod.ext rfl h.calls_eq)

theorem Explains.mem_filter_succeeded (h : Explains s now c candidates schedule order) {i : ι}
    {a : Appended} (hi : (run s now c candidates schedule).calls i = .finished (.ok a)) :
    i ∈ order.filter fun i => ((run s now c candidates schedule).calls i).succeeded :=
  List.mem_filter.mpr ⟨(h.mem_iff i).mpr ⟨_, hi⟩, by rw [hi]; rfl⟩

omit [DecidableEq ι] in
theorem Running.appended_eq (h : Running s now c candidates r) {i : ι} {a : Appended}
    (hi : r.calls i = .finished (.ok a)) : a = (candidates i).appended := by
  have hcall := h.underWay i
  rw [hi] at hcall
  cases hcall
  rfl

theorem Explains.getElem?_height (h : Explains s now c candidates schedule order)
    (hr : Running s now c candidates (run s now c candidates schedule)) {i : ι} {a : Appended}
    (hi : (run s now c candidates schedule).calls i = .finished (.ok a)) :
    (run s now c candidates schedule).chain.blocks[a.height.toNat]? = some (candidates i) := by
  have hmem : candidates i ∈ (run s now c candidates schedule).chain.blocks := by
    rw [h.blocks_run]
    exact List.mem_append_right _ (List.mem_map_of_mem (h.mem_filter_succeeded hi))
  obtain ⟨k, hk⟩ := List.mem_iff_getElem?.mp hmem
  have hheight : a.height.toNat = k := by
    rw [hr.appended_eq hi]
    exact hr.history.height_eq hk
  rw [hheight, hk]

/-- **At most one call succeeds for a height.** -/
theorem Explains.eq_of_height_eq (h : Explains s now c candidates schedule order)
    (hr : Running s now c candidates (run s now c candidates schedule)) {i j : ι} {a b : Appended}
    (hi : (run s now c candidates schedule).calls i = .finished (.ok a))
    (hj : (run s now c candidates schedule).calls j = .finished (.ok b))
    (hab : a.height = b.height) : i = j := by
  have hblock := h.getElem?_height hr hi
  rw [hab, h.getElem?_height hr hj] at hblock
  have hij : candidates i = candidates j := (Option.some.inj hblock).symm
  -- one block for each success, and no block twice
  have hnodup := hr.history.nodup
  rw [h.blocks_run] at hnodup
  exact List.inj_on_of_nodup_map hnodup.of_append_right (h.mem_filter_succeeded hi)
    (h.mem_filter_succeeded hj) hij

/-- **Racing appends are linearizable.**  Some order of the calls that have ended explains what they
left and how they ended.  Each call that succeeded has its candidate at the index that is its height,
no two of them have the same height, and no block that stood on the chain at any moment is lost. -/
theorem linearizable (hc : Chain.Reachable s c) (now : UInt64) (candidates : ι → Block)
    (hfree : CollisionFree s (Involved c candidates)) (schedule : List ι) :
    let r := run s now c candidates schedule
    (∃ order, Explains s now c candidates schedule order ∧
      r.chain.blocks = c.blocks ++ (order.filter fun i => (r.calls i).succeeded).map candidates) ∧
    (∀ k (b : Block), r.chain.blocks[k]? = some b → b.height.toNat = k) ∧
    (∀ i a, r.calls i = .finished (.ok a) →
      a = (candidates i).appended ∧ r.chain.blocks[a.height.toNat]? = some (candidates i)) ∧
    (∀ i j a b, r.calls i = .finished (.ok a) → r.calls j = .finished (.ok b) →
      a.height = b.height → i = j) ∧
    ∀ earlier, earlier <+: schedule →
      (run s now c candidates earlier).chain.blocks <+: r.chain.blocks := by
  intro r
  have hrunning : Running s now c candidates r := running_run hc hfree schedule
  obtain ⟨order, hprogress, hreal⟩ := exists_progress hc now hfree schedule
  have hexplains := hprogress.explains hreal
  refine ⟨⟨_, hexplains, hexplains.blocks_run⟩, fun _ _ => hrunning.history.height_eq, ?_, ?_,
    fun _ => blocks_prefix_run hc hfree⟩
  · intro i a hi
    exact ⟨hrunning.appended_eq hi, hexplains.getElem?_height hrunning hi⟩
  · intro i j a b hi hj hab
    exact hexplains.eq_of_height_eq hrunning hi hj hab

end Race

namespace Sample

open Suite (small)

def rival : Block := forge small .fixed joiner first ⟨[16], [1]⟩ [] 102

def rivals (i : Bool) : Block := if i then rival else second

theorem collisionFree_rivals : CollisionFree small (Race.Involved founded rivals) := by
  have hfirst : ∀ i, first.contentHash small ≠ (rivals i).contentHash small := by decide +kernel
  have hrivals : (rivals true).contentHash small ≠ (rivals false).contentHash small := by
    decide +kernel
  rintro a b (ha | ⟨i, rfl⟩) (hb | ⟨j, rfl⟩) hab
  · rw [List.mem_singleton.mp ha, List.mem_singleton.mp hb]
  · rw [List.mem_singleton.mp ha] at hab
    exact absurd hab (hfirst j)
  · rw [List.mem_singleton.mp hb] at hab
    exact absurd hab.symm (hfirst i)
  · cases i <;> cases j
    · rfl
    · exact absurd hab.symm hrivals
    · exact absurd hab hrivals
    · rfl

/-- Both rivals are checked before either is committed.  The one that commits first wins. -/
theorem explains_rivals :
    Chain.Reachable small founded ∧ CollisionFree small (Race.Involved founded rivals) ∧
      ∃ order, Race.Explains small 100 founded rivals [false, true, false, true, true, false] order :=
  have h := Race.linearizable reachable_founded 100 rivals collisionFree_rivals
    [false, true, false, true, true, false]
  have ⟨order, horder, _⟩ := h.1
  ⟨reachable_founded, collisionFree_rivals, order, horder⟩

end Sample

end DelayLedger
