import DelayLedger.Proofs.Round.Outcome

/-!
# No request is lost

A round looks at the queue twice: it forges a block of the requests that it finds, and when the block
has landed it lets go of those that the block records and of those that have become too old.  Requests
that come in between are safe.

* `produced_step`: a round produces by settling the queue, and in no other way.
* `exists_settling`: every round that has produced has such a moment.
* `no_request_lost`: what may be missing from the queue after that, and from any other queue.
-/

namespace DelayLedger

namespace Round

variable {s : Suite} {c : Chain} {r : Round} {a : Appended}

theorem hear_ne_produced : r.hear c ≠ .done (.produced a) := by
  rw [hear]
  split
  · simp
  split
  · rw [superseded]
    split
    · simp
    · simp
  · simp

theorem finishDelay_ne_produced {abort : Nat → Bool} :
    r.finishDelay s abort ≠ .done (.produced a) := by
  rw [finishDelay]
  split
  · split
    · simp
    · simp
    · simp
  · simp

theorem stop_ne_produced : r.stop ≠ .done (.produced a) := by
  rw [stop]
  split
  · simp
  · simp
  · simp

theorem proceed_eq_produced {now : UInt64} {p : Participant}
    (h : (r.proceed s now p c).1 = .done (.produced a)) :
    ∃ b, r.phase = .settling b ∧ a = b.appended := by
  rw [proceed] at h
  cases hphase : r.phase with
  | settling b =>
    rw [hphase] at h
    injection h with h
    injection h with h
    exact ⟨b, rfl, h.symm⟩
  | appending b call =>
    rw [hphase] at h
    dsimp only at h
    split at h
    · simp at h
    · simp at h
    · simp at h
  | _ =>
    rw [hphase] at h
    simp at h

end Round

namespace Scene

variable {s : Suite} {x : Scene} {r : Round} {a : Appended} {e : Event}

theorem stage_eq_produced {progress : Progress} (h : progress.stage = .ended (.produced a)) :
    progress = .done (.produced a) := by
  cases progress with
  | going r => simp [Progress.stage] at h
  | done outcome =>
    injection h with h
    rw [h]

/-- **A round produces by settling the queue**, and in no other way. -/
theorem produced_step (h : (x.step s e).stage = .ended (.produced a))
    (hx : x.stage ≠ .ended (.produced a)) :
    ∃ now r b, e = .proceed now ∧ x.stage = .running r ∧ r.phase = .settling b ∧ a = b.appended := by
  cases e with
  | proceed now =>
    rw [step, during] at h
    split at h
    · next r hstage =>
      obtain ⟨b, hphase, ha⟩ := Round.proceed_eq_produced (stage_eq_produced h)
      exact ⟨now, r, b, rfl, hstage, hphase, ha⟩
    · exact absurd h hx
  | join =>
    rw [step] at h
    split at h
    · dsimp only at h
      split at h <;> simp at h
    · exact absurd h hx
  | readTip =>
    rw [step] at h
    split at h
    · simp at h
    · exact absurd h hx
  | hear =>
    rw [step, during] at h
    split at h
    · split at h
      · split at h
        · simp at h
        · exact absurd (stage_eq_produced h) Round.hear_ne_produced
      · exact absurd h hx
    · exact absurd h hx
  | finishDelay abort =>
    rw [step] at h
    split at h
    · exact absurd (stage_eq_produced h) Round.finishDelay_ne_produced
    · simp at h
    · exact absurd h hx
  | heedStop =>
    rw [step, during] at h
    split at h
    · split at h
      · exact absurd (stage_eq_produced h) Round.stop_ne_produced
      · exact absurd h hx
    · exact absurd h hx
  | advance i now =>
    rw [step] at h
    split at h <;> exact absurd h hx
  | publish i =>
    rw [step] at h
    split at h <;> exact absurd h hx
  | _ => exact absurd h hx

/-- **A round that has produced has settled the queue** at some moment, and that was when it ended. -/
theorem exists_settling {events : List Event} (h : (x.run s events).stage = .ended (.produced a))
    (hx : x.stage ≠ .ended (.produced a)) :
    ∃ earlier now later r b, events = earlier ++ .proceed now :: later ∧
      (x.run s earlier).stage = .running r ∧ r.phase = .settling b ∧ a = b.appended := by
  induction events using List.reverseRecOn with
  | nil => exact absurd h hx
  | append_singleton events e ih =>
    by_cases hbefore : (x.run s events).stage = .ended (.produced a)
    · obtain ⟨earlier, now, later, r, b, rfl, hsettling⟩ := ih hbefore
      exact ⟨earlier, now, later ++ [e], r, b, List.append_assoc .., hsettling⟩
    · rw [run_concat] at h
      obtain ⟨now, r, b, rfl, hstage, hphase, ha⟩ := produced_step h hbefore
      exact ⟨events, now, [], r, b, rfl, hstage, hphase, ha⟩

/-! ### The queue in the course of a run -/

theorem valid_queue_run (h : x.node.queue.Valid s) (events : List Event) :
    (x.run s events).node.queue.Valid s := by
  induction events using List.reverseRecOn with
  | nil => exact h
  | append_singleton events e ih =>
    rw [run_concat]
    rcases queue_step s (x.run s events) e with hqueue | ⟨now, r, b, rfl, hstage, hphase⟩
    · rw [hqueue]
      exact ih.foldl_offer _
    · rw [step_proceed_settling hstage hphase]
      exact ih.settle b.changes b.height

theorem queue_run_of_ended {outcome : RoundOutcome} (h : x.stage = .ended outcome)
    (events : List Event) :
    (x.run s events).node.queue =
      (Event.requests events).foldl (Queue.offer s) x.node.queue := by
  induction events using List.reverseRecOn with
  | nil => rfl
  | append_singleton events e ih =>
    rw [run_concat]
    rcases queue_step s (x.run s events) e with hqueue | ⟨now, r, b, rfl, hstage, -⟩
    · rw [hqueue, ih, Event.requests_concat, List.foldl_append]
    · rw [stage_run_of_ended h events] at hstage
      contradiction

/-- **What a settled queue lacks** is what the block records and what no later block may record, and
all that is left may still be recorded. -/
theorem mem_queue_settling {now : UInt64} {b : Block} {d : Change} (hstage : x.stage = .running r)
    (hphase : r.phase = .settling b) :
    d ∈ (x.step s (.proceed now)).node.queue ↔
      d ∈ x.node.queue ∧ d ∉ b.changes ∧ Queue.isUsable b.height d = true := by
  rw [step_proceed_settling hstage hphase]
  exact Queue.mem_settle

/-- **A request that is too old for a height** is so for every parent at the height or above. -/
theorem expired_of_not_isUsable {height : UInt64} {d : Change}
    (h : ¬ Queue.isUsable height d = true) :
    d.requestedAt.toNat + 64 < height.toNat ∧
      ∀ parent : UInt64, height ≤ parent → d.isFresh parent = false := by
  refine ⟨?_, fun parent hparent => Bool.eq_false_iff.mpr fun hfresh => ?_⟩
  · exact Nat.lt_of_not_le fun hle => h (Queue.isUsable_iff.mpr hle)
  · exact h (Queue.isUsable_iff_exists_isFresh.mpr ⟨parent, hparent, hfresh⟩)

/-- **A round lets go of requests** with its last step, `b` being the node's block.  Whatever moment
came before: a request that was in the queue then, or was accepted since, is missing only if it was
replaced, or the block records it, or no block above it may.  What is not missing may still be
recorded. -/
structure Settles (s : Suite) (start : Scene) (earlier : List Event) (now : UInt64) (b : Block) :
    Prop where
  own_eq : (start.run s earlier).own = [b]
  ended : (start.run s (earlier ++ [.proceed now])).outcome? = some (.produced b.appended)
  missing : ∀ before since, earlier = before ++ since → ∀ d : Change,
    (d ∈ (start.run s before).node.queue ∨ d ∈ Event.requests since ∧ d.isSigned s = true) →
    d ∉ (start.run s (earlier ++ [.proceed now])).node.queue →
    Queue.Replaced s (Event.requests since) d ∨ d ∈ b.changes ∨
      d.requestedAt.toNat + 64 < b.height.toNat ∧
        ∀ parent : UInt64, b.height ≤ parent → d.isFresh parent = false
  kept : ∀ d ∈ (start.run s (earlier ++ [.proceed now])).node.queue,
    ∃ parent : UInt64, b.height ≤ parent ∧ d.isFresh parent = true

theorem mem_queue_or_replaced {before since : List Event} (hq : x.node.queue.Valid s)
    (h : ∀ a, (x.run s (before ++ since)).outcome? ≠ some (.produced a)) {d : Change}
    (hd : d ∈ (x.run s before).node.queue ∨ d ∈ Event.requests since ∧ d.isSigned s = true) :
    d ∈ (x.run s (before ++ since)).node.queue ∨ Queue.Replaced s (Event.requests since) d := by
  rw [run_append] at h ⊢
  rw [queue_run since h]
  exact Queue.mem_foldl_offer_or_replaced (valid_queue_run hq before) hd

theorem settles_of_settling {p : Participant} {c : Chain} {earlier : List Event} {now : UInt64}
    {b : Block} (hq : x.node.queue.Valid s) (h : Coherent s p c (x.run s earlier))
    (hstage : (x.run s earlier).stage = .running r) (hphase : r.phase = .settling b) :
    Settles s x earlier now b where
  own_eq := by
    obtain ⟨-, -, -, hholds⟩ := h.holds_at hstage
    rw [hphase] at hholds
    exact Produced.own_eq hholds
  ended := by
    rw [run_concat, step_proceed_settling hstage hphase]
    rfl
  missing := by
    rintro before since rfl d hd hmissing
    have hrunning : ∀ a, (x.run s (before ++ since)).outcome? ≠ some (.produced a) := by
      intro a hended
      rw [outcome?_eq_some_iff, hstage] at hended
      contradiction
    rcases mem_queue_or_replaced hq hrunning hd with hmem | hreplaced
    · rw [run_concat, mem_queue_settling hstage hphase] at hmissing
      by_cases hrecorded : d ∈ b.changes
      · exact Or.inr (Or.inl hrecorded)
      · refine Or.inr (Or.inr (expired_of_not_isUsable fun husable => ?_))
        exact hmissing ⟨hmem, hrecorded, husable⟩
    · exact Or.inl hreplaced
  kept d hd := by
    rw [run_concat, mem_queue_settling hstage hphase] at hd
    exact Queue.isUsable_iff_exists_isFresh.mp hd.2.2

/-- **No request is lost.**  At every moment the queue holds signed requests only, one of an identity.
While the round has not produced, and if it never does, a request leaves only by being replaced.  If it
has, that was with a step that settles the queue (`Settles`), and since then a request leaves only by
being replaced. -/
theorem no_request_lost {c : Chain} (hc : c.Reachable s) {p : Participant} {late : List Block}
    (hlate : ∀ b ∈ late, b ∈ c.blocks) (hq : p.queue.Valid s) (events : List Event) :
    let start := before p c late
    (start.run s events).node.queue.Valid s ∧
    ((∀ a, (start.run s events).outcome? ≠ some (.produced a)) →
      ∀ before since, events = before ++ since → ∀ d : Change,
        (d ∈ (start.run s before).node.queue ∨ d ∈ Event.requests since ∧ d.isSigned s = true) →
        d ∈ (start.run s events).node.queue ∨ Queue.Replaced s (Event.requests since) d) ∧
    ∀ a, (start.run s events).outcome? = some (.produced a) →
      ∃ earlier now later b, events = earlier ++ .proceed now :: later ∧ a = b.appended ∧
        Settles s start earlier now b ∧
        ∀ d : Change,
          (d ∈ (start.run s (earlier ++ [.proceed now])).node.queue ∨
            d ∈ Event.requests later ∧ d.isSigned s = true) →
          d ∈ (start.run s events).node.queue ∨ Queue.Replaced s (Event.requests later) d := by
  intro start
  refine ⟨valid_queue_run hq events, ?_, ?_⟩
  · rintro hrunning before since rfl d hd
    exact mem_queue_or_replaced hq hrunning hd
  · intro a hended
    obtain ⟨earlier, now, later, r, b, rfl, hstage, hphase, rfl⟩ :=
      exists_settling (outcome?_eq_some_iff.mp hended) nofun
    have hsettles : Settles s start earlier now b :=
      settles_of_settling hq ((coherent_before hc p hlate).run earlier) hstage hphase
    refine ⟨earlier, now, later, b, rfl, rfl, hsettles, fun d hd => ?_⟩
    have hsplit : earlier ++ .proceed now :: later = earlier ++ [.proceed now] ++ later := by simp
    have hstopped := outcome?_eq_some_iff.mp hsettles.ended
    rw [hsplit, run_append, queue_run_of_ended hstopped]
    exact Queue.mem_foldl_offer_or_replaced (valid_queue_run hq _) hd

end Scene

namespace Sample

open Suite (small)

/-- A request to join that is made again, one block higher, while the block that records it is on its
way. -/
def asking : List Event :=
  [.join, .readTip, .finishDelay fun _ => true, .request (Change.signed small joiner .join 0),
    .proceed 100, .proceed 100, .request (Change.signed small joiner .join 1), .proceed 100,
    .proceed 100, .proceed 100]

/-- The request that is recorded leaves, and the one that took its place stays. -/
theorem queue_run_asking :
    let start := Scene.before worker founded []
    Chain.Reachable small founded ∧ Queue.Valid small worker.queue ∧
      (start.run small asking).node.queue.Valid small ∧
      (start.run small asking).node.queue = [Change.signed small joiner .join 1] ∧
      ∃ earlier now b, Scene.Settles small start earlier now b := by
  have hlate := List.forall_mem_nil (· ∈ founded.blocks)
  have hq : Queue.Valid small worker.queue := Queue.valid_nil small
  obtain ⟨hvalid, -, hproduced⟩ := Scene.no_request_lost reachable_founded hlate hq asking
  have hended : ((Scene.before worker founded []).run small asking).outcome? =
      some (.produced ((Scene.before worker founded []).run small asking).chain.tip.appended) := by
    decide +kernel
  have hqueue : ((Scene.before worker founded []).run small asking).node.queue =
      [Change.signed small joiner .join 1] := by
    decide +kernel
  obtain ⟨earlier, now, -, b, -, -, hsettles, -⟩ := hproduced _ hended
  exact ⟨reachable_founded, hq, hvalid, hqueue, earlier, now, b, hsettles⟩

end Sample

end DelayLedger
