import Mathlib.Data.List.Nodup
import DelayLedger.Schedule

/-!
# Duties

A schedule shows the duties of a round in two ways: by its producer and its committee, which are cut
out of the ordering, and by the rank that each identity has in it.  In an ordering without duplicates a
rank is a place (`rank?_eq_some_iff`), and the two agree (`duties_agree`).
-/

namespace DelayLedger

namespace Schedule

variable {x : Schedule} {identity : Bytes}

/-- **A rank is a place in the ordering**, which holds everyone once. -/
theorem rank?_eq_some_iff (h : x.ordering.Nodup) {place : Nat} :
    x.rank? identity = some place ↔ x.ordering[place]? = some identity := by
  rw [rank?, List.findIdx?_eq_some_iff_getElem, List.getElem?_eq_some_iff]
  constructor
  · rintro ⟨hlt, hfound, -⟩
    exact ⟨hlt, beq_iff_eq.mp hfound⟩
  · rintro ⟨hlt, hat⟩
    refine ⟨hlt, beq_iff_eq.mpr hat, fun earlier hearlier hfound => ?_⟩
    have hsame := h.getElem_inj_iff.mp ((beq_iff_eq.mp hfound).trans hat.symm)
    exact absurd hsame (Nat.ne_of_lt hearlier)

theorem rank?_eq_none_iff : x.rank? identity = none ↔ identity ∉ x.ordering := by
  rw [rank?, List.findIdx?_eq_none_iff]
  constructor
  · intro h hmem
    exact absurd rfl (beq_eq_false_iff_ne.mp (h identity hmem))
  · intro h other hother
    rw [beq_eq_false_iff_ne]
    rintro rfl
    exact h hother

theorem producer?_eq : x.producer? = x.ordering[0]? := List.head?_eq_getElem? ..

theorem mem_committee_iff :
    identity ∈ x.committee ↔
      ∃ place, 0 < place ∧ place ≤ x.committeeSize ∧ x.ordering[place]? = some identity := by
  rw [committee, List.mem_iff_getElem?]
  constructor
  · rintro ⟨i, hi⟩
    rw [List.getElem?_take] at hi
    split at hi
    · next hlt =>
      rw [List.getElem?_drop] at hi
      exact ⟨1 + i, by omega, by omega, hi⟩
    · contradiction
  · rintro ⟨place, hpos, hle, hat⟩
    refine ⟨place - 1, ?_⟩
    rw [List.getElem?_take, if_pos (by omega), List.getElem?_drop, Nat.add_sub_cancel' hpos]
    exact hat

theorem length_committee :
    x.committee.length = min x.committeeSize (x.ordering.length - 1) := by
  rw [committee, List.length_take, List.length_drop]

/-- The committee is a part of the ordering that is cut off where the ordering ends. -/
theorem committee_eq_extract :
    x.committee = x.ordering.extract 1 (min x.ordering.length (1 + x.committeeSize)) := by
  rw [committee, List.extract_eq_take_drop, List.take_eq_take_iff, List.length_drop]
  omega

/-! ### By rank -/

theorem dutyOf_eq_producer_iff (h : x.ordering.Nodup) :
    x.dutyOf identity = .producer ↔ x.producer? = some identity := by
  rw [producer?_eq, ← rank?_eq_some_iff h, dutyOf]
  cases x.rank? identity with
  | none => simp
  | some rank =>
    cases rank with
    | zero => simp
    | succ rank => by_cases hle : rank + 1 ≤ x.committeeSize <;> simp [hle]

theorem dutyOf_eq_committee_iff (h : x.ordering.Nodup) :
    x.dutyOf identity = .committee ↔ identity ∈ x.committee := by
  simp only [mem_committee_iff, ← rank?_eq_some_iff h]
  rw [dutyOf]
  cases x.rank? identity with
  | none => simp
  | some rank =>
    cases rank with
    | zero => simp
    | succ rank => by_cases hle : rank + 1 ≤ x.committeeSize <;> simp [hle]

theorem not_mem_committee_of_producer?_eq (h : x.ordering.Nodup)
    (hproducer : x.producer? = some identity) : identity ∉ x.committee := by
  intro hmem
  have hduty := (dutyOf_eq_producer_iff h).mpr hproducer
  rw [(dutyOf_eq_committee_iff h).mpr hmem] at hduty
  contradiction

theorem dutyOf_eq_validator_iff (h : x.ordering.Nodup) :
    x.dutyOf identity = .validator ↔ x.producer? ≠ some identity ∧ identity ∉ x.committee := by
  rw [ne_eq, ← dutyOf_eq_producer_iff h, ← dutyOf_eq_committee_iff h]
  cases x.dutyOf identity <;> simp

theorem dutyOf_of_not_mem (h : identity ∉ x.ordering) : x.dutyOf identity = .validator := by
  rw [dutyOf, rank?_eq_none_iff.mpr h]

/-- **Both views of a schedule agree**, if nobody is listed twice.  An identity has the duty to produce,
to sit on the committee or only to validate according to whether it is the producer, is on the
committee, or is neither, outsiders included; the producer is never on the committee; the committee has
the size that is asked for, unless fewer are left; ranks are places; and where anybody is listed one
identity has the duty to produce. -/
theorem duties_agree (x : Schedule) (h : x.ordering.Nodup) :
    (∀ identity,
      (x.dutyOf identity = .producer ↔ x.producer? = some identity) ∧
        (x.dutyOf identity = .committee ↔ identity ∈ x.committee) ∧
        (x.dutyOf identity = .validator ↔
          x.producer? ≠ some identity ∧ identity ∉ x.committee) ∧
        (identity ∉ x.ordering → x.dutyOf identity = .validator) ∧
        (x.producer? = some identity → identity ∉ x.committee)) ∧
      x.committee = x.ordering.extract 1 (min x.ordering.length (1 + x.committeeSize)) ∧
      x.committee.length = min x.committeeSize (x.ordering.length - 1) ∧
      (∀ identity place,
        x.rank? identity = some place ↔ x.ordering[place]? = some identity) ∧
      (x.ordering ≠ [] → ∃! identity, x.dutyOf identity = .producer) := by
  refine ⟨fun identity => ⟨dutyOf_eq_producer_iff h, dutyOf_eq_committee_iff h,
    dutyOf_eq_validator_iff h, dutyOf_of_not_mem, not_mem_committee_of_producer?_eq h⟩,
    committee_eq_extract, length_committee, fun _ _ => rank?_eq_some_iff h, fun hsome => ?_⟩
  obtain ⟨first, rest, hfirst⟩ := List.exists_cons_of_ne_nil hsome
  have hproducer : x.producer? = some first := by rw [producer?, hfirst, List.head?_cons]
  refine ⟨first, (dutyOf_eq_producer_iff h).mpr hproducer, fun other hother => ?_⟩
  have hagain := (dutyOf_eq_producer_iff h).mp hother
  rw [hproducer] at hagain
  exact (Option.some.inj hagain).symm

end Schedule

def Sample.three : Schedule := ⟨[[1], [2], [3]], 5⟩

theorem Sample.duties_of_three :
    three.ordering.Nodup ∧ three.dutyOf [1] = .producer ∧ three.dutyOf [3] = .committee ∧
      three.dutyOf [4] = .validator := by
  have hnodup : three.ordering.Nodup := by decide
  have hagree := (Schedule.duties_agree three hnodup).1
  exact ⟨hnodup, (hagree [1]).1.mpr rfl, (hagree [3]).2.1.mpr (by decide),
    (hagree [4]).2.2.2.1 (by decide)⟩

end DelayLedger
