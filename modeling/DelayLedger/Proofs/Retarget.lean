import DelayLedger.Retarget

/-!
# Retargeted difficulties

What retargeting towards a slot does, for all slots, difficulties and timestamps.

* `minDifficulty_le_retarget`, `retarget_lt`: the result is at least `minDifficulty`, and a word.
* `retarget_anti`: a child that is stamped later never gets a greater difficulty.
* `retarget_mono`: a greater difficulty never leads to a smaller one.
* `retarget_le_double`, `retarget_of_span_eq`: no difficulty more than doubles, and a round of one slot
  keeps it.
* `retarget_eq_exact`: the span between the timestamps stops at `maxWord`.  Where two slots fit a word,
  a span that stops there is longer than two slots, so it may as well be taken exactly.
-/

namespace DelayLedger.Policy

variable {slot difficulty difficulty' parentTimestamp timestamp timestamp' : Nat}

/-! ### The span and the scaling -/

/-- The milliseconds between two timestamps, up to the greatest word. -/
def span (parentTimestamp timestamp : Nat) : Nat :=
  min ((timestamp - parentTimestamp) * 1000) maxWord

/-- A difficulty multiplied by `2 - e / slot`, for a span of `e` milliseconds. -/
def scaled (slot difficulty e : Nat) : Nat := difficulty * (2 * slot - e) / slot

theorem retarget_eq (slot difficulty parentTimestamp timestamp : Nat) :
    retarget slot difficulty parentTimestamp timestamp =
      if 2 * slot ≤ span parentTimestamp timestamp then minDifficulty
      else max minDifficulty
        (min maxWord (scaled slot difficulty (span parentTimestamp timestamp))) := rfl

theorem span_mono (h : timestamp ≤ timestamp') :
    span parentTimestamp timestamp ≤ span parentTimestamp timestamp' := by
  unfold span
  omega

theorem scaled_anti {e e' : Nat} (h : e ≤ e') : scaled slot difficulty e' ≤ scaled slot difficulty e :=
  Nat.div_le_div_right (Nat.mul_le_mul_left difficulty (Nat.sub_le_sub_left h _))

theorem scaled_mono {e : Nat} (h : difficulty ≤ difficulty') :
    scaled slot difficulty e ≤ scaled slot difficulty' e :=
  Nat.div_le_div_right (Nat.mul_le_mul_right _ h)

theorem scaled_le_double (slot difficulty e : Nat) : scaled slot difficulty e ≤ 2 * difficulty := by
  refine Nat.div_le_of_le_mul ?_
  calc difficulty * (2 * slot - e) ≤ difficulty * (2 * slot) :=
        Nat.mul_le_mul_left difficulty (Nat.sub_le _ _)
    _ = slot * (2 * difficulty) := by rw [Nat.mul_left_comm, Nat.mul_comm difficulty, Nat.mul_left_comm]

theorem scaled_slot (h : 0 < slot) : scaled slot difficulty slot = difficulty := by
  rw [scaled, Nat.two_mul, Nat.add_sub_cancel, Nat.mul_div_cancel _ h]

/-! ### The result -/

theorem minDifficulty_le_retarget (slot difficulty parentTimestamp timestamp : Nat) :
    minDifficulty ≤ retarget slot difficulty parentTimestamp timestamp := by
  rw [retarget_eq]
  split
  · exact Nat.le_refl _
  · exact Nat.le_max_left _ _

theorem retarget_pos (slot difficulty parentTimestamp timestamp : Nat) :
    0 < retarget slot difficulty parentTimestamp timestamp :=
  have hmin : 0 < minDifficulty := by decide
  Nat.lt_of_lt_of_le hmin (minDifficulty_le_retarget ..)

theorem retarget_lt (slot difficulty parentTimestamp timestamp : Nat) :
    retarget slot difficulty parentTimestamp timestamp < UInt64.size := by
  rw [retarget_eq]
  have hmin : minDifficulty < UInt64.size := by decide
  have hmax : maxWord < UInt64.size := by decide
  split
  · exact hmin
  · exact Nat.max_lt.mpr ⟨hmin, Nat.lt_of_le_of_lt (Nat.min_le_left _ _) hmax⟩

/-- **A child that is stamped later never gets a greater difficulty.** -/
theorem retarget_anti (h : timestamp ≤ timestamp') :
    retarget slot difficulty parentTimestamp timestamp' ≤
      retarget slot difficulty parentTimestamp timestamp := by
  have hspan : span parentTimestamp timestamp ≤ span parentTimestamp timestamp' := span_mono h
  by_cases hfloor : 2 * slot ≤ span parentTimestamp timestamp'
  · rw [retarget_eq slot difficulty parentTimestamp timestamp', if_pos hfloor]
    exact minDifficulty_le_retarget ..
  · have hfloor' : ¬ 2 * slot ≤ span parentTimestamp timestamp :=
      fun hle => hfloor (Nat.le_trans hle hspan)
    have hscaled : scaled slot difficulty (span parentTimestamp timestamp') ≤
        scaled slot difficulty (span parentTimestamp timestamp) := scaled_anti hspan
    rw [retarget_eq, retarget_eq, if_neg hfloor, if_neg hfloor']
    omega

/-- **A greater difficulty never leads to a smaller one.** -/
theorem retarget_mono (h : difficulty ≤ difficulty') :
    retarget slot difficulty parentTimestamp timestamp ≤
      retarget slot difficulty' parentTimestamp timestamp := by
  have hscaled : scaled slot difficulty (span parentTimestamp timestamp) ≤
      scaled slot difficulty' (span parentTimestamp timestamp) := scaled_mono h
  rw [retarget_eq, retarget_eq]
  split
  · exact Nat.le_refl _
  · omega

/-- **No difficulty more than doubles**, unless it is raised to the least one. -/
theorem retarget_le_double (slot difficulty parentTimestamp timestamp : Nat) :
    retarget slot difficulty parentTimestamp timestamp ≤ max minDifficulty (2 * difficulty) := by
  have hscaled := scaled_le_double slot difficulty (span parentTimestamp timestamp)
  rw [retarget_eq]
  split
  · exact Nat.le_max_left _ _
  · omega

/-! ### Exact spans -/

/-- A span that stops at the greatest word is still two slots long, where two slots fit a word. -/
theorem two_slots_le_span_iff (hslot : 2 * slot ≤ maxWord) :
    2 * slot ≤ span parentTimestamp timestamp ↔ 2 * slot ≤ (timestamp - parentTimestamp) * 1000 := by
  rw [span, Nat.le_min]
  exact and_iff_left hslot

/-- **That the span stops makes no difference** where two slots fit a word. -/
theorem retarget_eq_exact (hslot : 2 * slot ≤ maxWord)
    (difficulty parentTimestamp timestamp : Nat) :
    retarget slot difficulty parentTimestamp timestamp =
      if 2 * slot ≤ (timestamp - parentTimestamp) * 1000 then minDifficulty
      else max minDifficulty
        (min maxWord (scaled slot difficulty ((timestamp - parentTimestamp) * 1000))) := by
  rw [retarget_eq]
  by_cases hfloor : 2 * slot ≤ (timestamp - parentTimestamp) * 1000
  · rw [if_pos hfloor, if_pos ((two_slots_le_span_iff hslot).mpr hfloor)]
  · have hexact : span parentTimestamp timestamp = (timestamp - parentTimestamp) * 1000 :=
      Nat.min_eq_left (Nat.le_trans (Nat.le_of_not_le hfloor) hslot)
    rw [if_neg hfloor, hexact, if_neg hfloor]

/-- **A round of one slot keeps the difficulty**, unless it is below the least one. -/
theorem retarget_of_span_eq (hpos : 0 < slot) (hslot : 2 * slot ≤ maxWord)
    (hdifficulty : difficulty ≤ maxWord) (h : (timestamp - parentTimestamp) * 1000 = slot) :
    retarget slot difficulty parentTimestamp timestamp = max minDifficulty difficulty := by
  have hshort : ¬ 2 * slot ≤ slot := by omega
  rw [retarget_eq_exact hslot, h, if_neg hshort, scaled_slot hpos, Nat.min_eq_right hdifficulty]

/-! ### Policies -/

theorem toNat_next_slotTarget (slot difficulty parentTimestamp timestamp : UInt64) :
    ((slotTarget slot).next difficulty parentTimestamp timestamp).toNat =
      retarget slot.toNat difficulty.toNat parentTimestamp.toNat timestamp.toNat :=
  UInt64.toNat_ofNat_of_lt' (retarget_lt ..)

theorem next_slotTarget_anti {slot difficulty parentTimestamp timestamp timestamp' : UInt64}
    (h : timestamp ≤ timestamp') :
    (slotTarget slot).next difficulty parentTimestamp timestamp' ≤
      (slotTarget slot).next difficulty parentTimestamp timestamp := by
  rw [UInt64.le_iff_toNat_le, toNat_next_slotTarget, toNat_next_slotTarget]
  exact retarget_anti (UInt64.le_iff_toNat_le.mp h)

theorem next_slotTarget_mono {slot difficulty difficulty' parentTimestamp timestamp : UInt64}
    (h : difficulty ≤ difficulty') :
    (slotTarget slot).next difficulty parentTimestamp timestamp ≤
      (slotTarget slot).next difficulty' parentTimestamp timestamp := by
  rw [UInt64.le_iff_toNat_le, toNat_next_slotTarget, toNat_next_slotTarget]
  exact retarget_mono (UInt64.le_iff_toNat_le.mp h)

/-- **No policy prescribes a difficulty of zero** after one that is positive. -/
theorem next_ne_zero {policy : Policy} {difficulty parentTimestamp timestamp : UInt64}
    (h : difficulty ≠ 0) : policy.next difficulty parentTimestamp timestamp ≠ 0 := by
  cases policy with
  | fixed => exact h
  | slotTarget slot =>
    intro hzero
    have hpos := retarget_pos slot.toNat difficulty.toNat parentTimestamp.toNat timestamp.toNat
    rw [← toNat_next_slotTarget, hzero] at hpos
    exact Nat.lt_irrefl 0 hpos

end DelayLedger.Policy
