import Mathlib
import DelayLedger.Proofs.Retarget

/-!
# Retargeting in machine words

`Policy.retargetInWords` retargets with words of 64 bits for what is read and returned and double words
of 128 bits in between.  Two of its steps stop at the ends of their range; every other one has to fit,
or there is no result.

* `DoubleWord.product?_eq_some_iff`, `difference?_eq_some_iff`, `quotient?_eq_some_iff`: a step has the
  result that exact arithmetic has, or none.
* `Policy.retargetInWords_eq`: where two slots fit a word, every step fits.
* `Policy.next_exact_and_ordered`: the difficulty that is prescribed, and how it depends on the
  timestamp and on the difficulty before.
-/

namespace DelayLedger

/-! ### Words -/

/-- The difference of two words, zero where it would be negative. -/
def subFloored (x y : UInt64) : UInt64 := if x < y then 0 else x - y

/-- The product of two words, the greatest word where it is none. -/
def mulCapped (x y : UInt64) : UInt64 :=
  if x.toBitVec.umulOverflow y.toBitVec then UInt64.ofNat maxWord else x * y

theorem toNat_subFloored (x y : UInt64) : (subFloored x y).toNat = x.toNat - y.toNat := by
  rw [subFloored]
  split
  · next h =>
    rw [UInt64.lt_iff_toNat_lt] at h
    rw [Nat.sub_eq_zero_of_le (Nat.le_of_lt h)]
    rfl
  · next h =>
    exact UInt64.toNat_sub_of_le x y (UInt64.not_lt.mp h)

theorem toNat_mulCapped (x y : UInt64) :
    (mulCapped x y).toNat = min (x.toNat * y.toNat) maxWord := by
  have hsize : 2 ^ 64 = maxWord + 1 := rfl
  rw [mulCapped]
  split
  · next h =>
    have hover : 2 ^ 64 ≤ x.toNat * y.toNat := of_decide_eq_true h
    rw [UInt64.toNat_ofNat_of_lt' (by decide), Nat.min_eq_right (by omega)]
  · next h =>
    have hfits : x.toNat * y.toNat < 2 ^ 64 := Nat.lt_of_not_le fun hle => h (decide_eq_true hle)
    rw [UInt64.toNat_mul, Nat.mod_eq_of_lt hfits, Nat.min_eq_left (by omega)]

abbrev DoubleWord := BitVec 128

namespace DoubleWord

def ofWord (w : UInt64) : DoubleWord := BitVec.setWidth 128 w.toBitVec

def toWord (x : DoubleWord) : UInt64 := UInt64.ofBitVec (BitVec.setWidth 64 x)

def product? (x y : DoubleWord) : Option DoubleWord :=
  if BitVec.umulOverflow x y then none else some (x * y)

def difference? (x y : DoubleWord) : Option DoubleWord :=
  if BitVec.usubOverflow x y then none else some (x - y)

def quotient? (x y : DoubleWord) : Option DoubleWord := if y = 0 then none else some (x / y)

variable {x y z : DoubleWord}

@[simp] theorem toNat_ofWord (w : UInt64) : (ofWord w).toNat = w.toNat := by
  have hsize : 2 ^ 64 ≤ 2 ^ 128 := Nat.pow_le_pow_right (by decide) (by decide)
  rw [ofWord, BitVec.toNat_setWidth, UInt64.toNat_toBitVec,
    Nat.mod_eq_of_lt (Nat.lt_of_lt_of_le w.toNat_lt hsize)]

theorem toNat_toWord (h : x.toNat < 2 ^ 64) : (toWord x).toNat = x.toNat := by
  show (BitVec.setWidth 64 x).toNat = x.toNat
  rw [BitVec.toNat_setWidth, Nat.mod_eq_of_lt h]

theorem exists_toNat_eq {n : Nat} (h : n < 2 ^ 128) : ∃ x : DoubleWord, x.toNat = n :=
  ⟨BitVec.ofNat 128 n, (BitVec.toNat_ofNat n 128).trans (Nat.mod_eq_of_lt h)⟩

theorem product?_eq_some_iff : product? x y = some z ↔ z.toNat = x.toNat * y.toNat := by
  rw [product?]
  split
  · next h =>
    have hover : 2 ^ 128 ≤ x.toNat * y.toNat := of_decide_eq_true h
    have hz := z.isLt
    exact iff_of_false nofun (by omega)
  · next h =>
    rw [Option.some.injEq, ← BitVec.toNat_inj, BitVec.toNat_mul_of_not_umulOverflow h]
    exact eq_comm

theorem difference?_eq_some_iff : difference? x y = some z ↔ z.toNat + y.toNat = x.toNat := by
  rw [difference?]
  split
  · next h =>
    have hover : x.toNat < y.toNat := of_decide_eq_true h
    exact iff_of_false nofun (by omega)
  · next h =>
    have hfits : y.toNat ≤ x.toNat := Nat.le_of_not_lt fun hlt => h (decide_eq_true hlt)
    rw [Option.some.injEq, ← BitVec.toNat_inj, BitVec.toNat_sub_of_not_usubOverflow h]
    omega

theorem quotient?_eq_some_iff :
    quotient? x y = some z ↔ y.toNat ≠ 0 ∧ z.toNat = x.toNat / y.toNat := by
  rw [quotient?]
  split
  · next h =>
    rw [h]
    exact iff_of_false nofun fun hne => hne.1 rfl
  · next h =>
    have hne : y.toNat ≠ 0 := fun hzero => h (BitVec.eq_of_toNat_eq hzero)
    rw [Option.some.injEq, ← BitVec.toNat_inj, BitVec.toNat_udiv, and_iff_right hne]
    exact eq_comm

end DoubleWord

namespace Policy

def inRange (scaled : DoubleWord) : UInt64 :=
  let greatest := DoubleWord.ofWord (UInt64.ofNat maxWord)
  max (DoubleWord.toWord (if greatest < scaled then greatest else scaled))
    (UInt64.ofNat minDifficulty)

/-- A difficulty multiplied by `2 - e / slot`, `budget` being two slots.  Each step has to fit 128
bits. -/
def scaledInWords (slot difficulty : UInt64) (budget elapsed : DoubleWord) : Option DoubleWord := do
  let left ← DoubleWord.difference? budget elapsed
  let product ← DoubleWord.product? (DoubleWord.ofWord difficulty) left
  DoubleWord.quotient? product (DoubleWord.ofWord slot)

/-- Retargeting with words: the span stops at the ends of 64 bits, and what follows has to fit 128
bits. -/
def retargetInWords (slot difficulty parentTimestamp timestamp : UInt64) : Option UInt64 := do
  let elapsed := DoubleWord.ofWord (mulCapped (subFloored timestamp parentTimestamp) 1000)
  let budget ← DoubleWord.product? 2 (DoubleWord.ofWord slot)
  if budget ≤ elapsed then
    return UInt64.ofNat minDifficulty
  let next ← scaledInWords slot difficulty budget elapsed
  return inRange next

theorem toNat_inRange (x : DoubleWord) :
    (inRange x).toNat = max minDifficulty (min maxWord x.toNat) := by
  have hgreatest : (DoubleWord.ofWord (UInt64.ofNat maxWord)).toNat = maxWord := by
    rw [DoubleWord.toNat_ofWord]
    rfl
  have hword : maxWord < 2 ^ 64 := by decide
  have hmin : (UInt64.ofNat minDifficulty).toNat = minDifficulty := rfl
  rw [inRange, UInt64.toNat_max, hmin, Nat.max_comm]
  congr 1
  split
  · next h =>
    rw [BitVec.lt_def, hgreatest] at h
    rw [DoubleWord.toNat_toWord (hgreatest ▸ hword), hgreatest, Nat.min_eq_left (Nat.le_of_lt h)]
  · next h =>
    rw [BitVec.lt_def, hgreatest, Nat.not_lt] at h
    rw [DoubleWord.toNat_toWord (Nat.lt_of_le_of_lt h hword), Nat.min_eq_right h]

variable {slot : UInt64}

/-- **The product and the quotient fit double words**, where two slots fit a word. -/
theorem exists_scaledInWords {budget elapsed : DoubleWord} (hslot : 2 * slot.toNat ≤ maxWord)
    (hbudget : budget.toNat = 2 * slot.toNat) (h : elapsed.toNat < 2 * slot.toNat)
    (difficulty : UInt64) :
    ∃ next, scaledInWords slot difficulty budget elapsed = some next ∧
      next.toNat = scaled slot.toNat difficulty.toNat elapsed.toNat := by
  have hword : maxWord < 2 ^ 64 := by decide
  have hdouble : (2 : Nat) ^ 64 * 2 ^ 64 = 2 ^ 128 := by norm_num
  have hpositive : slot.toNat ≠ 0 := by omega
  obtain ⟨left, hleft⟩ :=
    DoubleWord.exists_toNat_eq (n := 2 * slot.toNat - elapsed.toNat) (by omega)
  have hfits : difficulty.toNat * left.toNat < 2 ^ 128 := by
    rw [← hdouble]
    exact Nat.mul_lt_mul'' difficulty.toNat_lt (by omega)
  obtain ⟨product, hproduct⟩ := DoubleWord.exists_toNat_eq hfits
  obtain ⟨next, hnext⟩ := DoubleWord.exists_toNat_eq (n := product.toNat / slot.toNat)
    (Nat.lt_of_le_of_lt (Nat.div_le_self _ _) product.isLt)
  have hdifference : DoubleWord.difference? budget elapsed = some left := by
    rw [DoubleWord.difference?_eq_some_iff]
    omega
  have hmultiplied : DoubleWord.product? (DoubleWord.ofWord difficulty) left = some product := by
    rw [DoubleWord.product?_eq_some_iff, DoubleWord.toNat_ofWord]
    exact hproduct
  have hdivided : DoubleWord.quotient? product (DoubleWord.ofWord slot) = some next := by
    rw [DoubleWord.quotient?_eq_some_iff, DoubleWord.toNat_ofWord]
    exact ⟨hpositive, hnext⟩
  refine ⟨next, ?_, by rw [hnext, hproduct, hleft, scaled]⟩
  simp only [scaledInWords, hdifference, hmultiplied, hdivided, Option.bind_eq_bind, Option.bind_some]

/-- **Every step of retargeting fits its words**, where two slots fit one. -/
theorem retargetInWords_eq (hslot : 2 * slot.toNat ≤ maxWord)
    (difficulty parentTimestamp timestamp : UInt64) :
    retargetInWords slot difficulty parentTimestamp timestamp =
      some ((slotTarget slot).next difficulty parentTimestamp timestamp) := by
  have hword : maxWord < 2 ^ 128 := by decide
  generalize helapsed :
    DoubleWord.ofWord (mulCapped (subFloored timestamp parentTimestamp) 1000) = elapsed
  have hspan : elapsed.toNat = span parentTimestamp.toNat timestamp.toNat := by
    rw [← helapsed, DoubleWord.toNat_ofWord, toNat_mulCapped, toNat_subFloored]
    rfl
  obtain ⟨budget, hbudget⟩ := DoubleWord.exists_toNat_eq (n := 2 * slot.toNat) (by omega)
  have hfirst : DoubleWord.product? 2 (DoubleWord.ofWord slot) = some budget := by
    rw [DoubleWord.product?_eq_some_iff, DoubleWord.toNat_ofWord]
    exact hbudget
  simp only [retargetInWords, helapsed, hfirst, Option.bind_eq_bind, Option.bind_some, BitVec.le_def]
  rw [next, retarget_eq, hbudget, ← hspan]
  by_cases hfloor : 2 * slot.toNat ≤ elapsed.toNat
  · rw [if_pos hfloor, if_pos hfloor]
    rfl
  · obtain ⟨next, hnext, hvalue⟩ :=
      exists_scaledInWords hslot hbudget (Nat.lt_of_not_le hfloor) difficulty
    rw [if_neg hfloor, if_neg hfloor, hnext, Option.bind_some, ← hvalue, ← toNat_inRange,
      UInt64.ofNat_toNat]
    rfl

/-- **What retargeting prescribes**, for a slot below `2 ^ 63` milliseconds.  No step leaves its words,
and the difficulty is the exact one, whether or not the span stops at the greatest word.  So it never
increases as the timestamp grows, never decreases as the difficulty grows, is at least the least one and
at most twice the difficulty, and a round of one slot keeps it. -/
theorem next_exact_and_ordered (hpositive : 1 ≤ slot) (hslot : slot.toNat < 2 ^ 63)
    (difficulty parentTimestamp timestamp : UInt64) :
    retargetInWords slot difficulty parentTimestamp timestamp =
        some ((slotTarget slot).next difficulty parentTimestamp timestamp) ∧
      let e := (timestamp.toNat - parentTimestamp.toNat) * 1000
      let next := (slotTarget slot).next difficulty parentTimestamp timestamp
      next.toNat =
        (if 2 * slot.toNat ≤ e then 100
        else max 100 (min (2 ^ 64 - 1) (difficulty.toNat * (2 * slot.toNat - e) / slot.toNat))) ∧
      (∀ later, timestamp ≤ later →
        (slotTarget slot).next difficulty parentTimestamp later ≤ next) ∧
      (∀ greater, difficulty ≤ greater →
        next ≤ (slotTarget slot).next greater parentTimestamp timestamp) ∧
      100 ≤ next.toNat ∧ next.toNat ≤ max 100 (2 * difficulty.toNat) ∧
      (e = slot.toNat → next = max 100 difficulty) := by
  have hfits : 2 * slot.toNat ≤ maxWord := by
    have hmax : maxWord = 2 ^ 64 - 1 := rfl
    omega
  refine ⟨retargetInWords_eq hfits .., ?_⟩
  intro e next
  have hnext : next.toNat = retarget slot.toNat difficulty.toNat parentTimestamp.toNat
      timestamp.toNat := toNat_next_slotTarget ..
  refine ⟨?_, fun later => next_slotTarget_anti, ?_, ?_, ?_, ?_⟩
  · rw [hnext, retarget_eq_exact hfits]
    rfl
  · exact fun greater => next_slotTarget_mono
  · rw [hnext]
    exact minDifficulty_le_retarget ..
  · rw [hnext]
    exact retarget_le_double ..
  · intro hround
    have hslotPositive : 0 < slot.toNat := UInt64.le_iff_toNat_le.mp hpositive
    have hdifficulty : difficulty.toNat ≤ maxWord := Nat.le_of_lt_succ difficulty.toNat_lt
    apply UInt64.toNat_inj.mp
    rw [hnext, retarget_of_span_eq hslotPositive hfits hdifficulty hround, UInt64.toNat_max]
    rfl

/-- Under a slot of ten seconds a round of ten seconds keeps a difficulty of 10000, and a longer one does
not raise it. -/
theorem next_kept :
    (1 : UInt64) ≤ 10000 ∧ (10000 : UInt64).toNat < 2 ^ 63 ∧
      (slotTarget 10000).next 10000 100 110 = 10000 ∧
      (slotTarget 10000).next 10000 100 115 ≤ (slotTarget 10000).next 10000 100 110 := by
  have hslot : (10000 : UInt64).toNat < 2 ^ 63 := by
    show 10000 < 2 ^ 63
    norm_num
  have hpositive : (1 : UInt64) ≤ 10000 := by decide
  have hround := next_exact_and_ordered hpositive hslot 10000 100 110
  have hkept : (slotTarget 10000).next 10000 100 110 = 10000 := hround.2.2.2.2.2.2 rfl
  exact ⟨hpositive, hslot, hkept, hround.2.2.1 115 (by decide)⟩

end Policy

end DelayLedger
