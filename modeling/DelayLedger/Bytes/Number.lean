import Mathlib
import DelayLedger.Bytes

/-!
# Numbers in bytes

Reading the bytes of a number gives the number back: up to the width when the width is fixed
(`ofLittleEndian_littleEndian`), and always when it is the least one (`ofBigEndian_bigEndian`), which it
is for the big-endian bytes (`length_bigEndian_le`).  These are the byte strings that do not start with a
zero (`bigEndian_ofBigEndian`).
-/

namespace DelayLedger.Bytes

theorem ofLittleEndian_lt (b : Bytes) : ofLittleEndian b < 256 ^ b.length := by
  induction b with
  | nil => exact Nat.one_pos
  | cons x b ih =>
    have hx := x.toNat_lt
    rw [ofLittleEndian, List.length_cons, Nat.pow_succ]
    omega

theorem ofLittleEndian_littleEndian (width n : Nat) :
    ofLittleEndian (littleEndian width n) = n % 256 ^ width := by
  induction width generalizing n with
  | zero => rw [Nat.pow_zero, Nat.mod_one]; rfl
  | succ width ih =>
    have hn : n % 256 ^ (width + 1) = n % 256 + 256 * (n / 256 % 256 ^ width) := by
      rw [Nat.pow_succ', Nat.mod_mul]
    rw [littleEndian, ofLittleEndian, ih, UInt8.toNat_ofNat', hn]

theorem littleEndian_ofLittleEndian (b : Bytes) : littleEndian b.length (ofLittleEndian b) = b := by
  induction b with
  | nil => rfl
  | cons x b ih =>
    have hx := x.toNat_lt
    have hlow : UInt8.ofNat (x.toNat + 256 * ofLittleEndian b) = x := by
      apply UInt8.toNat_inj.mp
      rw [UInt8.toNat_ofNat']
      omega
    have hhigh : (x.toNat + 256 * ofLittleEndian b) / 256 = ofLittleEndian b := by omega
    rw [List.length_cons, ofLittleEndian, littleEndian, hlow, hhigh, ih]

theorem littleEndian_injective {width n m : Nat} (hn : n < 256 ^ width) (hm : m < 256 ^ width)
    (h : littleEndian width n = littleEndian width m) : n = m := by
  have hmod := congrArg ofLittleEndian h
  rwa [ofLittleEndian_littleEndian, ofLittleEndian_littleEndian, Nat.mod_eq_of_lt hn,
    Nat.mod_eq_of_lt hm] at hmod

theorem ofWord_injective {v w : UInt64} (h : ofWord v = ofWord w) : v = w :=
  UInt64.toNat_inj.mp (littleEndian_injective v.toNat_lt w.toNat_lt h)

theorem ofBigEndian_eq (b : Bytes) : ofBigEndian b = ofLittleEndian b.reverse := by
  rw [ofBigEndian, List.foldl_eq_foldr_reverse]
  induction b.reverse with
  | nil => rfl
  | cons x r ih => rw [List.foldr_cons, ih, ofLittleEndian, Nat.add_comm]

theorem ofBigEndian_bigEndian (n : Nat) : ofBigEndian (bigEndian n) = n := by
  rw [ofBigEndian_eq, bigEndian, List.reverse_reverse, ofLittleEndian_littleEndian]
  apply Nat.mod_eq_of_lt
  have h : n < 2 ^ (n.log2 + 1) := Nat.lt_log2_self
  have hle : n.log2 + 1 ≤ 8 * (n.log2 / 8 + 1) := by omega
  calc n < 2 ^ (n.log2 + 1) := h
    _ ≤ 2 ^ (8 * (n.log2 / 8 + 1)) := Nat.pow_le_pow_right (by decide) hle
    _ = 256 ^ (n.log2 / 8 + 1) := Nat.pow_mul ..

theorem bigEndian_injective : Function.Injective bigEndian :=
  Function.LeftInverse.injective ofBigEndian_bigEndian

theorem ofLittleEndian_append (a b : Bytes) :
    ofLittleEndian (a ++ b) = ofLittleEndian a + 256 ^ a.length * ofLittleEndian b := by
  induction a with
  | nil => rw [List.nil_append, ofLittleEndian, List.length_nil, Nat.pow_zero, Nat.one_mul,
      Nat.zero_add]
  | cons x a ih =>
    rw [List.cons_append, ofLittleEndian, ih, ofLittleEndian, List.length_cons, Nat.pow_succ']
    ring

theorem ofBigEndian_append (a b : Bytes) :
    ofBigEndian (a ++ b) = 256 ^ b.length * ofBigEndian a + ofBigEndian b := by
  rw [ofBigEndian_eq, ofBigEndian_eq, ofBigEndian_eq, List.reverse_append, ofLittleEndian_append,
    List.length_reverse, Nat.add_comm]

theorem eq_of_ofBigEndian_eq {a b : Bytes} (hlength : a.length = b.length)
    (h : ofBigEndian a = ofBigEndian b) : a = b := by
  rw [ofBigEndian_eq, ofBigEndian_eq] at h
  have ha := littleEndian_ofLittleEndian a.reverse
  have hb := littleEndian_ofLittleEndian b.reverse
  rw [List.length_reverse] at ha hb
  rw [hlength, h, hb] at ha
  exact List.reverse_injective ha.symm

theorem ofBigEndian_lt (b : Bytes) : ofBigEndian b < 256 ^ b.length := by
  rw [ofBigEndian_eq, ← List.length_reverse]
  exact ofLittleEndian_lt b.reverse

/-- **No other bytes of a number are fewer**, the empty ones for zero apart. -/
theorem length_bigEndian_le {b : Bytes} (hb : b ≠ []) :
    (bigEndian (ofBigEndian b)).length ≤ b.length := by
  have hpos : 0 < b.length := List.length_pos_iff.mpr hb
  have hlt : ofBigEndian b < 2 ^ (8 * b.length) := by
    rw [Nat.pow_mul]
    exact ofBigEndian_lt b
  rw [bigEndian, List.length_reverse, length_littleEndian]
  by_cases hzero : ofBigEndian b = 0
  · rw [hzero]
    exact hpos
  · have hlog := (Nat.log2_lt hzero).mpr hlt
    omega

theorem head?_bigEndian {n : Nat} (hn : n ≠ 0) : (bigEndian n).head? ≠ some 0 := by
  intro hzero
  obtain ⟨b, hb⟩ : ∃ b, bigEndian n = 0 :: b := List.head?_eq_some_iff.mp hzero
  have hvalue : ofBigEndian b = n := by
    have hwhole := ofBigEndian_append [0] b
    rw [List.singleton_append, ← hb, ofBigEndian_bigEndian] at hwhole
    have hnone : ofBigEndian [0] = 0 := rfl
    rw [hnone, Nat.mul_zero, Nat.zero_add] at hwhole
    exact hwhole.symm
  -- Without the zero there would be fewer bytes.
  have hne : b ≠ [] := by
    rintro rfl
    exact hn hvalue.symm
  have hle := length_bigEndian_le hne
  rw [hvalue, hb, List.length_cons] at hle
  omega

/-- **Bytes that do not start with a zero are those of their number.** -/
theorem bigEndian_ofBigEndian {b : Bytes} (hne : b ≠ []) (hhead : b.head? ≠ some 0) :
    bigEndian (ofBigEndian b) = b := by
  obtain ⟨x, r, rfl⟩ := List.exists_cons_of_ne_nil hne
  have hx : x.toNat ≠ 0 := by
    intro hzero
    exact hhead (congrArg some (UInt8.toNat_inj.mp hzero))
  have hlow : 256 ^ r.length ≤ ofBigEndian (x :: r) := by
    have hwhole := ofBigEndian_append [x] r
    have hone : ofBigEndian [x] = x.toNat := Nat.zero_add _
    rw [List.singleton_append, hone] at hwhole
    rw [hwhole]
    exact (Nat.le_mul_of_pos_right _ (Nat.pos_of_ne_zero hx)).trans (Nat.le_add_right _ _)
  have hhigh := ofBigEndian_lt (bigEndian (ofBigEndian (x :: r)))
  rw [ofBigEndian_bigEndian] at hhigh
  have hmost := length_bigEndian_le hne
  have hleast := (Nat.pow_lt_pow_iff_right (by decide)).mp (Nat.lt_of_le_of_lt hlow hhigh)
  have hlength : (bigEndian (ofBigEndian (x :: r))).length = (x :: r).length := by
    rw [List.length_cons] at hmost ⊢
    omega
  exact eq_of_ofBigEndian_eq hlength (ofBigEndian_bigEndian _)

theorem length_bigEndian_le_of_lt {n width : Nat} (hwidth : width ≠ 0) (h : n < 256 ^ width) :
    (bigEndian n).length ≤ width := by
  have hlength : (littleEndian width n).reverse.length = width := by
    rw [List.length_reverse, length_littleEndian]
  have hvalue : ofBigEndian (littleEndian width n).reverse = n := by
    rw [ofBigEndian_eq, List.reverse_reverse, ofLittleEndian_littleEndian, Nat.mod_eq_of_lt h]
  have hne : (littleEndian width n).reverse ≠ [] := by
    intro hnil
    rw [hnil] at hlength
    exact hwidth hlength.symm
  have hle := length_bigEndian_le hne
  rwa [hvalue, hlength] at hle

end DelayLedger.Bytes
