import Mathlib
import DelayLedger.Delay.Prime

/-!
# Powers by squaring

`powMod m b e` is `b ^ e % m` (`powMod_eq`).
-/

namespace DelayLedger.Delay

theorem powModFrom_eq (m bits b e acc : Nat) (h : e < 2 ^ bits) :
    powModFrom m bits b e acc = acc * b ^ e % m := by
  induction bits generalizing b e acc with
  | zero =>
    have he : e = 0 := by omega
    rw [he, Nat.pow_zero, Nat.mul_one]
    rfl
  | succ bits ih =>
    have hhalf : e / 2 < 2 ^ bits := by
      rw [Nat.pow_succ] at h
      omega
    have hsquare : (b * b) ^ (e / 2) = b ^ (2 * (e / 2)) := by
      rw [← Nat.pow_two, Nat.pow_mul]
    rw [powModFrom, ih _ _ _ hhalf, Nat.mul_mod, ← Nat.pow_mod, ← Nat.mul_mod, hsquare]
    split
    · next hodd =>
      have he : e = 2 * (e / 2) + 1 := by omega
      rw [Nat.mod_mul_mod, Nat.mul_assoc, ← Nat.pow_succ', Nat.succ_eq_add_one, ← he]
    · next heven =>
      have he : 2 * (e / 2) = e := by omega
      rw [he]

theorem mul_self_pow (y k : Nat) : (y * y) ^ 2 ^ k = y ^ 2 ^ (k + 1) := by
  rw [← Nat.pow_two, ← Nat.pow_mul, ← Nat.pow_succ']

theorem powMod_eq (m b e : Nat) : powMod m b e = b ^ e % m := by
  rw [powMod, powModFrom_eq m _ _ _ _ Nat.lt_log2_self, Nat.one_mul, ← Nat.pow_mod]

end DelayLedger.Delay
