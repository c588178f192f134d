import Mathlib
import DelayLedger.Delay.Proof

/-!
# The prime of a statement

The search for the prime of a statement starts at an odd number of 128 bits and goes up in steps of
two, so whatever it ends with is odd and not below `2 ^ 127`.
-/

namespace DelayLedger.Delay

theorem le_nextProbablePrime (limit n : Nat) : n ≤ nextProbablePrime limit n := by
  induction limit generalizing n with
  | zero => exact Nat.le_refl n
  | succ limit ih =>
    rw [nextProbablePrime]
    split
    · exact Nat.le_refl n
    · have hnext := ih (n + 2)
      omega

theorem odd_nextProbablePrime {limit n : Nat} (h : Odd n) : Odd (nextProbablePrime limit n) := by
  induction limit generalizing n with
  | zero => exact h
  | succ limit ih =>
    rw [nextProbablePrime]
    split
    · exact h
    · exact ih (h.add_even even_two)

section Statement

variable (s : Suite) (x y difficulty : Nat)

theorem odd_primeStart : Odd (primeStart s x y difficulty) := by
  rw [Nat.odd_iff, Nat.mod_two_eq_one_iff_testBit_zero, primeStart, Nat.testBit_or,
    Nat.testBit_one_zero, Bool.or_true]

theorem le_primeStart : 2 ^ 127 ≤ primeStart s x y difficulty := by
  have htop : 1 <<< 127 ≤ primeStart s x y difficulty :=
    (Nat.right_le_or).trans Nat.left_le_or
  rwa [Nat.one_shiftLeft] at htop

theorem odd_statementPrime : Odd (statementPrime s x y difficulty) :=
  odd_nextProbablePrime (odd_primeStart s x y difficulty)

theorem le_statementPrime : 2 ^ 127 ≤ statementPrime s x y difficulty :=
  (le_primeStart s x y difficulty).trans (le_nextProbablePrime _ _)

end Statement

end DelayLedger.Delay
