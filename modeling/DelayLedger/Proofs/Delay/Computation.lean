import Mathlib
import DelayLedger.Bytes.Number
import DelayLedger.Delay.Power
import DelayLedger.Proofs.Delay.Prime
import DelayLedger.Suite.Standard

/-!
# The delay and its proof

With `x` the group element of a challenge and `l` the prime of the statement, the first pass of a
computation squares its way to `x ^ 2 ^ T` (`squarings_eq_some`) and the second divides `2 ^ T` by `l`
bit by bit, raising `x` to the quotient on the way (`division_eq_some`).  The two numbers are
`outputOf` and `witnessOf`, and their encodings are accepted because
`2 ^ T = l * (2 ^ T / l) + 2 ^ T % l` (`witness_relation`).

* `compute_of_not_calledOff`, `compute_of_calledOff`: what a computation returns.
* `verify_eq_true_iff`: what is accepted.
* `compute_and_verify`: the two together.
-/

namespace DelayLedger

/-- A modulus that leaves room for an element above one, and whose elements fit in `modulusBytes`. -/
structure Suite.HasGroup (s : Suite) : Prop where
  two_lt : 2 < s.modulus
  modulus_le : s.modulus ≤ 256 ^ Delay.modulusBytes

namespace Delay

/-! ### The two passes -/

/-- A pass of `left` steps, `offset + step` steps having been done in all, finds the signal up. -/
def Interrupts (abort : Nat → Bool) (offset left step : Nat) : Prop :=
  ∃ i < left, aborted abort (step + i) (offset + (step + i)) = true

theorem not_interrupts_zero {abort : Nat → Bool} {offset step : Nat} :
    ¬ Interrupts abort offset 0 step := by
  rintro ⟨i, hi, -⟩
  exact Nat.not_lt_zero i hi

theorem interrupts_succ {abort : Nat → Bool} {offset left step : Nat} :
    Interrupts abort offset (left + 1) step ↔
      aborted abort step (offset + step) = true ∨ Interrupts abort offset left (step + 1) := by
  constructor
  · rintro ⟨i, hi, hup⟩
    cases i with
    | zero => exact Or.inl hup
    | succ i =>
      rw [Nat.add_comm i 1, ← Nat.add_assoc step] at hup
      exact Or.inr ⟨i, Nat.lt_of_succ_lt_succ hi, hup⟩
  · rintro (hup | ⟨i, hi, hup⟩)
    · exact ⟨0, Nat.succ_pos left, hup⟩
    · rw [Nat.add_assoc step, Nat.add_comm 1 i] at hup
      exact ⟨i + 1, Nat.succ_lt_succ hi, hup⟩

section Passes

variable {N l x : Nat} {abort : Nat → Bool} {offset left step y rest power : Nat}

theorem squarings_eq_none (h : Interrupts abort 0 left step) :
    squarings N abort left step y = none := by
  induction left generalizing step y with
  | zero => exact absurd h not_interrupts_zero
  | succ left ih =>
    rw [interrupts_succ, Nat.zero_add] at h
    rw [squarings]
    by_cases hup : aborted abort step step = true
    · rw [if_pos hup]
    · rw [if_neg hup]
      exact ih (h.resolve_left hup)

theorem interrupts_of_squarings_eq_none (h : squarings N abort left step y = none) :
    Interrupts abort 0 left step := by
  induction left generalizing step y with
  | zero => contradiction
  | succ left ih =>
    rw [interrupts_succ, Nat.zero_add]
    rw [squarings] at h
    by_cases hup : aborted abort step step = true
    · exact Or.inl hup
    · rw [if_neg hup] at h
      exact Or.inr (ih h)

theorem squarings_eq_some (hy : y < N) (h : ¬ Interrupts abort 0 left step) :
    squarings N abort left step y = some (y ^ 2 ^ left % N) := by
  induction left generalizing step y with
  | zero => rw [squarings, Nat.pow_zero, Nat.pow_one, Nat.mod_eq_of_lt hy]
  | succ left ih =>
    rw [interrupts_succ, Nat.zero_add, not_or] at h
    rw [squarings, if_neg h.1, ih (Nat.mod_lt _ (Nat.zero_lt_of_lt hy)) h.2, ← Nat.pow_mod,
      mul_self_pow]

theorem division_eq_none (h : Interrupts abort offset left step) :
    division N l x abort offset left step rest power = none := by
  induction left generalizing step rest power with
  | zero => exact absurd h not_interrupts_zero
  | succ left ih =>
    rw [interrupts_succ] at h
    rw [division]
    by_cases hup : aborted abort step (offset + step) = true
    · rw [if_pos hup]
    · rw [if_neg hup]
      dsimp only
      split
      · exact ih (h.resolve_left hup)
      · exact ih (h.resolve_left hup)

theorem interrupts_of_division_eq_none (h : division N l x abort offset left step rest power = none) :
    Interrupts abort offset left step := by
  induction left generalizing step rest power with
  | zero => contradiction
  | succ left ih =>
    rw [interrupts_succ]
    rw [division] at h
    by_cases hup : aborted abort step (offset + step) = true
    · exact Or.inl hup
    · rw [if_neg hup] at h
      dsimp only at h
      split at h
      · exact Or.inr (ih h)
      · exact Or.inr (ih h)

/-- One bit of the quotient: what is left to divide once `l` has gone into twice the remainder. -/
theorem quotient_of_le (hl : 0 < l) (hle : l ≤ 2 * rest) (k : Nat) :
    rest * 2 ^ (k + 1) / l = 2 ^ k + (2 * rest - l) * 2 ^ k / l := by
  have hsplit : rest * 2 ^ (k + 1) = (2 * rest - l) * 2 ^ k + l * 2 ^ k := by
    calc rest * 2 ^ (k + 1) = 2 * rest * 2 ^ k := by ring
      _ = (2 * rest - l + l) * 2 ^ k := by rw [Nat.sub_add_cancel hle]
      _ = (2 * rest - l) * 2 ^ k + l * 2 ^ k := Nat.add_mul ..
  rw [hsplit, Nat.add_mul_div_left _ _ hl, Nat.add_comm]

/-- **The second pass** raises `x` to the quotient of `rest * 2 ^ left` by `l`, on top of the power it
starts with. -/
theorem division_eq_some (hrest : rest < l) (hpower : power < N)
    (h : ¬ Interrupts abort offset left step) :
    division N l x abort offset left step rest power =
      some (power ^ 2 ^ left * x ^ (rest * 2 ^ left / l) % N) := by
  induction left generalizing step rest power with
  | zero =>
    rw [division, Nat.pow_zero, Nat.pow_one, Nat.mul_one, Nat.div_eq_of_lt hrest, Nat.pow_zero,
      Nat.mul_one, Nat.mod_eq_of_lt hpower]
  | succ left ih =>
    have hN : 0 < N := Nat.zero_lt_of_lt hpower
    rw [interrupts_succ, not_or] at h
    rw [division, if_neg h.1]
    dsimp only
    split
    -- The bit is one: `x` goes in once more, and the remainder stays below `l`.
    · next hle =>
      have hreduced : power * power % N * x % N ≡ power * power * x [MOD N] :=
        (Nat.mod_modEq _ N).trans ((Nat.mod_modEq _ N).mul_right x)
      have hmod : (power * power % N * x % N) ^ 2 ^ left * x ^ ((2 * rest - l) * 2 ^ left / l) ≡
          power ^ 2 ^ (left + 1) * x ^ (rest * 2 ^ (left + 1) / l) [MOD N] := by
        rw [quotient_of_le (Nat.zero_lt_of_lt hrest) hle, ← mul_self_pow, Nat.pow_add,
          ← Nat.mul_assoc, ← Nat.mul_pow]
        exact (hreduced.pow _).mul_right _
      rw [ih (by omega) (Nat.mod_lt _ hN) h.2]
      exact congrArg some hmod
    · next hlt =>
      have htwice : 2 * rest * 2 ^ left = rest * 2 ^ (left + 1) := by ring
      rw [ih (by omega) (Nat.mod_lt _ hN) h.2, Nat.mul_mod, ← Nat.pow_mod, ← Nat.mul_mod,
        mul_self_pow, htwice]

end Passes

/-! ### What a computation returns -/

section Computation

variable (s : Suite) (difficulty : UInt64) (challenge : Bytes)

def outputOf : Nat := groupElement s challenge ^ 2 ^ difficulty.toNat % s.modulus

def primeOf : Nat :=
  statementPrime s (groupElement s challenge) (outputOf s difficulty challenge) difficulty.toNat

def witnessOf : Nat :=
  groupElement s challenge ^ (2 ^ difficulty.toNat / primeOf s difficulty challenge) % s.modulus

def honest : DelayProof :=
  ⟨Bytes.bigEndian (outputOf s difficulty challenge),
    Bytes.bigEndian (witnessOf s difficulty challenge)⟩

/-- Bytes of the two numbers, with any number of leading zeros. -/
structure Encodes (proof : DelayProof) : Prop where
  output_eq : Bytes.ofBigEndian proof.output = outputOf s difficulty challenge
  witness_eq : Bytes.ofBigEndian proof.witness = witnessOf s difficulty challenge

theorem encodes_honest : Encodes s difficulty challenge (honest s difficulty challenge) :=
  ⟨Bytes.ofBigEndian_bigEndian _, Bytes.ofBigEndian_bigEndian _⟩

/-- One of the looks at the abort signal finds it up: they come every `pollInterval` steps in each of
the two passes. -/
def CalledOff (abort : Nat → Bool) (total : Nat) : Prop :=
  ∃ step < total, step % pollInterval = 0 ∧ (abort step = true ∨ abort (total + step) = true)

end Computation

theorem aborted_eq_true_iff {abort : Nat → Bool} {step clock : Nat} :
    aborted abort step clock = true ↔ step % pollInterval = 0 ∧ abort clock = true := by
  rw [aborted, Bool.and_eq_true, beq_iff_eq]

theorem calledOff_iff {abort : Nat → Bool} {total : Nat} :
    CalledOff abort total ↔ Interrupts abort 0 total 0 ∨ Interrupts abort total total 0 := by
  simp only [CalledOff, Interrupts, aborted_eq_true_iff, Nat.zero_add, and_or_left, exists_or]

section Results

variable {s : Suite} {difficulty : UInt64} {challenge : Bytes} {abort : Nat → Bool}
  {proof : DelayProof}

theorem groupElement_lt (hs : s.HasGroup) (challenge : Bytes) :
    groupElement s challenge < s.modulus := by
  have htwo := hs.two_lt
  rw [groupElement]
  split
  · exact htwo
  · exact Nat.mod_lt _ (Nat.zero_lt_of_lt htwo)

theorem toNat_ne_zero (h : difficulty ≠ 0) : difficulty.toNat ≠ 0 := fun hzero =>
  h (UInt64.toNat_inj.mp hzero)

/-- **A computation that is not called off returns the proof.** -/
theorem compute_of_not_calledOff (hs : s.HasGroup) (hdifficulty : difficulty ≠ 0)
    (h : ¬ CalledOff abort difficulty.toNat) :
    compute s difficulty challenge abort = .ok (honest s difficulty challenge) := by
  rw [calledOff_iff, not_or] at h
  have hprime : 1 < primeOf s difficulty challenge :=
    Nat.lt_of_lt_of_le (by decide) (le_statementPrime ..)
  have hone : 1 < s.modulus := Nat.lt_of_succ_lt hs.two_lt
  have hfirst := squarings_eq_some (groupElement_lt hs challenge) h.1
  have hsecond : division s.modulus (primeOf s difficulty challenge) (groupElement s challenge) abort
      difficulty.toNat difficulty.toNat 0 1 1 = some (witnessOf s difficulty challenge) := by
    rw [division_eq_some hprime hone h.2, Nat.one_pow, Nat.one_mul, Nat.one_mul, witnessOf]
  -- `compute` draws the prime from the number that the first pass gives it.
  rw [primeOf, outputOf] at hsecond
  rw [compute]
  simp only [if_neg (toNat_ne_zero hdifficulty), hfirst, hsecond]
  rfl

/-- **A computation that is called off returns no proof.** -/
theorem compute_of_calledOff (hs : s.HasGroup) (hdifficulty : difficulty ≠ 0)
    (h : CalledOff abort difficulty.toNat) :
    compute s difficulty challenge abort = .error .interrupted := by
  rw [calledOff_iff] at h
  rw [compute]
  simp only [if_neg (toNat_ne_zero hdifficulty)]
  by_cases hfirst : Interrupts abort 0 difficulty.toNat 0
  · rw [squarings_eq_none hfirst]
  · rw [squarings_eq_some (groupElement_lt hs challenge) hfirst]
    simp only [division_eq_none (h.resolve_left hfirst)]

/-- **A computation fails only when it is called off**, whatever the modulus is. -/
theorem calledOff_of_compute_eq_error (hdifficulty : difficulty ≠ 0) {cause : DelayError}
    (h : compute s difficulty challenge abort = .error cause) :
    cause = .interrupted ∧ CalledOff abort difficulty.toNat := by
  rw [compute] at h
  simp only [if_neg (toNat_ne_zero hdifficulty)] at h
  rw [calledOff_iff]
  split at h
  · next hfirst =>
    injection h with h
    exact ⟨h.symm, Or.inl (interrupts_of_squarings_eq_none hfirst)⟩
  split at h
  · next hsecond =>
    injection h with h
    exact ⟨h.symm, Or.inr (interrupts_of_division_eq_none hsecond)⟩
  · contradiction

/-! ### What is accepted -/

structure IsElement (s : Suite) (part : Bytes) (n : Nat) : Prop where
  ne_zero : n ≠ 0
  lt_modulus : n < s.modulus
  part_eq : part = Bytes.bigEndian n

theorem isElement_bigEndian_iff {m n : Nat} :
    IsElement s (Bytes.bigEndian m) n ↔ m = n ∧ n ≠ 0 ∧ n < s.modulus := by
  constructor
  · rintro ⟨hne, hlt, hpart⟩
    exact ⟨Bytes.bigEndian_injective hpart, hne, hlt⟩
  · rintro ⟨rfl, hne, hlt⟩
    exact ⟨hne, hlt, rfl⟩

theorem length_le_modulusBytes (hs : s.HasGroup) {n : Nat} (h : n < s.modulus) :
    (Bytes.bigEndian n).length ≤ modulusBytes :=
  Bytes.length_bigEndian_le_of_lt (by decide) (Nat.lt_of_lt_of_le h hs.modulus_le)

theorem element?_eq_some_iff (hs : s.HasGroup) {part : Bytes} {n : Nat} :
    element? s part = some n ↔ IsElement s part n := by
  rw [element?]
  constructor
  · intro h
    split at h
    · next hpart =>
      obtain ⟨-, hne, hlt, heq⟩ := hpart
      injection h with h
      subst h
      exact ⟨hne, hlt, heq⟩
    · contradiction
  · rintro ⟨hne, hlt, rfl⟩
    rw [Bytes.ofBigEndian_bigEndian, if_pos ⟨length_le_modulusBytes hs hlt, hne, hlt, rfl⟩]

/-- **What is accepted**: two elements that satisfy the relation for the prime of the statement that
they make. -/
theorem verify_eq_true_iff (hs : s.HasGroup) (hdifficulty : difficulty ≠ 0) :
    verify s difficulty challenge proof = true ↔
      ∃ y witness, IsElement s proof.output y ∧ IsElement s proof.witness witness ∧
        witness ^ statementPrime s (groupElement s challenge) y difficulty.toNat *
            groupElement s challenge ^ (2 ^ difficulty.toNat %
              statementPrime s (groupElement s challenge) y difficulty.toNat) ≡ y [MOD s.modulus] := by
  rw [verify]
  simp only [if_neg (toNat_ne_zero hdifficulty), powMod_eq, ← element?_eq_some_iff hs]
  constructor
  · intro h
    split at h
    · next y witness hy hwitness =>
      have hlt := ((element?_eq_some_iff hs).mp hy).lt_modulus
      rw [beq_iff_eq, ← Nat.mul_mod] at h
      exact ⟨y, witness, hy, hwitness, h.trans (Nat.mod_eq_of_lt hlt).symm⟩
    · contradiction
  · rintro ⟨y, witness, hy, hwitness, h⟩
    have hlt := ((element?_eq_some_iff hs).mp hy).lt_modulus
    rw [Nat.ModEq, Nat.mod_eq_of_lt hlt] at h
    rw [hy, hwitness]
    dsimp only
    rw [beq_iff_eq, ← Nat.mul_mod]
    exact h

theorem witness_relation (x prime total N : Nat) :
    (x ^ (2 ^ total / prime) % N) ^ prime * x ^ (2 ^ total % prime) ≡ x ^ 2 ^ total [MOD N] := by
  have hwhole : (x ^ (2 ^ total / prime)) ^ prime * x ^ (2 ^ total % prime) = x ^ 2 ^ total := by
    rw [← Nat.pow_mul, ← Nat.pow_add, Nat.div_add_mod']
  rw [← hwhole]
  exact ((Nat.mod_modEq _ N).pow prime).mul_right _

theorem verify_honest_iff (hs : s.HasGroup) (hdifficulty : difficulty ≠ 0) :
    verify s difficulty challenge (honest s difficulty challenge) = true ↔
      outputOf s difficulty challenge ≠ 0 ∧ witnessOf s difficulty challenge ≠ 0 := by
  have hN : 0 < s.modulus := Nat.zero_lt_of_lt hs.two_lt
  simp only [verify_eq_true_iff hs hdifficulty, honest, isElement_bigEndian_iff]
  constructor
  · rintro ⟨_, _, ⟨rfl, hy, -⟩, ⟨rfl, hwitness, -⟩, -⟩
    exact ⟨hy, hwitness⟩
  · rintro ⟨hy, hwitness⟩
    have hrelation := witness_relation (groupElement s challenge) (primeOf s difficulty challenge)
      difficulty.toNat s.modulus
    exact ⟨_, _, ⟨rfl, hy, Nat.mod_lt _ hN⟩, ⟨rfl, hwitness, Nat.mod_lt _ hN⟩,
      hrelation.trans (Nat.mod_modEq _ _).symm⟩

theorem pow_mod_ne_zero (hs : s.HasGroup)
    (hx : Nat.Coprime (groupElement s challenge) s.modulus) (e : Nat) :
    groupElement s challenge ^ e % s.modulus ≠ 0 := by
  intro hzero
  have hdvd : s.modulus ∣ groupElement s challenge ^ e := Nat.dvd_of_mod_eq_zero hzero
  have hone : s.modulus = 1 := Nat.Coprime.eq_one_of_dvd (hx.pow_left e).symm hdvd
  have htwo := hs.two_lt
  omega

theorem verify_honest (hs : s.HasGroup) (hdifficulty : difficulty ≠ 0)
    (hx : Nat.Coprime (groupElement s challenge) s.modulus) :
    verify s difficulty challenge (honest s difficulty challenge) = true :=
  (verify_honest_iff hs hdifficulty).mpr ⟨pow_mod_ne_zero hs hx _, pow_mod_ne_zero hs hx _⟩

theorem eq_honest_of_verify (hs : s.HasGroup) (hdifficulty : difficulty ≠ 0)
    (hone : Encodes s difficulty challenge proof)
    (h : verify s difficulty challenge proof = true) : proof = honest s difficulty challenge := by
  obtain ⟨y, witness, houtput, hpart, -⟩ := (verify_eq_true_iff hs hdifficulty).mp h
  have hy := hone.output_eq
  have hwitness := hone.witness_eq
  rw [houtput.part_eq, Bytes.ofBigEndian_bigEndian] at hy
  rw [hpart.part_eq, Bytes.ofBigEndian_bigEndian] at hwitness
  obtain ⟨output, part⟩ := proof
  rw [honest, ← hy, ← hwitness, ← houtput.part_eq, ← hpart.part_eq]

theorem honest_least (hone : Encodes s difficulty challenge proof) (hy : proof.output ≠ [])
    (hwitness : proof.witness ≠ []) :
    (honest s difficulty challenge).output.length ≤ proof.output.length ∧
      (honest s difficulty challenge).witness.length ≤ proof.witness.length := by
  have houtput := Bytes.length_bigEndian_le hy
  have hpart := Bytes.length_bigEndian_le hwitness
  rw [hone.output_eq] at houtput
  rw [hone.witness_eq] at hpart
  exact ⟨houtput, hpart⟩

/-- **A computation gives the one proof or none, and the proof is accepted** unless one of its parts is
zero, which a group element coprime to the modulus rules out.  The proof is the shortest encoding of
its two numbers and the only one that is accepted. -/
theorem compute_and_verify (hs : s.HasGroup) (hdifficulty : difficulty ≠ 0) (challenge : Bytes) :
    (∀ abort, ¬ CalledOff abort difficulty.toNat →
      compute s difficulty challenge abort = .ok (honest s difficulty challenge)) ∧
    (∀ abort, compute s difficulty challenge abort = .error .interrupted ∨
      compute s difficulty challenge abort = .ok (honest s difficulty challenge)) ∧
    (verify s difficulty challenge (honest s difficulty challenge) = true ↔
      outputOf s difficulty challenge ≠ 0 ∧ witnessOf s difficulty challenge ≠ 0) ∧
    (Nat.Coprime (groupElement s challenge) s.modulus →
      verify s difficulty challenge (honest s difficulty challenge) = true) ∧
    Encodes s difficulty challenge (honest s difficulty challenge) ∧
    ∀ proof, Encodes s difficulty challenge proof →
      (verify s difficulty challenge proof = true → proof = honest s difficulty challenge) ∧
      (proof.output ≠ [] → proof.witness ≠ [] →
        (honest s difficulty challenge).output.length ≤ proof.output.length ∧
          (honest s difficulty challenge).witness.length ≤ proof.witness.length) := by
  refine ⟨fun abort => compute_of_not_calledOff hs hdifficulty, fun abort => ?_,
    verify_honest_iff hs hdifficulty, verify_honest hs hdifficulty,
    encodes_honest s difficulty challenge,
    fun proof hone => ⟨eq_honest_of_verify hs hdifficulty hone, honest_least hone⟩⟩
  by_cases h : CalledOff abort difficulty.toNat
  · exact Or.inl (compute_of_calledOff hs hdifficulty h)
  · exact Or.inr (compute_of_not_calledOff hs hdifficulty h)

end Results

end Delay

theorem Suite.standard_hasGroup : Suite.standard.HasGroup where
  two_lt := by decide +kernel
  modulus_le := by decide +kernel

namespace Sample

set_option maxRecDepth 100000 in
/-- Two hundred squarings from the element of the empty challenge, with nobody calling them off. -/
theorem delay_accepted :
    Delay.compute Suite.standard 200 [] (fun _ => false) = .ok (Delay.honest Suite.standard 200 []) ∧
      Delay.verify Suite.standard 200 [] (Delay.honest Suite.standard 200 []) = true := by
  obtain ⟨hcomputed, -, -, haccepted, -⟩ :=
    Delay.compute_and_verify Suite.standard_hasGroup (show (200 : UInt64) ≠ 0 by decide) []
  have hquiet : ¬ Delay.CalledOff (fun _ => false) (200 : UInt64).toNat := by
    rintro ⟨step, -, -, hup | hup⟩
    · exact Bool.false_ne_true hup
    · exact Bool.false_ne_true hup
  have hcoprime : Nat.Coprime (Delay.groupElement Suite.standard []) Suite.standard.modulus := by
    decide +kernel
  exact ⟨hcomputed _ hquiet, haccepted hcoprime⟩

end Sample

end DelayLedger
