import Mathlib
import DelayLedger.Proofs.Delay.Computation
import DelayLedger.Proofs.Forge

/-!
# The sign of a delay

Minus one is a group element of order two that everybody knows, and the prime of a statement is odd
whatever the statement is.  A change of sign therefore turns the witness for minus the result of a delay
into what `verify` asks for (`negated_relation`): next to `honest` stands `negated`, which costs no
further squarings.

* `verify_negated`: which proofs of minus the result are accepted.
* `validate_forge_negated`: blocks can be made with either proof.
* `Sample.second_output`: the standard suite accepts one.
-/

namespace DelayLedger

namespace Delay

section Sign

variable {N n e l : Nat}

theorem sub_modEq_pred_mul (hN : 0 < N) (hn : n ≤ N) : N - n ≡ (N - 1) * n [MOD N] := by
  have hwhole : (N - 1) * n + n = N * n := by
    rw [Nat.sub_one_mul, Nat.sub_add_cancel (Nat.le_mul_of_pos_left n hN)]
  have hzero : N - n + n ≡ (N - 1) * n + n [MOD N] := by
    rw [Nat.sub_add_cancel hn, hwhole, Nat.ModEq, Nat.mod_self, Nat.mul_mod_right]
  exact hzero.add_right_cancel' n

theorem pred_mul_pred_modEq (hN : 0 < N) : (N - 1) * (N - 1) ≡ 1 [MOD N] := by
  have hone : N - (N - 1) = 1 := Nat.sub_sub_self hN
  have hpred := sub_modEq_pred_mul hN (Nat.sub_le N 1)
  rw [hone] at hpred
  exact hpred.symm

theorem pow_modEq_of_odd (he : e * e ≡ 1 [MOD N]) (hl : Odd l) : e ^ l ≡ e [MOD N] := by
  obtain ⟨k, rfl⟩ := hl
  calc e ^ (2 * k + 1) = (e * e) ^ k * e := by rw [Nat.pow_succ, Nat.pow_mul, Nat.pow_two]
    _ ≡ 1 ^ k * e [MOD N] := (he.pow k).mul_right e
    _ = e := by rw [Nat.one_pow, Nat.one_mul]

/-- **The relation survives a change of sign** of both the witness and the result. -/
theorem negated_relation (x total : Nat) (hN : 0 < N) (hl : Odd l) :
    (N - x ^ (2 ^ total / l) % N) ^ l * x ^ (2 ^ total % l) ≡ N - x ^ 2 ^ total % N [MOD N] := by
  have hroot := sub_modEq_pred_mul hN (Nat.mod_lt (x ^ (2 ^ total / l)) hN).le
  have hy := sub_modEq_pred_mul hN (Nat.mod_lt (x ^ 2 ^ total) hN).le
  calc (N - x ^ (2 ^ total / l) % N) ^ l * x ^ (2 ^ total % l)
      ≡ ((N - 1) * (x ^ (2 ^ total / l) % N)) ^ l * x ^ (2 ^ total % l) [MOD N] :=
        (hroot.pow l).mul_right _
    _ = (N - 1) ^ l * ((x ^ (2 ^ total / l) % N) ^ l * x ^ (2 ^ total % l)) := by
        rw [Nat.mul_pow, Nat.mul_assoc]
    _ ≡ (N - 1) * x ^ 2 ^ total [MOD N] :=
        -- here the prime is odd
        (pow_modEq_of_odd (pred_mul_pred_modEq hN) hl).mul (witness_relation x l total N)
    _ ≡ (N - 1) * (x ^ 2 ^ total % N) [MOD N] := (Nat.mod_modEq _ N).symm.mul_left _
    _ ≡ N - x ^ 2 ^ total % N [MOD N] := hy.symm

end Sign

section Negated

variable (s : Suite) (difficulty : UInt64) (challenge : Bytes)

def negatedOutput : Nat := s.modulus - outputOf s difficulty challenge

/-- The prime of the statement that the result is `negatedOutput`. -/
def negatedPrime : Nat :=
  statementPrime s (groupElement s challenge) (negatedOutput s difficulty challenge) difficulty.toNat

/-- Minus the group element to the quotient of `2 ^ T` by that prime. -/
def negatedWitness : Nat :=
  s.modulus -
    groupElement s challenge ^ (2 ^ difficulty.toNat / negatedPrime s difficulty challenge) % s.modulus

def negated : DelayProof :=
  ⟨Bytes.bigEndian (negatedOutput s difficulty challenge),
    Bytes.bigEndian (negatedWitness s difficulty challenge)⟩

theorem negated_output : (negated s difficulty challenge).output =
    Bytes.bigEndian (s.modulus - outputOf s difficulty challenge) :=
  rfl

end Negated

section Results

variable {s : Suite} {difficulty : UInt64} {challenge : Bytes} {proof : DelayProof}

theorem sub_pow_mem (hs : s.HasGroup) (hx : Nat.Coprime (groupElement s challenge) s.modulus)
    (k : Nat) :
    s.modulus - groupElement s challenge ^ k % s.modulus ≠ 0 ∧
      s.modulus - groupElement s challenge ^ k % s.modulus < s.modulus := by
  have hne := pow_mod_ne_zero hs hx k
  have hlt := Nat.mod_lt (groupElement s challenge ^ k) (Nat.zero_lt_of_lt hs.two_lt)
  omega

/-- A witness of minus the result is another root of what `negatedWitness` is a root of. -/
theorem verify_negatedOutput_iff (hs : s.HasGroup) (hdifficulty : difficulty ≠ 0)
    (hx : Nat.Coprime (groupElement s challenge) s.modulus)
    (houtput : proof.output = Bytes.bigEndian (negatedOutput s difficulty challenge)) :
    verify s difficulty challenge proof = true ↔
      ∃ w, IsElement s proof.witness w ∧
        w ^ negatedPrime s difficulty challenge ≡
          negatedWitness s difficulty challenge ^ negatedPrime s difficulty challenge
            [MOD s.modulus] := by
  have hy := sub_pow_mem hs hx (2 ^ difficulty.toNat)
  have hrelation := negated_relation (groupElement s challenge) difficulty.toNat
    (Nat.zero_lt_of_lt hs.two_lt) (odd_statementPrime s (groupElement s challenge)
      (negatedOutput s difficulty challenge) difficulty.toNat)
  -- The power of `x` that both sides carry is coprime to the modulus, and can be taken away.
  have hcoprime := (hx.pow_left
    (2 ^ difficulty.toNat % negatedPrime s difficulty challenge)).symm
  simp only [verify_eq_true_iff hs hdifficulty, houtput, isElement_bigEndian_iff]
  constructor
  · rintro ⟨y, w, ⟨rfl, -, -⟩, hw, h⟩
    have hroots : w ^ negatedPrime s difficulty challenge ≡
        negatedWitness s difficulty challenge ^ negatedPrime s difficulty challenge
          [MOD s.modulus] :=
      Nat.ModEq.cancel_right_of_coprime hcoprime (h.trans hrelation.symm)
    exact ⟨w, hw, hroots⟩
  · rintro ⟨w, hw, hroots⟩
    exact ⟨_, w, ⟨rfl, hy⟩, hw, (hroots.mul_right _).trans hrelation⟩

theorem verify_negated_self (hs : s.HasGroup) (hdifficulty : difficulty ≠ 0)
    (hx : Nat.Coprime (groupElement s challenge) s.modulus) :
    verify s difficulty challenge (negated s difficulty challenge) = true := by
  rw [verify_negatedOutput_iff hs hdifficulty hx rfl]
  exact ⟨_, isElement_bigEndian_iff.mpr ⟨rfl, sub_pow_mem hs hx _⟩, Nat.ModEq.refl _⟩

theorem negated_output_ne (hodd : Odd s.modulus) :
    (negated s difficulty challenge).output ≠ (honest s difficulty challenge).output := by
  intro h
  have hsame : negatedOutput s difficulty challenge = outputOf s difficulty challenge :=
    Bytes.bigEndian_injective h
  -- An odd number is not twice another.
  obtain ⟨k, hk⟩ := hodd
  rw [negatedOutput] at hsame
  omega

/-- **The work for one result proves minus that result as well.**  Both are accepted, they differ when
the modulus is odd, and the witnesses of the second are the roots of one element. -/
theorem verify_negated (hs : s.HasGroup) (hdifficulty : difficulty ≠ 0)
    (hx : Nat.Coprime (groupElement s challenge) s.modulus) :
    verify s difficulty challenge (honest s difficulty challenge) = true ∧
    verify s difficulty challenge (negated s difficulty challenge) = true ∧
    (Odd s.modulus →
      (negated s difficulty challenge).output ≠ (honest s difficulty challenge).output) ∧
    ∀ proof : DelayProof, proof.output = (negated s difficulty challenge).output →
      (verify s difficulty challenge proof = true ↔
        ∃ w, IsElement s proof.witness w ∧
          w ^ negatedPrime s difficulty challenge ≡
            negatedWitness s difficulty challenge ^ negatedPrime s difficulty challenge
              [MOD s.modulus]) :=
  ⟨verify_honest hs hdifficulty hx, verify_negated_self hs hdifficulty hx, negated_output_ne,
    fun _ houtput => verify_negatedOutput_iff hs hdifficulty hx houtput⟩

end Results

end Delay

/-- **A producer can publish either result**: a block made with the negated proof gets the verdict of
the one made with the computed proof. -/
theorem validate_forge_negated {s : Suite} {keys : Keypair} {parent : Block} (policy : Policy)
    (now : UInt64) (pending : List Change) (timestamp : UInt64) (hs : s.HasGroup)
    (hdifficulty : parent.difficulty ≠ 0)
    (hx : Nat.Coprime (Delay.groupElement s parent.hash.bytes) s.modulus)
    (hheight : parent.height.toNat < maxWord)
    (hsign : ∀ message, s.verify keys.publicKey message (s.sign keys.secretKey message) = .ok ()) :
    validate s policy now parent (forge s policy keys parent
        (Delay.negated s parent.difficulty parent.hash.bytes) pending timestamp) =
      validate s policy now parent (forge s policy keys parent
        (Delay.honest s parent.difficulty parent.hash.bytes) pending timestamp) := by
  have hhonest := Delay.verify_honest hs hdifficulty hx
  have hnegated := Delay.verify_negated_self hs hdifficulty hx
  rw [validate_forge policy now _ pending timestamp hheight hsign,
    validate_forge policy now _ pending timestamp hheight hsign, hhonest, hnegated]

namespace Sample

theorem standard_odd : Odd Suite.standard.modulus := by
  decide +kernel

set_option maxRecDepth 100000 in
theorem round_coprime :
    Nat.Coprime (Delay.groupElement Suite.standard (Bytes.ofString "round"))
      Suite.standard.modulus := by
  decide +kernel

/-- Two results of two hundred squarings from one challenge. -/
theorem second_output :
    Delay.verify Suite.standard 200 (Bytes.ofString "round")
        (Delay.honest Suite.standard 200 (Bytes.ofString "round")) = true ∧
      Delay.verify Suite.standard 200 (Bytes.ofString "round")
        (Delay.negated Suite.standard 200 (Bytes.ofString "round")) = true ∧
      (Delay.negated Suite.standard 200 (Bytes.ofString "round")).output ≠
        (Delay.honest Suite.standard 200 (Bytes.ofString "round")).output := by
  obtain ⟨hhonest, hnegated, hne, -⟩ :=
    Delay.verify_negated Suite.standard_hasGroup (show (200 : UInt64) ≠ 0 by decide) round_coprime
  exact ⟨hhonest, hnegated, hne standard_odd⟩

/-- The result of a delay does not fix what is accepted: a proof of minus the result passes. -/
theorem sign_not_fixed :
    ¬ ∀ (difficulty : UInt64) (challenge : Bytes), difficulty ≠ 0 →
      Nat.Coprime (Delay.groupElement Suite.standard challenge) Suite.standard.modulus →
      ∀ proof : DelayProof,
        proof.output = Bytes.bigEndian
          (Suite.standard.modulus - Delay.outputOf Suite.standard difficulty challenge) →
        Delay.verify Suite.standard difficulty challenge proof = false := by
  intro hrefused
  have hdifficulty : (200 : UInt64) ≠ 0 := by decide
  have hfalse := hrefused 200 (Bytes.ofString "round") hdifficulty round_coprime
    (Delay.negated Suite.standard 200 (Bytes.ofString "round")) (Delay.negated_output ..)
  have htrue := Delay.verify_negated_self Suite.standard_hasGroup hdifficulty round_coprime
  exact Bool.false_ne_true (hfalse.symm.trans htrue)

end Sample

end DelayLedger
