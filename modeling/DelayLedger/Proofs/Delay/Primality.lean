import Mathlib
import DelayLedger.Bytes.Number
import DelayLedger.Delay.Power
import DelayLedger.Proofs.Delay.Prime

/-!
# The search for a prime

No prime is refused by the test.  Modulo a prime `p` the power `b ^ (p - 1)` of a base is one, and one
has no square roots but one and minus one; so of the squares that lead up to it from `b ^ d`, with
`p - 1 = 2 ^ k * d`, the first is one already or some square before the last is minus one
(`passes_of_prime`).  A prime lies between any number and its double, so a search that goes up from an
odd number ends there at the latest, and it leaves no prime out on its way.

* `probablePrime_of_prime`: no prime is refused; `of_probablePrime`: what passes.
* `Finds`: the search with no bound on its steps; `exists_finds_lt_double`: it ends.
* `first_prime_found`: what the search for the prime of a statement ends with.
-/

namespace DelayLedger.Delay

/-! ### The test with one base -/

theorem splitTwos_eq (limit n : Nat) : 2 ^ (splitTwos limit n).1 * (splitTwos limit n).2 = n := by
  induction limit generalizing n with
  | zero => rw [splitTwos, Nat.pow_zero, Nat.one_mul]
  | succ limit ih =>
    rw [splitTwos]
    split
    · next heven =>
      have hhalf := ih (n / 2)
      dsimp only
      rw [Nat.pow_succ', Nat.mul_assoc, hhalf]
      omega
    · rw [Nat.pow_zero, Nat.one_mul]

theorem splitTwos_pos {limit n : Nat} (h : n % 2 = 0) : 0 < (splitTwos (limit + 1) n).1 := by
  rw [splitTwos, if_pos h]
  exact Nat.succ_pos _

theorem squaresReach_eq_true_iff {n count a : Nat} :
    squaresReach n count a = true ↔ ∃ i < count, a ^ 2 ^ (i + 1) % n = n - 1 := by
  induction count generalizing a with
  | zero => simp [squaresReach]
  | succ count ih =>
    have hsquare : ∀ i, (a * a % n) ^ 2 ^ (i + 1) % n = a ^ 2 ^ (i + 2) % n := by
      intro i
      rw [← Nat.pow_mod, mul_self_pow]
    rw [squaresReach]
    simp only [Bool.or_eq_true, beq_iff_eq, ih, hsquare]
    constructor
    · rintro (hnow | ⟨i, hi, hlater⟩)
      · exact ⟨0, Nat.succ_pos count, by rw [Nat.zero_add, Nat.pow_one, Nat.pow_two, hnow]⟩
      · exact ⟨i + 1, Nat.succ_lt_succ hi, hlater⟩
    · rintro ⟨i, hi, h⟩
      cases i with
      | zero =>
        rw [Nat.zero_add, Nat.pow_one, Nat.pow_two] at h
        exact Or.inl h
      | succ i => exact Or.inr ⟨i, Nat.lt_of_succ_lt_succ hi, h⟩

section Residues

variable {n a : Nat}

theorem mod_eq_one_iff (hn : 1 < n) : a % n = 1 ↔ (a : ZMod n) = 1 := by
  rw [← Nat.cast_one (R := ZMod n), ZMod.natCast_eq_natCast_iff', Nat.mod_eq_of_lt hn]

theorem mod_eq_pred_iff (hn : 1 < n) : a % n = n - 1 ↔ (a : ZMod n) = -1 := by
  have hpred : ((n - 1 : Nat) : ZMod n) = -1 := by
    rw [Nat.cast_pred (Nat.zero_lt_of_lt hn), ZMod.natCast_self, zero_sub]
  rw [← hpred, ZMod.natCast_eq_natCast_iff', Nat.mod_eq_of_lt (Nat.sub_one_lt (by omega))]

end Residues

section OneBase

variable {n k d base : Nat}

/-- **What passes with a base**: the first number is one, or one of the `k` squares that start with it
is minus one.  The loop looks at the `k - 1` squares after the first. -/
theorem passes_eq_true_iff (hn : 1 < n) (hk : 0 < k) :
    passes n k d base = true ↔
      (base : ZMod n) ^ d = 1 ∨ ∃ i < k, ((base : ZMod n) ^ d) ^ 2 ^ i = -1 := by
  have hsquare : ∀ i, (base ^ d % n) ^ 2 ^ i % n = n - 1 ↔ ((base : ZMod n) ^ d) ^ 2 ^ i = -1 := by
    intro i
    rw [← Nat.pow_mod, mod_eq_pred_iff hn, Nat.cast_pow, Nat.cast_pow]
  have hfirst : base ^ d % n = n - 1 ↔ ((base : ZMod n) ^ d) ^ 2 ^ 0 = -1 := by
    rw [mod_eq_pred_iff hn, Nat.cast_pow, pow_zero, pow_one]
  rw [passes, powMod_eq]
  simp only [Bool.or_eq_true, beq_iff_eq, squaresReach_eq_true_iff, hsquare, hfirst,
    mod_eq_one_iff hn, Nat.cast_pow]
  constructor
  · rintro ((hone | hneg) | ⟨i, hi, hneg⟩)
    · exact Or.inl hone
    · exact Or.inr ⟨0, hk, hneg⟩
    · exact Or.inr ⟨i + 1, by omega, hneg⟩
  · rintro (hone | ⟨i, hi, hneg⟩)
    · exact Or.inl (Or.inl hone)
    · cases i with
      | zero => exact Or.inl (Or.inr hneg)
      | succ i => exact Or.inr ⟨i, by omega, hneg⟩

/-- Where one has no square roots but one and minus one, squares reach one only from minus one. -/
theorem eq_one_or_exists_eq_neg_one {R : Type} [Ring R] [NoZeroDivisors R] {a : R} {k : Nat}
    (h : a ^ 2 ^ k = 1) : a = 1 ∨ ∃ i < k, a ^ 2 ^ i = -1 := by
  induction k with
  | zero =>
    rw [pow_zero, pow_one] at h
    exact Or.inl h
  | succ k ih =>
    rw [pow_succ, pow_mul, pow_two, mul_self_eq_one_iff] at h
    rcases h with hone | hneg
    · rcases ih hone with ha | ⟨i, hi, hi'⟩
      · exact Or.inl ha
      · exact Or.inr ⟨i, Nat.lt_succ_of_lt hi, hi'⟩
    · exact Or.inr ⟨k, Nat.lt_succ_self k, hneg⟩

/-- **A prime passes with every base** that it does not divide. -/
theorem passes_of_prime {p : Nat} (hp : p.Prime) (hk : 0 < k) (hsplit : 2 ^ k * d = p - 1)
    (hbase : ¬ p ∣ base) : passes p k d base = true := by
  have := Fact.mk hp
  have hne : (base : ZMod p) ≠ 0 := by
    rwa [Ne, ZMod.natCast_eq_zero_iff]
  have hfermat : ((base : ZMod p) ^ d) ^ 2 ^ k = 1 := by
    rw [← pow_mul, Nat.mul_comm d, hsplit]
    exact ZMod.pow_card_sub_one_eq_one hne
  rw [passes_eq_true_iff hp.one_lt hk]
  exact eq_one_or_exists_eq_neg_one hfermat

theorem pow_pred_of_passes (hn : 1 < n) (hk : 0 < k) (hsplit : 2 ^ k * d = n - 1)
    (h : passes n k d base = true) : base ^ (n - 1) ≡ 1 [MOD n] := by
  rw [← ZMod.natCast_eq_natCast_iff, Nat.cast_pow, Nat.cast_one, ← hsplit, Nat.mul_comm, pow_mul]
  rcases (passes_eq_true_iff hn hk).mp h with hone | ⟨i, hi, hneg⟩
  · rw [hone, one_pow]
  · obtain ⟨j, rfl⟩ := Nat.exists_eq_add_of_lt hi
    have heven : Even (2 ^ (j + 1)) := even_two.pow_of_ne_zero (Nat.succ_ne_zero j)
    rw [Nat.add_assoc, pow_add, pow_mul, hneg, heven.neg_one_pow]

end OneBase

/-! ### The whole test -/

theorem prime_of_mem_smallPrimes {q : Nat} (hq : q ∈ smallPrimes) : q.Prime := by
  simp only [smallPrimes, List.mem_cons, List.not_mem_nil, or_false] at hq
  rcases hq with rfl | rfl | rfl | rfl | rfl | rfl | rfl | rfl | rfl | rfl | rfl | rfl <;> norm_num

theorem find?_smallPrimes_eq_none_iff {n : Nat} :
    (smallPrimes.find? fun q => n % q == 0) = none ↔ ∀ q ∈ smallPrimes, ¬ q ∣ n := by
  simp only [List.find?_eq_none, beq_iff_eq, Nat.dvd_iff_mod_eq_zero]

theorem splitTwos_pred_pos {n : Nat} (hn : 1 < n) (hodd : ¬ 2 ∣ n) :
    0 < (splitTwos (n.log2 + 1) (n - 1)).1 := splitTwos_pos (by omega)

/-- **No prime is refused.** -/
theorem probablePrime_of_prime {p : Nat} (hp : p.Prime) : probablePrime p = true := by
  rw [probablePrime, if_neg (Nat.not_le.mpr hp.one_lt)]
  split
  · next q hfind =>
    -- A small prime that divides a prime is that prime.
    have hq := prime_of_mem_smallPrimes (List.mem_of_find?_eq_some hfind)
    have hzero := List.find?_some hfind
    rw [beq_iff_eq] at hzero ⊢
    exact ((Nat.prime_dvd_prime_iff_eq hq hp).mp (Nat.dvd_of_mod_eq_zero hzero)).symm
  · next hnone =>
    rw [find?_smallPrimes_eq_none_iff] at hnone
    have hk := splitTwos_pred_pos hp.one_lt (hnone 2 (by decide))
    rw [List.all_eq_true]
    intro base hbase
    refine passes_of_prime hp hk (splitTwos_eq _ _) ?_
    intro hdvd
    have hsame := (Nat.prime_dvd_prime_iff_eq hp (prime_of_mem_smallPrimes hbase)).mp hdvd
    exact hnone base hbase (hsame ▸ Nat.dvd_refl p)

/-- What passes is one of the small primes, or is divided by none of them and is a probable prime to
each of them as a base. -/
theorem of_probablePrime {n : Nat} (h : probablePrime n = true) :
    n ∈ smallPrimes ∨ ∀ q ∈ smallPrimes, ¬ q ∣ n ∧ n.ProbablePrime q := by
  rw [probablePrime] at h
  split at h
  · contradiction
  next hn =>
  have hone : 1 < n := Nat.not_le.mp hn
  split at h
  · next q hfind =>
    rw [beq_iff_eq] at h
    exact Or.inl (h ▸ List.mem_of_find?_eq_some hfind)
  · next hnone =>
    rw [find?_smallPrimes_eq_none_iff] at hnone
    have hk := splitTwos_pred_pos hone (hnone 2 (by decide))
    rw [List.all_eq_true] at h
    refine Or.inr fun q hq => ⟨hnone q hq, ?_⟩
    rw [Nat.probablePrime_iff_modEq n (prime_of_mem_smallPrimes hq).one_le]
    exact pow_pred_of_passes hone hk (splitTwos_eq _ _) (h q hq)

/-- The squares refuse more than Fermat's congruence does: `41 * 61 * 101` satisfies that for all the
bases. -/
example : probablePrime 252601 = false ∧ ∀ q ∈ smallPrimes, powMod 252601 q 252600 = 1 := by
  decide +kernel

/-! ### The search -/

/-- Going up from `n` in steps of two, with no bound on them, the first number that passes is `l`. -/
inductive Finds : (n l : Nat) → Prop
  | here {n : Nat} (h : probablePrime n = true) : Finds n n
  | next {n l : Nat} (h : probablePrime n = false) (rest : Finds (n + 2) l) : Finds n l

namespace Finds

variable {n l : Nat}

theorem le (h : Finds n l) : n ≤ l := by
  induction h with
  | here _ => exact Nat.le_refl _
  | next _ _ ih => omega

theorem passes (h : Finds n l) : probablePrime l = true := by
  induction h with
  | here hpasses => exact hpasses
  | next _ _ ih => exact ih

theorem unique (h : Finds n l) {m : Nat} (h' : Finds n m) : l = m := by
  induction h with
  | here hpasses =>
    cases h' with
    | here _ => rfl
    | next hrefused _ => rw [hpasses] at hrefused; contradiction
  | next hrefused _ ih =>
    cases h' with
    | here hpasses => rw [hpasses] at hrefused; contradiction
    | next _ hrest => exact ih hrest

theorem le_of_prime (h : Finds n l) (hn : Odd n) (hone : 1 < n) {p : Nat} (hp : p.Prime)
    (hle : n ≤ p) : l ≤ p := by
  induction h with
  | here _ => exact hle
  | @next n l hrefused hrest ih =>
    have hpasses := probablePrime_of_prime hp
    have hne : p ≠ n := by
      rintro rfl
      rw [hpasses] at hrefused
      contradiction
    -- The number in between is even, and more than two.
    have hbetween : p ≠ n + 1 := by
      rintro rfl
      have htwo := hp.even_iff.mp hn.add_one
      omega
    exact ih (hn.add_even even_two) (by omega) (by omega)

theorem nextProbablePrime_eq (h : Finds n l) {limit : Nat} (hlimit : l < n + 2 * limit) :
    nextProbablePrime limit n = l := by
  induction h generalizing limit with
  | here hpasses =>
    cases limit with
    | zero => omega
    | succ limit => rw [nextProbablePrime, if_pos hpasses]
  | next hrefused hrest ih =>
    have hle := hrest.le
    cases limit with
    | zero => omega
    | succ limit =>
      rw [nextProbablePrime, if_neg (by rw [hrefused]; exact Bool.false_ne_true)]
      exact ih (by omega)

end Finds

theorem exists_finds {n steps : Nat} (h : probablePrime (n + 2 * steps) = true) :
    ∃ l, Finds n l ∧ l ≤ n + 2 * steps := by
  induction steps generalizing n with
  | zero => exact ⟨n, .here h, Nat.le_refl n⟩
  | succ steps ih =>
    cases hn : probablePrime n with
    | true => exact ⟨n, .here hn, Nat.le_add_right n _⟩
    | false =>
      have hshift : n + 2 * (steps + 1) = n + 2 + 2 * steps := by omega
      rw [hshift] at h ⊢
      obtain ⟨l, hl, hle⟩ := ih h
      exact ⟨l, .next hn hl, hle⟩

/-- **A search from an odd number ends** below its double, for a prime lies there. -/
theorem exists_finds_lt_double {n : Nat} (hn : Odd n) (hone : 1 < n) :
    ∃ l, Finds n l ∧ l < 2 * n := by
  obtain ⟨p, hp, hlt, hle⟩ := Nat.exists_prime_lt_and_le_two_mul n (by omega)
  have hodd : Odd p := hp.odd_of_ne_two (by omega)
  obtain ⟨steps, hsteps⟩ := (Nat.Odd.sub_odd hodd hn).exists_two_nsmul
  have hwhole : p = n + 2 * steps := by
    rw [smul_eq_mul] at hsteps
    omega
  have hpasses : probablePrime (n + 2 * steps) = true := hwhole ▸ probablePrime_of_prime hp
  obtain ⟨l, hl, hl'⟩ := exists_finds hpasses
  have hne : p ≠ 2 * n := by
    rintro rfl
    exact (Nat.not_odd_iff_even.mpr (even_two_mul n)) hodd
  exact ⟨l, hl, by omega⟩

/-! ### The prime of a statement -/

section Statement

variable (s : Suite) (x y difficulty : Nat)

theorem primeStart_lt : primeStart s x y difficulty < 2 ^ 128 := by
  have hbytes : Bytes.ofBigEndian ((s.digest (statementBytes x y difficulty)).bytes.take 16) <
      2 ^ 128 := by
    refine Nat.lt_of_lt_of_le (Bytes.ofBigEndian_lt _) ?_
    calc 256 ^ ((s.digest (statementBytes x y difficulty)).bytes.take 16).length
        ≤ 256 ^ 16 := Nat.pow_le_pow_right (by decide) (List.length_take_le _ _)
      _ = 2 ^ 128 := by norm_num
  exact Nat.or_lt_two_pow (Nat.or_lt_two_pow hbytes (by decide)) (by decide)

/-- The search for the prime of a statement ends, with no bound on its steps, at `statementPrime`. -/
theorem finds_statementPrime :
    Finds (primeStart s x y difficulty) (statementPrime s x y difficulty) ∧
      statementPrime s x y difficulty < 2 * primeStart s x y difficulty := by
  have hle := le_primeStart s x y difficulty
  obtain ⟨l, hl, hlt⟩ := exists_finds_lt_double (odd_primeStart s x y difficulty) (by omega)
  have heq : statementPrime s x y difficulty = l := hl.nextProbablePrime_eq (by omega)
  rw [heq]
  exact ⟨hl, hlt⟩

/-- **The search for a prime ends**, whatever the statement is.  Every prime passes the test, and what
the search ends with is odd, has 128 or 129 bits, is not below the start, and is not above the first
prime from there on.  It may be no prime, but then it is a probable prime to all the bases. -/
theorem first_prime_found :
    (∀ p : Nat, p.Prime → probablePrime p = true) ∧
    (∀ l, Finds (primeStart s x y difficulty) l ↔ l = statementPrime s x y difficulty) ∧
    Odd (statementPrime s x y difficulty) ∧
    2 ^ 127 < statementPrime s x y difficulty ∧ statementPrime s x y difficulty < 2 ^ 129 ∧
    primeStart s x y difficulty ≤ statementPrime s x y difficulty ∧
    (∀ p : Nat, p.Prime → primeStart s x y difficulty ≤ p →
      statementPrime s x y difficulty ≤ p) ∧
    ∀ q ∈ smallPrimes, ¬ q ∣ statementPrime s x y difficulty ∧
      (statementPrime s x y difficulty).ProbablePrime q := by
  obtain ⟨hfinds, hdouble⟩ := finds_statementPrime s x y difficulty
  have hstart : 1 < primeStart s x y difficulty :=
    Nat.lt_of_lt_of_le (by decide) (le_primeStart s x y difficulty)
  have hodd := odd_statementPrime s x y difficulty
  have hpower : 2 ^ 127 ≠ statementPrime s x y difficulty := by
    intro h
    rw [← h] at hodd
    exact absurd hodd (by decide)
  have hlower := Nat.lt_of_le_of_ne (le_statementPrime s x y difficulty) hpower
  have hupper := primeStart_lt s x y difficulty
  have hlarge : statementPrime s x y difficulty ∉ smallPrimes := by
    intro hmem
    have hsmall : ∀ q ∈ smallPrimes, q ≤ 37 := by decide
    have hle := hsmall _ hmem
    omega
  have honly : ∀ l, Finds (primeStart s x y difficulty) l ↔ l = statementPrime s x y difficulty := by
    intro l
    constructor
    · intro hl
      exact hl.unique hfinds
    · rintro rfl
      exact hfinds
  have hfirst : ∀ p : Nat, p.Prime → primeStart s x y difficulty ≤ p →
      statementPrime s x y difficulty ≤ p := by
    intro p hp hle
    exact hfinds.le_of_prime (odd_primeStart s x y difficulty) hstart hp hle
  exact ⟨fun p hp => probablePrime_of_prime hp, honly, hodd, hlower, by omega, hfinds.le, hfirst,
    (of_probablePrime hfinds.passes).resolve_left hlarge⟩

end Statement

end DelayLedger.Delay
