import Mathlib
import DelayLedger.Bytes.Number
import DelayLedger.Proofs.Delay.Computation

/-!
# The bytes of a statement

The prime of a statement is drawn from its difficulty, in eight bytes, and then from the bytes of its
element and of its result with nothing between the two.  The bytes tell the difficulty, but not where
the element ends: an element `x` with the result `joined m z` and the element `joined x m` with the
result `z` are the same bytes.

* `Bytes.bigEndian_append_eq_iff`: when two pairs of numbers have the same bytes.
* `Statement.bytes_eq_iff`: when two statements do.
* `Statement.cut_undetermined`: what the bytes determine, and what they leave open.
* `Sample.bytes_of_two`: two statements of the standard suite with the same bytes.
-/

namespace DelayLedger

/-! ### Numbers one after the other -/

namespace Bytes

/-- The number whose bytes are those of `m` followed by those of `n`. -/
def joined (m n : Nat) : Nat := 256 ^ (bigEndian n).length * m + n

variable {m n x y x' y' : Nat}

theorem bigEndian_ne_nil (n : Nat) : bigEndian n ≠ [] := by
  intro hnil
  have hlength := congrArg List.length hnil
  rw [bigEndian, List.length_reverse, length_littleEndian, List.length_nil] at hlength
  omega

theorem bigEndian_joined (hm : m ≠ 0) (n : Nat) :
    bigEndian (joined m n) = bigEndian m ++ bigEndian n := by
  have hvalue : ofBigEndian (bigEndian m ++ bigEndian n) = joined m n := by
    rw [ofBigEndian_append, ofBigEndian_bigEndian, ofBigEndian_bigEndian, joined]
  have hhead : (bigEndian m ++ bigEndian n).head? ≠ some 0 := by
    rw [List.head?_append_of_ne_nil _ (bigEndian_ne_nil m)]
    exact head?_bigEndian hm
  rw [← hvalue]
  exact bigEndian_ofBigEndian (List.append_ne_nil_of_left_ne_nil (bigEndian_ne_nil m) _) hhead

theorem joined_div_mod (n : Nat) : joined (n / 256) (n % 256) = n := by
  have hlt : n % 256 < 256 ^ 1 := by omega
  have hmost := length_bigEndian_le_of_lt Nat.one_ne_zero hlt
  have hleast := List.length_pos_of_ne_nil (bigEndian_ne_nil (n % 256))
  have hlength : (bigEndian (n % 256)).length = 1 := by omega
  rw [joined, hlength, Nat.pow_one, Nat.div_add_mod]

theorem le_joined (m n : Nat) : n ≤ joined m n := Nat.le_add_left n _

theorem eq_joined_iff (hm : m ≠ 0) : x = joined m n ↔ bigEndian x = bigEndian m ++ bigEndian n := by
  rw [← bigEndian_joined hm]
  exact bigEndian_injective.eq_iff.symm

theorem exists_eq_bigEndian {b r : Bytes} (hn : n ≠ 0) (hb : b ≠ []) (h : bigEndian n = b ++ r) :
    ∃ m, m ≠ 0 ∧ b = bigEndian m := by
  have hhead : b.head? ≠ some 0 := by
    have hwhole := head?_bigEndian hn
    rwa [h, List.head?_append_of_ne_nil _ hb] at hwhole
  have hbytes := bigEndian_ofBigEndian hb hhead
  refine ⟨ofBigEndian b, ?_, hbytes.symm⟩
  intro hzero
  rw [hzero] at hbytes
  exact hhead (hbytes ▸ rfl)

/-- `m` stands at the end of the first number of one pair and at the start of the second number of the
other. -/
theorem joined_of_append {b : Bytes} (hx : x ≠ 0) (hy : y ≠ 0) (hb : b ≠ [])
    (hfirst : bigEndian x' = bigEndian x ++ b) (hsecond : bigEndian y = b ++ bigEndian y') :
    ∃ m, m ≠ 0 ∧ x' = joined x m ∧ y = joined m y' := by
  obtain ⟨m, hm, rfl⟩ := exists_eq_bigEndian hy hb hsecond
  exact ⟨m, hm, (eq_joined_iff hx).mpr hfirst, (eq_joined_iff hm).mpr hsecond⟩

/-- **When two pairs of numbers have the same bytes**: they are the same, or the second pair is the first
one cut in another place. -/
theorem bigEndian_append_eq_iff (hx : x ≠ 0) (hy : y ≠ 0) (hx' : x' ≠ 0) (hy' : y' ≠ 0) :
    bigEndian x ++ bigEndian y = bigEndian x' ++ bigEndian y' ↔
      (x = x' ∧ y = y') ∨ (∃ m, m ≠ 0 ∧ x' = joined x m ∧ y = joined m y') ∨
        ∃ m, m ≠ 0 ∧ x = joined x' m ∧ y' = joined m y := by
  constructor
  · intro h
    rcases List.append_eq_append_iff.mp h with ⟨b, hfirst, hsecond⟩ | ⟨b, hfirst, hsecond⟩
    · by_cases hb : b = []
      · rw [hb, List.append_nil] at hfirst
        rw [hb, List.nil_append] at hsecond
        exact Or.inl ⟨(bigEndian_injective hfirst).symm, bigEndian_injective hsecond⟩
      · exact Or.inr (Or.inl (joined_of_append hx hy hb hfirst hsecond))
    · by_cases hb : b = []
      · rw [hb, List.append_nil] at hfirst
        rw [hb, List.nil_append] at hsecond
        exact Or.inl ⟨bigEndian_injective hfirst, (bigEndian_injective hsecond).symm⟩
      · exact Or.inr (Or.inr (joined_of_append hx' hy' hb hfirst hsecond))
  · rintro (⟨rfl, rfl⟩ | ⟨m, hm, rfl, rfl⟩ | ⟨m, hm, rfl, rfl⟩)
    · rfl
    · rw [bigEndian_joined hx, bigEndian_joined hm, List.append_assoc]
    · rw [bigEndian_joined hx', bigEndian_joined hm, List.append_assoc]

end Bytes

/-! ### Statements -/

namespace Delay

/-- The difficulty has a fixed width, and can be told from what follows. -/
theorem statementBytes_eq_iff {x y x' y' : Nat} {difficulty difficulty' : UInt64} :
    statementBytes x y difficulty.toNat = statementBytes x' y' difficulty'.toNat ↔
      difficulty = difficulty' ∧
        Bytes.bigEndian x ++ Bytes.bigEndian y = Bytes.bigEndian x' ++ Bytes.bigEndian y' := by
  rw [statementBytes, statementBytes]
  simp only [List.append_assoc]
  constructor
  · intro h
    obtain ⟨hword, hrest⟩ := List.append_inj (List.append_cancel_left h)
      (by rw [Bytes.length_littleEndian, Bytes.length_littleEndian])
    exact ⟨Bytes.ofWord_injective hword, hrest⟩
  · rintro ⟨rfl, hrest⟩
    rw [hrest]

/-- That so many squarings lead from one element to another. -/
@[ext] structure Statement (s : Suite) where
  difficulty : UInt64
  element : Nat
  result : Nat
  element_ne_zero : element ≠ 0
  element_lt : element < s.modulus
  result_ne_zero : result ≠ 0
  result_lt : result < s.modulus

namespace Statement

variable {s : Suite} (a b : Statement s)

/-- What is hashed for the prime of a statement. -/
def bytes : Bytes := statementBytes a.element a.result a.difficulty.toNat

def prime : Nat := statementPrime s a.element a.result a.difficulty.toNat

/-- `b` is `a` cut further on: some bytes that start the result of `a` end the element of `b`. -/
def CutsOn : Prop :=
  a.difficulty = b.difficulty ∧
    ∃ m, m ≠ 0 ∧ b.element = Bytes.joined a.element m ∧ a.result = Bytes.joined m b.result

end Statement

def statementOf {s : Suite} (hs : s.HasGroup) (difficulty : UInt64) {challenge : Bytes}
    (hx : Nat.Coprime (groupElement s challenge) s.modulus) : Statement s where
  difficulty := difficulty
  element := groupElement s challenge
  result := outputOf s difficulty challenge
  element_ne_zero := by
    intro hzero
    rw [hzero, Nat.coprime_zero_left] at hx
    have htwo := hs.two_lt
    omega
  element_lt := groupElement_lt hs challenge
  result_ne_zero := pow_mod_ne_zero hs hx _
  result_lt := Nat.mod_lt _ (Nat.zero_lt_of_lt hs.two_lt)

section Computed

variable {s : Suite} (hs : s.HasGroup) (difficulty : UInt64) {challenge : Bytes}
  (hx : Nat.Coprime (groupElement s challenge) s.modulus)

@[simp] theorem statementOf_element :
    (statementOf hs difficulty hx).element = groupElement s challenge :=
  rfl

@[simp] theorem statementOf_result :
    (statementOf hs difficulty hx).result = outputOf s difficulty challenge :=
  rfl

theorem prime_statementOf : (statementOf hs difficulty hx).prime = primeOf s difficulty challenge := by
  rw [Statement.prime, primeOf, statementOf_element, statementOf_result]
  rfl

end Computed

namespace Statement

variable {s : Suite} {a b : Statement s}

/-- **When two statements have the same bytes**: they are equal, or cut in different places. -/
theorem bytes_eq_iff : a.bytes = b.bytes ↔ a = b ∨ a.CutsOn b ∨ b.CutsOn a := by
  rw [bytes, bytes, statementBytes_eq_iff, Bytes.bigEndian_append_eq_iff a.element_ne_zero
    a.result_ne_zero b.element_ne_zero b.result_ne_zero]
  constructor
  · rintro ⟨hdifficulty, ⟨hx, hy⟩ | hfurther | hearlier⟩
    · exact Or.inl (Statement.ext hdifficulty hx hy)
    · exact Or.inr (Or.inl ⟨hdifficulty, hfurther⟩)
    · exact Or.inr (Or.inr ⟨hdifficulty.symm, hearlier⟩)
  · rintro (rfl | ⟨hdifficulty, hfurther⟩ | ⟨hdifficulty, hearlier⟩)
    · exact ⟨rfl, Or.inl ⟨rfl, rfl⟩⟩
    · exact ⟨hdifficulty, Or.inr (Or.inl hfurther)⟩
    · exact ⟨hdifficulty.symm, Or.inr (Or.inr hearlier)⟩

theorem prime_eq_of_bytes_eq (h : a.bytes = b.bytes) : a.prime = b.prime := by
  rw [bytes, bytes] at h
  rw [prime, prime, statementPrime, statementPrime, primeStart, primeStart, h]

theorem CutsOn.length_lt (h : a.CutsOn b) :
    (Bytes.bigEndian a.element).length < (Bytes.bigEndian b.element).length ∧
      (Bytes.bigEndian b.result).length < (Bytes.bigEndian a.result).length := by
  obtain ⟨-, m, hm, helement, hresult⟩ := h
  have hpos := List.length_pos_of_ne_nil (Bytes.bigEndian_ne_nil m)
  rw [helement, hresult, Bytes.bigEndian_joined a.element_ne_zero, Bytes.bigEndian_joined hm,
    List.length_append, List.length_append]
  omega

/-- A statement cut one byte earlier: the last byte of the element goes in front of the result, where the
modulus leaves room for it. -/
def cutEarlier (a : Statement s) (hbefore : a.element / 256 ≠ 0)
    (hroom : Bytes.joined (a.element % 256) a.result < s.modulus) : Statement s where
  difficulty := a.difficulty
  element := a.element / 256
  result := Bytes.joined (a.element % 256) a.result
  element_ne_zero := hbefore
  element_lt := Nat.lt_of_le_of_lt (Nat.div_le_self _ _) a.element_lt
  result_ne_zero := Nat.ne_of_gt
    (Nat.lt_of_lt_of_le (Nat.pos_of_ne_zero a.result_ne_zero) (Bytes.le_joined _ _))
  result_lt := hroom

theorem cutEarlier_cutsOn {hbefore : a.element / 256 ≠ 0}
    {hroom : Bytes.joined (a.element % 256) a.result < s.modulus} (hlast : a.element % 256 ≠ 0) :
    (a.cutEarlier hbefore hroom).CutsOn a :=
  ⟨rfl, a.element % 256, hlast, (Bytes.joined_div_mod a.element).symm, rfl⟩

theorem eq_of_bytes_eq (h : a.bytes = b.bytes)
    (hlength : (Bytes.bigEndian a.element).length = (Bytes.bigEndian b.element).length) : a = b := by
  rcases bytes_eq_iff.mp h with heq | hfurther | hearlier
  · exact heq
  · exact absurd hlength (Nat.ne_of_lt hfurther.length_lt.1)
  · exact absurd hlength.symm (Nat.ne_of_lt hearlier.length_lt.1)

theorem eq_of_bytes_eq_of_full (hs : s.HasGroup) (h : a.bytes = b.bytes)
    (helement : (Bytes.bigEndian a.element).length = modulusBytes)
    (hresult : (Bytes.bigEndian a.result).length = modulusBytes) : a = b := by
  have hmostElement := length_le_modulusBytes hs b.element_lt
  have hmostResult := length_le_modulusBytes hs b.result_lt
  rcases bytes_eq_iff.mp h with heq | hfurther | hearlier
  · exact heq
  · have hlt := hfurther.length_lt.1
    omega
  · have hlt := hearlier.length_lt.2
    omega

theorem verify_of_bytes_eq (hs : s.HasGroup) {difficulty : UInt64} (hdifficulty : difficulty ≠ 0)
    {challenge : Bytes} (hx : Nat.Coprime (groupElement s challenge) s.modulus)
    (h : b.bytes = (statementOf hs difficulty hx).bytes) :
    verify s difficulty challenge ⟨Bytes.bigEndian (outputOf s difficulty challenge),
      Bytes.bigEndian
        (groupElement s challenge ^ (2 ^ difficulty.toNat / b.prime) % s.modulus)⟩ = true := by
  rw [prime_eq_of_bytes_eq h, prime_statementOf]
  exact verify_honest hs hdifficulty hx

/-- **What the bytes of a statement determine**: the difficulty and the numbers up to the place where
they are cut.  Statements that differ in this place only share their prime; elements of one length, as
one challenge has them, and numbers as long as the modulus leave no choice of the place. -/
theorem cut_undetermined (hs : s.HasGroup) (a b : Statement s) :
    (a.bytes = b.bytes ↔ a = b ∨ a.CutsOn b ∨ b.CutsOn a) ∧
    (a.CutsOn b → a ≠ b ∧ a.prime = b.prime) ∧
    (a.bytes = b.bytes →
      (Bytes.bigEndian a.element).length = (Bytes.bigEndian b.element).length → a = b) ∧
    (a.bytes = b.bytes → (Bytes.bigEndian a.element).length = modulusBytes →
      (Bytes.bigEndian a.result).length = modulusBytes → a = b) := by
  refine ⟨bytes_eq_iff, ?_, eq_of_bytes_eq, eq_of_bytes_eq_of_full hs⟩
  intro hcut
  refine ⟨?_, prime_eq_of_bytes_eq (bytes_eq_iff.mpr (Or.inr (Or.inl hcut)))⟩
  rintro rfl
  exact Nat.lt_irrefl _ hcut.length_lt.1

end Statement

theorem squarings_eq_outputOf {s : Suite} (hs : s.HasGroup) (difficulty : UInt64)
    (challenge : Bytes) :
    squarings s.modulus (fun _ => false) difficulty.toNat 0 (groupElement s challenge) =
      some (outputOf s difficulty challenge) := by
  refine squarings_eq_some (groupElement_lt hs challenge) ?_
  rintro ⟨i, -, hup⟩
  rw [aborted, Bool.and_false] at hup
  exact Bool.false_ne_true hup

end Delay

namespace Sample

/-- A challenge whose result after two hundred squarings has 255 bytes only. -/
def shortened : Bytes := Bytes.ofString "round 110"

set_option maxRecDepth 100000 in
/-- The element is coprime to the modulus, its last byte is not zero, and the result leaves room for this
byte in front of it. -/
theorem shortened_evaluated :
    Nat.Coprime (Delay.groupElement Suite.standard shortened) Suite.standard.modulus ∧
      Delay.groupElement Suite.standard shortened / 256 ≠ 0 ∧
      Delay.groupElement Suite.standard shortened % 256 ≠ 0 ∧
      (Delay.squarings Suite.standard.modulus (fun _ => false) (200 : UInt64).toNat 0
        (Delay.groupElement Suite.standard shortened)).all (fun y =>
          decide (Bytes.joined (Delay.groupElement Suite.standard shortened % 256) y <
            Suite.standard.modulus)) = true := by
  decide +kernel

theorem shortened_coprime :
    Nat.Coprime (Delay.groupElement Suite.standard shortened) Suite.standard.modulus :=
  shortened_evaluated.1

theorem shortened_result :
    Bytes.joined (Delay.groupElement Suite.standard shortened % 256)
      (Delay.outputOf Suite.standard 200 shortened) < Suite.standard.modulus := by
  have hroom := shortened_evaluated.2.2.2
  rw [Delay.squarings_eq_outputOf Suite.standard_hasGroup, Option.all_some, decide_eq_true_eq] at hroom
  exact hroom

def computed : Delay.Statement Suite.standard :=
  Delay.statementOf Suite.standard_hasGroup 200 shortened_coprime

theorem computed_element : computed.element = Delay.groupElement Suite.standard shortened :=
  Delay.statementOf_element ..

theorem computed_result : computed.result = Delay.outputOf Suite.standard 200 shortened :=
  Delay.statementOf_result ..

def recut : Delay.Statement Suite.standard :=
  computed.cutEarlier (by rw [computed_element]; exact shortened_evaluated.2.1)
    (by rw [computed_element, computed_result]; exact shortened_result)

theorem recut_cutsOn : recut.CutsOn computed :=
  Delay.Statement.cutEarlier_cutsOn (by rw [computed_element]; exact shortened_evaluated.2.2.1)

/-- A witness for the prime of another statement is accepted. -/
theorem recut_accepted :
    recut ≠ computed ∧ recut.prime = computed.prime ∧
      Delay.verify Suite.standard 200 shortened
        ⟨Bytes.bigEndian (Delay.outputOf Suite.standard 200 shortened),
          Bytes.bigEndian (Delay.groupElement Suite.standard shortened ^
            (2 ^ (200 : UInt64).toNat / recut.prime) % Suite.standard.modulus)⟩ = true := by
  obtain ⟨hbytes, hcut, -, -⟩ :=
    Delay.Statement.cut_undetermined Suite.standard_hasGroup recut computed
  obtain ⟨hne, hprime⟩ := hcut recut_cutsOn
  have hsame := hbytes.mpr (Or.inr (Or.inl recut_cutsOn))
  exact ⟨hne, hprime, Delay.Statement.verify_of_bytes_eq Suite.standard_hasGroup (by decide)
    shortened_coprime hsame⟩

/-- The bytes of a statement do not tell the statement. -/
theorem bytes_of_two : ¬ Function.Injective (Delay.Statement.bytes (s := Suite.standard)) := by
  intro hinjective
  have hsame : recut = computed :=
    hinjective (Delay.Statement.bytes_eq_iff.mpr (Or.inr (Or.inl recut_cutsOn)))
  have hlength := recut_cutsOn.length_lt.1
  rw [hsame] at hlength
  exact Nat.lt_irrefl _ hlength

end Sample

end DelayLedger
