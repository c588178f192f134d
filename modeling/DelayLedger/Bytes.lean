import DelayLedger.Ascending

/-!
# Byte strings

A byte string is a list, so that `++`, `take` and the lexicographic `<` are the list ones.  Numbers
enter byte strings in two ways: with a fixed width and the least significant byte first
(`littleEndian`), or with the fewest bytes that hold them and the most significant byte first
(`bigEndian`).  `Digest` is a byte string of exactly 32 bytes.
-/

namespace DelayLedger

abbrev Bytes := List UInt8

namespace Bytes

/-- The lexicographic order of byte strings, a proper initial part coming first. -/
def lt : Bytes → Bytes → Bool
  | [], [] => false
  | [], _ :: _ => true
  | _ :: _, [] => false
  | x :: r, y :: t => if x < y then true else if y < x then false else lt r t

/-- The lowest `width` bytes of a number, least significant first.  Higher bytes are dropped. -/
def littleEndian : (width : Nat) → Nat → Bytes
  | 0, _ => []
  | width + 1, n => UInt8.ofNat n :: littleEndian width (n / 256)

def ofLittleEndian : Bytes → Nat
  | [] => 0
  | b :: r => b.toNat + 256 * ofLittleEndian r

/-- The bytes of a number, most significant first and without leading zeros.  Zero is one zero
byte. -/
def bigEndian (n : Nat) : Bytes := (littleEndian (n.log2 / 8 + 1) n).reverse

def ofBigEndian (b : Bytes) : Nat := b.foldl (fun n x => 256 * n + x.toNat) 0

/-- Eight bytes, least significant first. -/
def ofWord (w : UInt64) : Bytes := littleEndian 8 w.toNat

/-- A length as four bytes, least significant first. -/
def ofLength (n : Nat) : Bytes := littleEndian 4 n

def prefixed (b : Bytes) : Bytes := ofLength b.length ++ b

def ofString (t : String) : Bytes := t.toUTF8.data.toList

@[simp] theorem length_littleEndian (width n : Nat) : (littleEndian width n).length = width := by
  induction width generalizing n with
  | zero => rfl
  | succ width ih => simp [littleEndian, ih]

@[simp] theorem length_ofWord (w : UInt64) : (ofWord w).length = 8 := length_littleEndian 8 _

@[simp] theorem length_ofLength (n : Nat) : (ofLength n).length = 4 := length_littleEndian 4 _

theorem lt_irrefl (x : Bytes) : lt x x = false := by
  induction x with
  | nil => rfl
  | cons a x ih => simp [lt, ih]

theorem lt_trans {x y z : Bytes} (hxy : lt x y = true) (hyz : lt y z = true) : lt x z = true := by
  induction x generalizing y z with
  | nil =>
    cases z with
    | nil => cases y <;> simp [lt] at hyz
    | cons c z => rfl
  | cons a x ih =>
    match y, z with
    | b :: y, c :: z =>
      simp only [lt] at hxy hyz ⊢
      split at hxy
      · next hab =>
        split at hyz
        · next hbc => rw [if_pos (UInt8.lt_trans hab hbc)]
        · next hbc =>
          split at hyz
          · contradiction
          · next hcb =>
            have hbc : b = c := UInt8.le_antisymm (UInt8.not_lt.mp hcb) (UInt8.not_lt.mp hbc)
            rw [if_pos (hbc ▸ hab)]
      · next hab =>
        split at hxy
        · contradiction
        · next hba =>
          have hab : a = b := UInt8.le_antisymm (UInt8.not_lt.mp hba) (UInt8.not_lt.mp hab)
          subst hab
          split at hyz
          · next hac => rw [if_pos hac]
          · next hac =>
            split at hyz
            · contradiction
            · next hca => rw [if_neg hac, if_neg hca]; exact ih hxy hyz

theorem eq_of_lt_eq_false {x y : Bytes} (hxy : lt x y = false) (hyx : lt y x = false) : x = y := by
  induction x generalizing y with
  | nil =>
    cases y with
    | nil => rfl
    | cons b y => simp [lt] at hxy
  | cons a x ih =>
    cases y with
    | nil => simp [lt] at hyx
    | cons b y =>
      simp only [lt] at hxy hyx
      split at hxy
      · contradiction
      · next hab =>
        split at hxy
        · next hba => simp [hba] at hyx
        · next hba =>
          have hab' : a = b := UInt8.le_antisymm (UInt8.not_lt.mp hba) (UInt8.not_lt.mp hab)
          rw [if_neg hba, if_neg hab] at hyx
          rw [hab', ih hxy hyx]

theorem isLinear_lt : Ascending.IsLinear lt := ⟨lt_irrefl, lt_trans, eq_of_lt_eq_false⟩

end Bytes

@[ext] structure Digest where
  bytes : Bytes
  length_eq : bytes.length = 32
deriving DecidableEq

namespace Digest

def ofBytes? (b : Bytes) : Option Digest :=
  if h : b.length = 32 then some ⟨b, h⟩ else none

/-- The digest of 32 zero bytes, which stands for a hash not computed yet. -/
def zero : Digest := ⟨List.replicate 32 0, List.length_replicate⟩

instance : Inhabited Digest := ⟨zero⟩

@[simp] theorem ofBytes?_bytes (d : Digest) : ofBytes? d.bytes = some d := by
  simp [ofBytes?, d.length_eq]

end Digest

end DelayLedger
