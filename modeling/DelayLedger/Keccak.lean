import DelayLedger.Bytes

/-!
# The Keccak sponge

The permutation works on 25 lanes of 64 bits, kept as five planes of five lanes.  A message is
absorbed lane by lane: `rate` lanes of the state take input, and the permutation runs each time
they are full.  `sha3` is SHA3-256; `shake128` and `shake256` squeeze as many bytes as are wanted;
`Stream` hands out the squeezed bytes one block at a time for readers that do not know in advance
how many they need.
-/

namespace DelayLedger.Keccak

structure Plane where
  a : UInt64
  b : UInt64
  c : UInt64
  d : UInt64
  e : UInt64

/-- The 25 lanes, row by row. -/
structure State where
  p : Plane
  q : Plane
  r : Plane
  s : Plane
  t : Plane

namespace Plane

def zero : Plane := ⟨0, 0, 0, 0, 0⟩

@[inline] def xor (u v : Plane) : Plane :=
  ⟨u.a ^^^ v.a, u.b ^^^ v.b, u.c ^^^ v.c, u.d ^^^ v.d, u.e ^^^ v.e⟩

/-- Each lane is combined with the two after it, in a circle. -/
@[inline] def mix (u : Plane) : Plane :=
  ⟨u.a ^^^ (~~~u.b &&& u.c), u.b ^^^ (~~~u.c &&& u.d), u.c ^^^ (~~~u.d &&& u.e),
    u.d ^^^ (~~~u.e &&& u.a), u.e ^^^ (~~~u.a &&& u.b)⟩

def xorLane (u : Plane) (i : Nat) (w : UInt64) : Plane :=
  match i with
  | 0 => { u with a := u.a ^^^ w }
  | 1 => { u with b := u.b ^^^ w }
  | 2 => { u with c := u.c ^^^ w }
  | 3 => { u with d := u.d ^^^ w }
  | _ => { u with e := u.e ^^^ w }

def lanes (u : Plane) : List UInt64 := [u.a, u.b, u.c, u.d, u.e]

end Plane

@[inline] def rotate (w : UInt64) (k : UInt64) : UInt64 := (w <<< k) ||| (w >>> (64 - k))

namespace State

def zero : State := ⟨.zero, .zero, .zero, .zero, .zero⟩

/-- Adds the parity of the two neighbouring columns to every lane. -/
def diffuse (x : State) : State :=
  let c := x.p.xor (x.q.xor (x.r.xor (x.s.xor x.t)))
  let d : Plane := ⟨c.e ^^^ rotate c.b 1, c.a ^^^ rotate c.c 1, c.b ^^^ rotate c.d 1,
    c.c ^^^ rotate c.e 1, c.d ^^^ rotate c.a 1⟩
  ⟨x.p.xor d, x.q.xor d, x.r.xor d, x.s.xor d, x.t.xor d⟩

/-- Turns every lane by its own amount and moves it to its new row. -/
def scatter (x : State) : State :=
  ⟨⟨x.p.a, rotate x.q.b 44, rotate x.r.c 43, rotate x.s.d 21, rotate x.t.e 14⟩,
    ⟨rotate x.p.d 28, rotate x.q.e 20, rotate x.r.a 3, rotate x.s.b 45, rotate x.t.c 61⟩,
    ⟨rotate x.p.b 1, rotate x.q.c 6, rotate x.r.d 25, rotate x.s.e 8, rotate x.t.a 18⟩,
    ⟨rotate x.p.e 27, rotate x.q.a 36, rotate x.r.b 10, rotate x.s.c 15, rotate x.t.d 56⟩,
    ⟨rotate x.p.c 62, rotate x.q.d 55, rotate x.r.e 39, rotate x.s.a 41, rotate x.t.b 2⟩⟩

def round (x : State) (constant : UInt64) : State :=
  let y := x.diffuse.scatter
  let p := y.p.mix
  ⟨{ p with a := p.a ^^^ constant }, y.q.mix, y.r.mix, y.s.mix, y.t.mix⟩

def roundConstants : List UInt64 :=
  [0x0000000000000001, 0x0000000000008082, 0x800000000000808a, 0x8000000080008000,
    0x000000000000808b, 0x0000000080000001, 0x8000000080008081, 0x8000000000008009,
    0x000000000000008a, 0x0000000000000088, 0x0000000080008009, 0x000000008000000a,
    0x000000008000808b, 0x800000000000008b, 0x8000000000008089, 0x8000000000008003,
    0x8000000000008002, 0x8000000000000080, 0x000000000000800a, 0x800000008000000a,
    0x8000000080008081, 0x8000000000008080, 0x0000000080000001, 0x8000000080008008]

def permute (x : State) : State := roundConstants.foldl round x

def xorLane (x : State) (i : Nat) (w : UInt64) : State :=
  match i / 5 with
  | 0 => { x with p := x.p.xorLane (i % 5) w }
  | 1 => { x with q := x.q.xorLane (i % 5) w }
  | 2 => { x with r := x.r.xorLane (i % 5) w }
  | 3 => { x with s := x.s.xorLane (i % 5) w }
  | _ => { x with t := x.t.xorLane (i % 5) w }

def lanes (x : State) : List UInt64 :=
  x.p.lanes ++ x.q.lanes ++ x.r.lanes ++ x.s.lanes ++ x.t.lanes

end State

def laneOf (bytes : Bytes) : UInt64 :=
  bytes.foldr (fun b w => (w <<< 8) ||| b.toUInt64) 0

def laneBytes (w : UInt64) : Bytes :=
  [w.toUInt8, (w >>> 8).toUInt8, (w >>> 16).toUInt8, (w >>> 24).toUInt8,
    (w >>> 32).toUInt8, (w >>> 40).toUInt8, (w >>> 48).toUInt8, (w >>> 56).toUInt8]

/-- Absorbs the rest of a message, the next input lane being number `i`.  The last lane carries
`suffix` behind the message's end, and the last bit of the block is set.  The permutation that
follows the last block is left to whoever squeezes. -/
def absorb (rate : Nat) (suffix : UInt8) (x : State) (i : Nat) : Bytes → State
  | b₀ :: b₁ :: b₂ :: b₃ :: b₄ :: b₅ :: b₆ :: b₇ :: rest =>
    let y := x.xorLane i (b₀.toUInt64 ||| (b₁.toUInt64 <<< 8) ||| (b₂.toUInt64 <<< 16) |||
      (b₃.toUInt64 <<< 24) ||| (b₄.toUInt64 <<< 32) ||| (b₅.toUInt64 <<< 40) |||
      (b₆.toUInt64 <<< 48) ||| (b₇.toUInt64 <<< 56))
    if i + 1 < rate then absorb rate suffix y (i + 1) rest
    else absorb rate suffix y.permute 0 rest
  | last => (x.xorLane i (laneOf (last ++ [suffix]))).xorLane (rate - 1) 0x8000000000000000

def block (rate : Nat) (x : State) : Bytes := (x.lanes.take rate).flatMap laneBytes

/-- A sponge that has absorbed its message and is ready to be squeezed. -/
structure Stream where
  rate : Nat
  state : State

def Stream.next (x : Stream) : Bytes × Stream :=
  let y := x.state.permute
  (block x.rate y, { x with state := y })

def Stream.blocks (x : Stream) : (count : Nat) → Bytes
  | 0 => []
  | count + 1 => x.next.1 ++ x.next.2.blocks count

def Stream.read (x : Stream) (length : Nat) : Bytes :=
  (x.blocks (length / (8 * x.rate) + 1)).take length

def shake128 (message : Bytes) : Stream := ⟨21, absorb 21 0x1f .zero 0 message⟩

def shake256 (message : Bytes) : Stream := ⟨17, absorb 17 0x1f .zero 0 message⟩

theorem length_laneBytes (w : UInt64) : (laneBytes w).length = 8 := rfl

theorem length_flatMap_laneBytes (l : List UInt64) : (l.flatMap laneBytes).length = 8 * l.length := by
  induction l with
  | nil => rfl
  | cons w l ih => simp [List.flatMap_cons, length_laneBytes, ih]; omega

/-- The SHA3-256 digest of a message: the first four lanes of the sponge. -/
def sha3 (message : Bytes) : Digest :=
  ⟨((absorb 17 0x06 .zero 0 message).permute.lanes.take 4).flatMap laneBytes, by
    rw [length_flatMap_laneBytes]; simp [State.lanes, Plane.lanes]⟩

end DelayLedger.Keccak
