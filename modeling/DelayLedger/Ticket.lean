import DelayLedger.Ascending
import DelayLedger.Suite

/-!
# Tickets

Each candidate draws a ticket from the seed of a round: the digest of the seed and the candidate's
identity.  Candidates are ordered by ticket, and by identity where tickets collide, so the order is
strict and does not depend on how the candidates were listed.
-/

namespace DelayLedger

/-- A candidate's draw.  The candidate of rank 0 produces the next block. -/
structure Ticket where
  identity : Bytes
  value : Digest
  rank : Nat
deriving DecidableEq

namespace Ticket

def domain : Bytes := Bytes.ofString "vdfchain/ticket/v1"

variable (s : Suite)

def valueOf (seed identity : Bytes) : Digest :=
  s.digest (domain ++ Bytes.prefixed seed ++ identity)

/-- The order of draws: by value, then by identity. -/
def drawLt (a b : Digest × Bytes) : Bool :=
  Bytes.lt a.1.bytes b.1.bytes || (a.1.bytes == b.1.bytes && Bytes.lt a.2 b.2)

theorem isLinear_drawLt : Ascending.IsLinear drawLt where
  irrefl x := by simp [drawLt, Bytes.lt_irrefl]
  trans {x y z} hxy hyz := by
    simp only [drawLt, Bool.or_eq_true, Bool.and_eq_true, beq_iff_eq] at hxy hyz ⊢
    rcases hxy with hxy | ⟨hxy, hx⟩
    · rcases hyz with hyz | ⟨hyz, _⟩
      · exact Or.inl (Bytes.lt_trans hxy hyz)
      · exact Or.inl (hyz ▸ hxy)
    · rcases hyz with hyz | ⟨hyz, hy⟩
      · exact Or.inl (hxy ▸ hyz)
      · exact Or.inr ⟨hxy.trans hyz, Bytes.lt_trans hx hy⟩
  eq_of_not_lt {x y} hxy hyx := by
    simp only [drawLt, Bool.or_eq_false_iff, Bool.and_eq_false_iff, beq_eq_false_iff_ne] at hxy hyx
    have hvalue : x.1.bytes = y.1.bytes := Bytes.eq_of_lt_eq_false hxy.1 hyx.1
    have hx : Bytes.lt x.2 y.2 = false := hxy.2.resolve_left fun hne => hne hvalue
    have hy : Bytes.lt y.2 x.2 = false := hyx.2.resolve_left fun hne => hne hvalue.symm
    exact Prod.ext (Digest.ext hvalue) (Bytes.eq_of_lt_eq_false hx hy)

def draws (seed : Bytes) (candidates : List Bytes) : List (Digest × Bytes) :=
  Ascending.ofList drawLt (candidates.map fun identity => (valueOf s seed identity, identity))

/-- The tickets of the candidates in order, with their ranks, which are numbers of 32 bits. -/
def draw (seed : Bytes) (candidates : List Bytes) : List Ticket :=
  (draws s seed candidates).mapIdx fun place d => ⟨d.2, d.1, place % UInt32.size⟩

def order (seed : Bytes) (candidates : List Bytes) : List Bytes :=
  (draws s seed candidates).map (·.2)

theorem mem_order {seed identity : Bytes} {candidates : List Bytes} :
    identity ∈ order s seed candidates ↔ identity ∈ candidates := by
  simp [order, draws, isLinear_drawLt.mem_ofList]

/-- The order of tickets depends on the set of candidates only. -/
theorem order_eq_of_mem_iff {seed : Bytes} {l m : List Bytes}
    (hlm : ∀ identity, identity ∈ l ↔ identity ∈ m) : order s seed l = order s seed m := by
  have hdraws : draws s seed l = draws s seed m := by
    refine isLinear_drawLt.ofList_eq_of_mem_iff fun d => ?_
    simp [hlm]
  rw [order, order, hdraws]

end Ticket

end DelayLedger
