/-!
# Finite sets as ascending lists

A finite set is kept as the list of its elements in ascending order of `lt`.  `Ascending.ofList`
sorts a list and keeps one copy of each element.  When `lt` is a strict linear order (`IsLinear`),
equal sets are equal lists (`eq_of_mem_iff`).
-/

namespace DelayLedger.Ascending

variable {α : Type} (lt : α → α → Bool)

/-- Puts an element in its place, unless it is there already. -/
def insert (x : α) : List α → List α
  | [] => [x]
  | y :: r => if lt x y then x :: y :: r else if lt y x then y :: insert x r else y :: r

/-- The elements of a list in ascending order, each once. -/
def ofList (l : List α) : List α := l.foldr (insert lt) []

variable {lt}

/-- What makes ascending lists stand for sets: `lt` is a strict linear order. -/
structure IsLinear (lt : α → α → Bool) : Prop where
  irrefl : ∀ x, lt x x = false
  trans : ∀ {x y z}, lt x y = true → lt y z = true → lt x z = true
  eq_of_not_lt : ∀ {x y}, lt x y = false → lt y x = false → x = y

def Sorted (lt : α → α → Bool) (l : List α) : Prop := l.Pairwise fun x y => lt x y = true

namespace IsLinear

theorem mem_insert (h : IsLinear lt) {x z : α} {l : List α} : z ∈ insert lt x l ↔ z = x ∨ z ∈ l := by
  induction l with
  | nil => simp [insert]
  | cons y r ih =>
    rw [insert]
    split
    · exact List.mem_cons
    · next hxy =>
      split
      · rw [List.mem_cons, ih, List.mem_cons]
        exact or_left_comm
      · next hyx =>
        have hxy : x = y := h.eq_of_not_lt (by simpa using hxy) (by simpa using hyx)
        rw [hxy, List.mem_cons]
        exact ⟨Or.inr, fun hz => hz.elim Or.inl id⟩

theorem mem_ofList (h : IsLinear lt) {z : α} {l : List α} : z ∈ ofList lt l ↔ z ∈ l := by
  induction l with
  | nil => rfl
  | cons x l ih =>
    rw [List.mem_cons, ← ih]
    exact h.mem_insert

theorem sorted_insert (h : IsLinear lt) {x : α} {l : List α} (hl : Sorted lt l) : Sorted lt (insert lt x l) := by
  induction l with
  | nil => exact List.pairwise_singleton ..
  | cons y r ih =>
    obtain ⟨hy, hr⟩ := List.pairwise_cons.mp hl
    rw [insert]
    split
    · next hxy =>
      refine List.pairwise_cons.mpr ⟨fun z hz => ?_, hl⟩
      rcases List.mem_cons.mp hz with rfl | hz
      · exact hxy
      · exact h.trans hxy (hy z hz)
    · split
      · next hyx =>
        refine List.pairwise_cons.mpr ⟨fun z hz => ?_, ih hr⟩
        rcases h.mem_insert.mp hz with rfl | hz
        · exact hyx
        · exact hy z hz
      · exact hl

theorem sorted_ofList (h : IsLinear lt) (l : List α) : Sorted lt (ofList lt l) := by
  induction l with
  | nil => exact .nil
  | cons x l ih => exact h.sorted_insert ih

theorem nodup_of_sorted (h : IsLinear lt) {l : List α} (hl : Sorted lt l) : l.Nodup := by
  refine hl.imp fun hxy hEq => ?_
  subst hEq
  rw [h.irrefl] at hxy
  contradiction

theorem eq_of_mem_iff (h : IsLinear lt) {l m : List α} (hl : Sorted lt l) (hm : Sorted lt m)
    (hlm : ∀ z, z ∈ l ↔ z ∈ m) : l = m := by
  induction l generalizing m with
  | nil =>
    cases m with
    | nil => rfl
    | cons y m => exact absurd ((hlm y).mpr List.mem_cons_self) List.not_mem_nil
  | cons x l ih =>
    cases m with
    | nil => exact absurd ((hlm x).mp List.mem_cons_self) List.not_mem_nil
    | cons y m =>
      obtain ⟨hx, hl'⟩ := List.pairwise_cons.mp hl
      obtain ⟨hy, hm'⟩ := List.pairwise_cons.mp hm
      have hxy : x = y := by
        rcases List.mem_cons.mp ((hlm x).mp List.mem_cons_self) with hEq | hxm
        · exact hEq
        · rcases List.mem_cons.mp ((hlm y).mpr List.mem_cons_self) with hEq | hyl
          · exact hEq.symm
          · have hxx := h.trans (hx y hyl) (hy x hxm)
            rw [h.irrefl] at hxx
            contradiction
      subst hxy
      have hrest : ∀ z, z ∈ l ↔ z ∈ m := by
        intro z
        constructor
        · intro hz
          rcases List.mem_cons.mp ((hlm z).mp (List.mem_cons_of_mem x hz)) with rfl | hzm
          · have hzz := hx z hz
            rw [h.irrefl] at hzz
            contradiction
          · exact hzm
        · intro hz
          rcases List.mem_cons.mp ((hlm z).mpr (List.mem_cons_of_mem x hz)) with rfl | hzl
          · have hzz := hy z hz
            rw [h.irrefl] at hzz
            contradiction
          · exact hzl
      rw [ih hl' hm' hrest]

/-- The ascending list of a list depends on its elements only. -/
theorem ofList_eq_of_mem_iff (h : IsLinear lt) {l m : List α} (hlm : ∀ z, z ∈ l ↔ z ∈ m) :
    ofList lt l = ofList lt m :=
  h.eq_of_mem_iff (h.sorted_ofList l) (h.sorted_ofList m) fun z => by
    rw [h.mem_ofList, h.mem_ofList, hlm]

end IsLinear

end DelayLedger.Ascending
