/-!
# Finite maps

A `Table` is a list of keys and values.  `put` replaces what the table holds under a key, and `get?`
sees the latest value of each key (`get?_put`).
-/

namespace DelayLedger

abbrev Table (κ ν : Type) := List (κ × ν)

namespace Table

variable {κ ν : Type} [DecidableEq κ]

def get? (t : Table κ ν) (key : κ) : Option ν := t.lookup key

def erase (t : Table κ ν) (key : κ) : Table κ ν := t.filter (·.1 ≠ key)

def put (t : Table κ ν) (key : κ) (value : ν) : Table κ ν := (key, value) :: t.erase key

theorem get?_erase (t : Table κ ν) (key other : κ) :
    (t.erase key).get? other = if other = key then none else t.get? other := by
  induction t with
  | nil => exact (ite_self none).symm
  | cons entry t ih =>
    rw [erase, get?, get?] at ih
    rw [erase, get?, get?, List.filter_cons]
    by_cases hkey : entry.1 = key
    · rw [if_neg (by simpa using hkey), ih]
      by_cases hother : other = key
      · rw [if_pos hother, if_pos hother]
      · have hne : (other == entry.1) = false := by simpa [hkey] using hother
        rw [if_neg hother, if_neg hother, List.lookup_cons, hne]
    · rw [if_pos (by simpa using hkey), List.lookup_cons, List.lookup_cons, ih]
      by_cases hother : other = entry.1
      · simp [hother, hkey]
      · have hne : (other == entry.1) = false := by simpa using hother
        rw [hne]

theorem get?_put (t : Table κ ν) (key other : κ) (value : ν) :
    (t.put key value).get? other = if other = key then some value else t.get? other := by
  rw [put, get?, List.lookup_cons]
  split
  · next h => rw [if_pos (eq_of_beq h)]
  · next h =>
    have hne : other ≠ key := by simpa using h
    have herase := t.get?_erase key other
    rw [if_neg hne] at herase ⊢
    exact herase

end Table

end DelayLedger
