/-!
# Feeds

A feed hands every item that is published to any number of readers, each of which keeps its own
cursor: the number of items that it has passed.  Only the latest `capacity` items are kept.  A
reader who falls behind is told once how many items were lost to it and goes on with the oldest one
kept.  A feed that is closed publishes no more, and a reader who has passed everything is told so.
-/

namespace DelayLedger

/-- The items published so far: how many there were, and the latest of them, the last one first. -/
structure Feed (α : Type) where
  total : Nat
  recent : List α
  isClosed : Bool

namespace Feed

variable {α : Type}

def capacity : Nat := 64

def empty : Feed α := ⟨0, [], false⟩

def publish (f : Feed α) (x : α) : Feed α :=
  { f with total := f.total + 1, recent := (x :: f.recent).take capacity }

def close (f : Feed α) : Feed α := { f with isClosed := true }

inductive Reception (α : Type)
  | item (x : α)
  | lagged (missed : Nat)
  | nothing
  | closed

/-- What the reader at `cursor` gets next, and where it stands afterwards. -/
def receive (f : Feed α) (cursor : Nat) : Reception α × Nat :=
  if f.total ≤ cursor then (if f.isClosed then .closed else .nothing, cursor)
  else if capacity < f.total - cursor then
    (.lagged (f.total - capacity - cursor), f.total - capacity)
  else
    match f.recent[f.total - cursor - 1]? with
    | some x => (.item x, cursor + 1)
    | none => (.nothing, cursor)

theorem receive_publish (f : Feed α) (x : α) :
    (f.publish x).receive f.total = (.item x, f.total + 1) := by
  have hlag : ¬ f.total + 1 ≤ f.total := Nat.not_succ_le_self _
  have hone : f.total + 1 - f.total = 1 := Nat.add_sub_cancel_left ..
  simp [receive, publish, hlag, hone, capacity]

end Feed

end DelayLedger
