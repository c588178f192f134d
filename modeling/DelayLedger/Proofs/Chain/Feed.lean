import DelayLedger.Proofs.Chain.Reachable

/-!
# What a chain's feed says

A reader gets only what is kept (`mem_recent_of_receive`), and is told that a feed is closed only when
it is (`isClosed_of_receive`).  The feed of a chain in use is open and keeps blocks of the chain only
(`Reachable.broadcasts`), so that whoever hears of a block finds it on the chain.
-/

namespace DelayLedger

namespace Feed

variable {α : Type} {f : Feed α} {cursor next : Nat} {x y : α}

theorem mem_recent_of_receive (h : f.receive cursor = (.item x, next)) : x ∈ f.recent := by
  rw [receive] at h
  split at h
  · split at h
    · simp at h
    · simp at h
  split at h
  · simp at h
  split at h
  · next y hy =>
    injection h with h
    injection h with h
    exact h ▸ List.mem_of_getElem? hy
  · simp at h

theorem isClosed_of_receive (h : f.receive cursor = (.closed, next)) : f.isClosed = true := by
  rw [receive] at h
  split at h
  · split at h
    · assumption
    · simp at h
  split at h
  · simp at h
  split at h
  · simp at h
  · simp at h

theorem mem_recent_publish (h : y ∈ (f.publish x).recent) : y = x ∨ y ∈ f.recent :=
  List.mem_cons.mp (List.mem_of_mem_take h)

theorem receive_of_le (h : f.total ≤ cursor) :
    f.receive cursor = (if f.isClosed then .closed else .nothing, cursor) := by
  rw [receive, if_pos h]

/-- **A reader who has not passed everything gets something**: the next item if it is still kept, and
else word of how many were lost. -/
theorem receive_of_lt (hkept : f.recent.length = min f.total capacity) (hlt : cursor < f.total) :
    ∃ next, cursor < next ∧ next ≤ f.total ∧
      ((∃ x, f.receive cursor = (.item x, next)) ∨
        ∃ missed, f.receive cursor = (.lagged missed, next)) := by
  rw [receive, if_neg (Nat.not_le.mpr hlt)]
  split
  · next hlagged => exact ⟨f.total - capacity, by omega, Nat.sub_le _ _, Or.inr ⟨_, rfl⟩⟩
  · next hlagged =>
    have hindex : f.total - cursor - 1 < f.recent.length := by omega
    refine ⟨cursor + 1, Nat.lt_succ_self _, hlt, Or.inl ⟨f.recent[f.total - cursor - 1], ?_⟩⟩
    rw [List.getElem?_eq_getElem hindex]

theorem length_recent_publish (h : f.recent.length = min f.total capacity) (x : α) :
    (f.publish x).recent.length = min (f.publish x).total capacity := by
  show ((x :: f.recent).take capacity).length = min (f.total + 1) capacity
  rw [List.length_take, List.length_cons, h]
  omega

theorem length_recent_foldl_publish (h : f.recent.length = min f.total capacity) (l : List α) :
    (l.foldl publish f).recent.length = min (l.foldl publish f).total capacity := by
  induction l generalizing f with
  | nil => exact h
  | cons x l ih => exact ih (length_recent_publish h x)

theorem total_foldl_publish (f : Feed α) (l : List α) :
    (l.foldl publish f).total = f.total + l.length := by
  induction l generalizing f with
  | nil => rfl
  | cons x l ih =>
    rw [List.foldl_cons, ih, List.length_cons]
    show f.total + 1 + l.length = f.total + (l.length + 1)
    omega

end Feed

namespace Chain

/-- The feed of a chain in use: it is open, and what it keeps are blocks of the chain. -/
structure Broadcasts (c : Chain) : Prop where
  open_feed : c.feed.isClosed = false
  recent_subset : ∀ b ∈ c.feed.recent, b ∈ c.blocks

theorem broadcasts_of_empty {c : Chain} (h : c.feed = .empty) : c.Broadcasts := by
  refine ⟨?_, ?_⟩
  · rw [h]
    rfl
  · rw [h]
    exact List.forall_mem_nil _

theorem Broadcasts.push {c : Chain} (h : c.Broadcasts) (b : Block) : (c.push b).Broadcasts where
  open_feed := h.open_feed
  recent_subset d hd := by
    rw [blocks_push, List.mem_append, List.mem_singleton]
    rcases Feed.mem_recent_publish hd with rfl | hd
    · exact Or.inr rfl
    · exact Or.inl (h.recent_subset d hd)

theorem Accepts.broadcasts {s : Suite} {now : UInt64} {c d : Chain} {l : List Block}
    (h : Accepts s now c l d) (hc : c.Broadcasts) : d.Broadcasts := by
  induction h with
  | nil => exact hc
  | cons _ _ ih => exact ih (hc.push _)

theorem feed_of_restoreFrom {s : Suite} {policy : Policy} {now : UInt64} {l earlier : List Block}
    {tip : Block} {c : Chain} (h : restoreFrom s policy now earlier tip l = .ok c) :
    c.feed = .empty := by
  induction l generalizing earlier tip with
  | nil =>
    rw [restoreFrom] at h
    injection h with h
    rw [← h]
  | cons b l ih =>
    rw [restoreFrom] at h
    split at h
    · contradiction
    · exact ih h

theorem feed_of_new {s : Suite} {policy : Policy} {genesis : Block} {c : Chain}
    (h : Chain.new s policy genesis = .ok c) : c.feed = .empty := by
  rw [Chain.new] at h
  split at h
  · contradiction
  · injection h with h
    rw [← h]

theorem feed_of_restore {s : Suite} {policy : Policy} {now : UInt64} {blocks : List Block} {c : Chain}
    (h : Chain.restore s policy now blocks = .ok c) : c.feed = .empty := by
  cases blocks with
  | nil => contradiction
  | cons genesis l =>
    rw [Chain.restore] at h
    split at h
    · contradiction
    · exact feed_of_restoreFrom h

/-- **The feed of a reachable chain** is open and keeps blocks of the chain. -/
theorem Reachable.broadcasts {s : Suite} {c : Chain} (h : Reachable s c) : c.Broadcasts := by
  induction h with
  | new hnew => exact broadcasts_of_empty (feed_of_new hnew)
  | restore hrestore => exact broadcasts_of_empty (feed_of_restore hrestore)
  | @call c call _ ih =>
    obtain ⟨now, accepted, hacc⟩ := exists_accepts_run s c call
    exact hacc.broadcasts ih

theorem Reachable.length_recent {s : Suite} {c : Chain} (h : Reachable s c) :
    c.feed.recent.length = min c.feed.total Feed.capacity := by
  induction h with
  | new hnew =>
    rw [feed_of_new hnew]
    rfl
  | restore hrestore =>
    rw [feed_of_restore hrestore]
    rfl
  | @call c call _ ih =>
    obtain ⟨now, accepted, hacc⟩ := exists_accepts_run s c call
    rw [hacc.feed_eq]
    exact Feed.length_recent_foldl_publish ih accepted

end Chain

end DelayLedger
