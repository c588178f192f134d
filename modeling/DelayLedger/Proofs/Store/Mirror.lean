import DelayLedger.Proofs.Chain.Feed
import DelayLedger.Proofs.Store.Interruption

/-!
# A store that mirrors a chain

A chain grows by calls, and a mirror that joined its feed listens now and then.  `UpTo` is what every
call and every look at the feed keep: the store holds the chain's blocks up to some height, and it holds
all of them unless there is something left to hear.  How many items the feed lost does not matter.

* `UpTo.call`, `UpTo.hear`: one step of the chain, and one of the mirror.
* `Mirrors.upTo`: any number of them.
* `Mirrors.keeps_up`: what the store holds in between, after all has been heard, and in the end.
-/

namespace DelayLedger.Mirror

open Store (Run)

/-! ### One step -/

/-- The store holds the blocks `l` of the chain, which are all of them if all has been heard. -/
structure UpTo (m : Mirror) (c : Chain) (l : List Block) : Prop where
  holds : m.store.Holds l
  front : l <+: c.blocks
  cursor_le : m.cursor ≤ c.feed.total
  level : m.cursor = c.feed.total → l = c.blocks

variable {s : Suite} {x : Store} {first c : Chain} {m : Mirror} {l : List Block}

theorem upTo_start (h : x.Holds c.blocks) : (start x c).UpTo c c.blocks where
  holds := h
  front := List.prefix_refl _
  cursor_le := Nat.le_refl _
  level _ := rfl

/-- **A call may put the chain ahead**, and then there is something to hear. -/
theorem UpTo.call (h : m.UpTo c l) (call : Chain.Call) : m.UpTo (call.run s c) l := by
  obtain ⟨now, accepted, hacc⟩ := Chain.exists_accepts_run s c call
  have htotal : (call.run s c).feed.total = c.feed.total + accepted.length := by
    rw [hacc.feed_eq, Feed.total_foldl_publish]
  have hcursor := h.cursor_le
  refine ⟨h.holds, h.front.trans ⟨accepted, hacc.blocks_eq.symm⟩, by omega, fun hall => ?_⟩
  have hnone : accepted = [] := List.length_eq_zero_iff.mp (by omega)
  rw [hacc.blocks_eq, hnone, List.append_nil]
  exact h.level (by omega)

theorem hear_of_le (h : c.feed.total ≤ m.cursor) : m.hear c = m := by
  rw [hear, Feed.receive_of_le h]
  cases c.feed.isClosed <;> rfl

theorem exists_hear_eq (hc : c.Reachable s) (hlt : m.cursor < c.feed.total) :
    ∃ cursor, m.cursor < cursor ∧ cursor ≤ c.feed.total ∧ m.hear c = ⟨(m.store.sync c).2, cursor⟩ := by
  obtain ⟨cursor, hgt, hle, ⟨b, hheard⟩ | ⟨missed, hheard⟩⟩ :=
    Feed.receive_of_lt hc.length_recent hlt
  · exact ⟨cursor, hgt, hle, by rw [hear, hheard]⟩
  · exact ⟨cursor, hgt, hle, by rw [hear, hheard]⟩

theorem UpTo.sync (h : m.UpTo c l) (hc : c.Reachable s) (hlt : c.length < UInt64.size) :
    (m.store.sync c).2.Holds c.blocks := by
  have hl : l.length < UInt64.size := h.front.length_le.trans_lt (c.length_blocks ▸ hlt)
  obtain ⟨y, hsync, hy⟩ := h.holds.sync_eq hl hc h.front
  rw [hsync]
  exact hy

theorem UpTo.hear (h : m.UpTo c l) (hc : c.Reachable s) (hlt : c.length < UInt64.size) :
    ∃ l', l <+: l' ∧ (m.hear c).UpTo c l' := by
  by_cases hmore : m.cursor < c.feed.total
  · obtain ⟨cursor, -, hle, hheard⟩ := exists_hear_eq hc hmore
    rw [hheard]
    exact ⟨c.blocks, h.front, h.sync hc hlt, List.prefix_refl _, hle, fun _ => rfl⟩
  · rw [hear_of_le (Nat.not_lt.mp hmore)]
    exact ⟨l, List.prefix_refl _, h⟩

theorem UpTo.hearUpTo (h : m.UpTo c l) (hc : c.Reachable s) (hlt : c.length < UInt64.size)
    {count : Nat} (hcount : c.feed.total ≤ m.cursor + count) :
    (m.hearUpTo c count).UpTo c c.blocks := by
  induction count generalizing m l with
  | zero =>
    have hall : m.cursor = c.feed.total := Nat.le_antisymm h.cursor_le hcount
    exact h.level hall ▸ h
  | succ count ih =>
    obtain ⟨l', -, hheard⟩ := h.hear hc hlt
    refine ih hheard ?_
    by_cases hmore : m.cursor < c.feed.total
    · obtain ⟨cursor, hgt, -, heq⟩ := exists_hear_eq hc hmore
      rw [heq]
      show c.feed.total ≤ cursor + count
      omega
    · rw [hear_of_le (Nat.not_lt.mp hmore)]
      omega

/-! ### Whole runs -/

/-- A chain that calls have led to since a mirror began to follow it, and what has become of the
mirror. -/
inductive Mirrors (s : Suite) (x : Store) (first : Chain) : Chain → Mirror → Prop
  | start : Mirrors s x first first (.start x first)
  | call {c : Chain} {m : Mirror} (call : Chain.Call) :
      Mirrors s x first c m → Mirrors s x first (call.run s c) m
  | hear {c : Chain} {m : Mirror} : Mirrors s x first c m → Mirrors s x first c (m.hear c)

namespace Mirrors

theorem reachable (h : Mirrors s x first c m) (hfirst : first.Reachable s) : c.Reachable s := by
  induction h with
  | start => exact hfirst
  | call call _ ih => exact ih.call call
  | hear _ ih => exact ih

theorem upTo (h : Mirrors s x first c m) (hfirst : first.Reachable s) (hx : x.Holds first.blocks)
    (hlt : c.length < UInt64.size) : ∃ l, first.blocks <+: l ∧ m.UpTo c l := by
  induction h with
  | start => exact ⟨first.blocks, List.prefix_refl _, upTo_start hx⟩
  | @call c m call _ ih =>
    -- the chain was no longer before the call
    obtain ⟨now, accepted, hacc⟩ := Chain.exists_accepts_run s c call
    have hgrown : c.length ≤ (call.run s c).length := by
      rw [← Chain.length_blocks, ← Chain.length_blocks, hacc.blocks_eq, List.length_append]
      exact Nat.le_add_right _ _
    obtain ⟨l, hfront, hl⟩ := ih (hgrown.trans_lt hlt)
    exact ⟨l, hfront, hl.call call⟩
  | hear h ih =>
    obtain ⟨l, hfront, hl⟩ := ih hlt
    obtain ⟨l', hmore, hl'⟩ := hl.hear (h.reachable hfirst) hlt
    exact ⟨l', hfront.trans hmore, hl'⟩

/-- A mirror only makes calls on its store, so what is said of interrupted calls holds of it. -/
theorem exists_run (h : Mirrors s x first c m) {log : List (Block × StoreWrite)} (hx : Run x log) :
    ∃ more, Run m.store (log ++ more) := by
  induction h with
  | start => exact ⟨[], (List.append_nil log).symm ▸ hx⟩
  | call _ _ ih => exact ih
  | @hear c m _ ih =>
    obtain ⟨more, hrun⟩ := ih
    have hsynced := hrun.finished (.sync c)
    rw [List.append_assoc] at hsynced
    rw [Mirror.hear]
    split
    · exact ⟨_, hsynced⟩
    · exact ⟨_, hsynced⟩
    · exact ⟨more, hrun⟩

/-- **A mirror keeps up with its chain**, however the calls on the chain and its looks at the feed take
turns.  At every moment the store holds what it began with and loses none of it, up to some height of
the chain; once all has been heard, and when it is finished, it holds the chain. -/
theorem keeps_up (h : Mirrors s x first c m) (hfirst : first.Reachable s)
    (hx : x.Holds first.blocks) (hlt : c.length < UInt64.size)
    (hsize : ∀ b ∈ c.blocks, b.Within UInt64.size) :
    (∃ l, first.blocks <+: l ∧ l <+: c.blocks ∧ m.store.load = .ok l) ∧
      (m.hearAll c).store.load = .ok c.blocks ∧ (m.finish c).load = .ok c.blocks := by
  obtain ⟨l, hfront, hl⟩ := h.upTo hfirst hx hlt
  have hc := h.reachable hfirst
  have hall : c.feed.total ≤ m.cursor + (c.feed.total - m.cursor) := by omega
  refine ⟨⟨l, hfront, hl.front, ?_⟩, ?_, ?_⟩
  · exact hl.holds.load_eq fun b hb => hsize b (hl.front.subset hb)
  · exact (hl.hearUpTo hc hlt hall).holds.load_eq hsize
  · exact (hl.sync hc hlt).load_eq hsize

end Mirrors

end DelayLedger.Mirror
