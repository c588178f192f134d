import DelayLedger.Bytes.Number
import DelayLedger.Proofs.Block.Format
import DelayLedger.Store

/-!
# What a store holds

`x.Holds l` says that the store `x` holds the blocks `l`: the head is the height of the last one, the
heights count from zero, and each block is recorded under its height.  Nothing is said of records
above the head: a record that was written without its head stays there until the block of that height
is put (`Holds.write_record`, `Holds.write_head`).

* `Holds.put_eq`: what putting a block does.
* `Holds.get_eq`, `Holds.load_eq`: the blocks are read back as they are.
-/

namespace DelayLedger.Store

/-! ### Keys -/

theorem ofBigEndian_heightKey (height : UInt64) :
    Bytes.ofBigEndian (heightKey height) = height.toNat := by
  rw [Bytes.ofBigEndian_eq, heightKey, List.reverse_reverse, Bytes.ofWord,
    Bytes.ofLittleEndian_littleEndian]
  exact Nat.mod_eq_of_lt height.toNat_lt

theorem length_heightKey (height : UInt64) : (heightKey height).length = 8 := by
  rw [heightKey, List.length_reverse, Bytes.length_ofWord]

theorem heightKey_injective {v w : UInt64} (h : heightKey v = heightKey w) : v = w :=
  Bytes.ofWord_injective (List.reverse_injective h)

/-! ### The invariant -/

structure Holds (x : Store) (l : List Block) : Prop where
  root_eq : x.root.get? headKey = l.getLast?.map fun b => heightKey b.height
  height_eq : ∀ {i : Nat} {b : Block}, l[i]? = some b → b.height.toNat = i
  record_eq : ∀ b ∈ l, x.records.get? (heightKey b.height) = some (Record.encode b)

theorem holds_empty : empty.Holds [] := ⟨rfl, nofun, nofun⟩

namespace Holds

variable {x y : Store} {l : List Block} {b : Block}

theorem height_lt (h : x.Holds l) {d : Block} (hd : d ∈ l) : d.height.toNat < l.length := by
  obtain ⟨i, hi⟩ := List.mem_iff_getElem?.mp hd
  rw [h.height_eq hi]
  exact (List.getElem?_eq_some_iff.mp hi).1

theorem height_of_getLast? (h : x.Holds l) (hb : l.getLast? = some b) :
    b.height.toNat + 1 = l.length := by
  have hpos : 0 < l.length := List.length_pos_of_mem (List.mem_of_getLast? hb)
  rw [List.getLast?_eq_getElem?] at hb
  rw [h.height_eq hb, Nat.sub_add_cancel hpos]

/-- The record of a block above the head does no harm. -/
theorem write_record (h : x.Holds l) (hb : b.height.toNat = l.length) :
    (x.apply (.record (heightKey b.height) (Record.encode b))).Holds l where
  root_eq := h.root_eq
  height_eq := h.height_eq
  record_eq d hd := by
    have hne : heightKey d.height ≠ heightKey b.height := fun heq => by
      have hlt := h.height_lt hd
      rw [heightKey_injective heq, hb] at hlt
      exact lt_irrefl _ hlt
    rw [apply, Table.get?_put, if_neg hne, h.record_eq d hd]

/-- **The head is what adds a block**, once its record is there. -/
theorem write_head (h : x.Holds l) (hb : b.height.toNat = l.length)
    (hrecord : x.records.get? (heightKey b.height) = some (Record.encode b)) :
    (x.apply (.head (heightKey b.height))).Holds (l ++ [b]) where
  root_eq := by
    rw [apply, Table.get?_put, if_pos rfl, List.getLast?_concat, Option.map_some]
  height_eq {i d} hd := by
    have hlt := (List.getElem?_eq_some_iff.mp hd).1
    rw [List.length_append, List.length_singleton] at hlt
    by_cases hi : i < l.length
    · rw [List.getElem?_append_left hi] at hd
      exact h.height_eq hd
    · have hi : i = l.length := by omega
      rw [hi, List.getElem?_concat_length] at hd
      rw [← Option.some.inj hd, hb, hi]
  record_eq d hd := by
    rcases List.mem_append.mp hd with hd | hd
    · exact h.record_eq d hd
    · rw [List.mem_singleton.mp hd]
      exact hrecord

theorem write_block (h : x.Holds l) (hb : b.height.toNat = l.length) :
    ((writesOf b).foldl apply x).Holds (l ++ [b]) := by
  refine (h.write_record hb).write_head hb ?_
  rw [apply, Table.get?_put, if_pos rfl]

/-! ### Putting a block -/

theorem head_eq (h : x.Holds l) :
    x.head = (l.getLast?.map fun b => b.height).elim (.error .notFound) .ok := by
  rw [head, h.root_eq]
  cases l.getLast? with
  | none => rfl
  | some b =>
    simp only [Option.map_some, Option.elim_some, length_heightKey, ofBigEndian_heightKey,
      UInt64.ofNat_toNat, if_true]

theorem nextHeight_eq (h : x.Holds l) : x.nextHeight = .ok (UInt64.ofNat l.length) := by
  rw [nextHeight, h.head_eq]
  cases hlast : l.getLast? with
  | none =>
    rw [List.getLast?_eq_none_iff.mp hlast]
    rfl
  | some b =>
    simp only [Option.map_some, Option.elim_some]
    rw [← h.height_of_getLast? hlast, UInt64.ofNat_add, UInt64.ofNat_toNat]
    rfl

/-- **Putting a block** carries out its writes if it is the next one, and is refused otherwise. -/
theorem put_eq (h : x.Holds l) (hlt : l.length < UInt64.size) (b : Block) :
    x.put b =
      if b.height.toNat = l.length then .ok ((writesOf b).foldl apply x)
      else .error (.outOfOrder (UInt64.ofNat l.length - 1) b.height) := by
  have hheight : b.height = UInt64.ofNat l.length ↔ b.height.toNat = l.length := by
    rw [← UInt64.toNat_inj, UInt64.toNat_ofNat_of_lt' hlt]
  rw [put, h.nextHeight_eq]
  simp only [hheight]

theorem of_put (h : x.Holds l) (hlt : l.length < UInt64.size) (hput : x.put b = .ok y) :
    b.height.toNat = l.length ∧ y.Holds (l ++ [b]) := by
  rw [h.put_eq hlt] at hput
  split at hput
  · next hb => exact ⟨hb, Except.ok.inj hput ▸ h.write_block hb⟩
  · contradiction

/-! ### Reading blocks back -/

theorem get_eq (h : x.Holds l) (hb : b ∈ l) (hsize : b.Within UInt64.size) :
    x.get b.height = .ok b := by
  rw [get, h.record_eq b hb]
  simp only [Record.decode_encode hsize]

theorem loadFrom_eq (h : x.Holds l) (hsize : ∀ b ∈ l, b.Within UInt64.size) {count height : Nat}
    (hcount : height + count = l.length) (done : List Block) :
    x.loadFrom count height done = .ok (done.reverse ++ l.drop height) := by
  induction count generalizing height done with
  | zero => rw [loadFrom, List.drop_eq_nil_of_le (by omega), List.append_nil]
  | succ count ih =>
    have hlt : height < l.length := by omega
    have hmem := List.getElem_mem hlt
    have hget := h.get_eq hmem (hsize _ hmem)
    rw [← UInt64.ofNat_toNat (x := l[height].height),
      h.height_eq (List.getElem?_eq_getElem hlt)] at hget
    rw [loadFrom, hget]
    simp only
    rw [ih (by omega), List.reverse_cons, List.append_assoc, List.singleton_append,
      List.getElem_cons_drop]

/-- **A store loads what it holds.** -/
theorem load_eq (h : x.Holds l) (hsize : ∀ b ∈ l, b.Within UInt64.size) : x.load = .ok l := by
  rw [load, h.head_eq]
  cases hlast : l.getLast? with
  | none => rw [List.getLast?_eq_none_iff.mp hlast]; rfl
  | some b =>
    have hcount := (Nat.zero_add _).trans (h.height_of_getLast? hlast)
    exact h.loadFrom_eq hsize hcount []

end Holds

end DelayLedger.Store
