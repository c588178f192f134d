import DelayLedger.Proofs.Chain.Reachable
import DelayLedger.Proofs.Store.Contents

/-!
# Interrupted calls of a store

A call on a store is a sequence of writes, each of which is a part of putting one block: its record
first and then the head.  The call may be cut off after any of them.  `Run x log` says that calls on
an empty store, finished or cut off, have left the store `x` and carried out the writes `log`.

Every such store holds the blocks whose head was written, `completed log` (`Run.holds`): a cut between
the two writes of a block leaves a record above the head, which `Holds` allows.  `Run.consistent` says
what can be seen of that from outside.
-/

namespace DelayLedger.Store

/-! ### The writes of a call -/

/-- The writes of putting blocks in order, up to the first that is refused, each with its block. -/
def putAllWrites (x : Store) : List Block → List (Block × StoreWrite)
  | [] => []
  | b :: r =>
    match x.put b with
    | .error _ => []
    | .ok x => (writesOf b).map (b, ·) ++ putAllWrites x r

def carryOut (x : Store) (writes : List (Block × StoreWrite)) : Store :=
  writes.foldl (fun x w => x.apply w.2) x

/-- The blocks whose head was written. -/
def completed (writes : List (Block × StoreWrite)) : List Block :=
  writes.filterMap fun
    | (_, .record ..) => none
    | (b, .head _) => some b

inductive Call
  | put (b : Block)
  | sync (c : Chain)

namespace Call

def offered (x : Store) : Call → List Block
  | .put b => [b]
  | .sync c =>
    match x.nextHeight with
    | .error _ => []
    | .ok next => c.blocksFrom next

def writes (x : Store) (call : Call) : List (Block × StoreWrite) := x.putAllWrites (call.offered x)

def finish (x : Store) : Call → Store
  | .put b =>
    match x.put b with
    | .error _ => x
    | .ok y => y
  | .sync c => (x.sync c).2

end Call

/-- The store that calls leave, finished or cut off after some number of writes, and the writes that
were carried out. -/
inductive Run : Store → List (Block × StoreWrite) → Prop
  | empty : Run .empty []
  | finished {x : Store} {log : List (Block × StoreWrite)} (call : Call) :
      Run x log → Run (call.finish x) (log ++ call.writes x)
  | cut {x : Store} {log : List (Block × StoreWrite)} (call : Call) (count : Nat) :
      Run x log → Run (x.carryOut ((call.writes x).take count)) (log ++ (call.writes x).take count)

theorem carryOut_append (x : Store) (ws vs : List (Block × StoreWrite)) :
    x.carryOut (ws ++ vs) = (x.carryOut ws).carryOut vs := List.foldl_append

theorem completed_append (ws vs : List (Block × StoreWrite)) :
    completed (ws ++ vs) = completed ws ++ completed vs := List.filterMap_append

theorem carryOut_of_put {x y : Store} {b : Block} (h : x.put b = .ok y) :
    x.carryOut ((writesOf b).map (b, ·)) = y := by
  rw [put] at h
  split at h
  · contradiction
  split at h
  · exact Except.ok.inj h
  · contradiction

theorem carryOut_putAllWrites (x : Store) (bs : List Block) :
    x.carryOut (x.putAllWrites bs) = (x.putAll bs).2 := by
  induction bs generalizing x with
  | nil => rfl
  | cons b r ih =>
    rw [putAllWrites, putAll]
    cases hput : x.put b with
    | error e => rfl
    | ok y => rw [carryOut_append, carryOut_of_put hput, ih]

/-- **A call is the sequence of its writes.** -/
theorem carryOut_writes (x : Store) (call : Call) : x.carryOut (call.writes x) = call.finish x := by
  rw [Call.writes, carryOut_putAllWrites]
  cases call with
  | put b =>
    rw [Call.offered, Call.finish, putAll]
    cases x.put b <;> rfl
  | sync c =>
    rw [Call.offered, Call.finish, sync]
    cases x.nextHeight with
    | error e => rfl
    | ok next =>
      simp only
      rcases x.putAll (c.blocksFrom next) with ⟨_ | _, y⟩ <;> rfl

theorem isPrefix_completed (x : Store) (bs : List Block) :
    completed (x.putAllWrites bs) <+: bs := by
  induction bs generalizing x with
  | nil => exact List.prefix_rfl
  | cons b r ih =>
    rw [putAllWrites]
    cases x.put b with
    | error e => exact List.nil_prefix
    | ok y =>
      rw [completed_append]
      exact (List.prefix_append_right_inj [b]).mpr (ih y)

theorem isPrefix_completed_take (x : Store) (bs : List Block) (count : Nat) :
    completed ((x.putAllWrites bs).take count) <+: bs :=
  ((List.take_prefix _ _).filterMap _).trans (isPrefix_completed x bs)

/-! ### Every write keeps the invariant -/

namespace Holds

variable {x : Store} {l bs : List Block}

/-- **Putting blocks may be cut off anywhere.**  The blocks whose head was written are added. -/
theorem cut (h : x.Holds l) {count : Nat}
    (hlt : (l ++ completed ((x.putAllWrites bs).take count)).length < UInt64.size) :
    (x.carryOut ((x.putAllWrites bs).take count)).Holds
      (l ++ completed ((x.putAllWrites bs).take count)) := by
  induction bs generalizing x l count with
  | nil =>
    rw [putAllWrites, List.take_nil]
    exact (List.append_nil l).symm ▸ h
  | cons b r ih =>
    have hl : l.length < UInt64.size := by
      rw [List.length_append] at hlt
      omega
    rw [putAllWrites] at hlt ⊢
    cases hput : x.put b with
    | error e =>
      simp only [List.take_nil]
      exact (List.append_nil l).symm ▸ h
    | ok y =>
      obtain ⟨hb, hy⟩ := h.of_put hl hput
      rw [hput] at hlt
      -- before the record, between the record and the head, and after both
      match count with
      | 0 => exact (List.append_nil l).symm ▸ h
      | 1 => exact (List.append_nil l).symm ▸ h.write_record hb
      | count + 2 =>
        have htake : ((writesOf b).map (b, ·) ++ y.putAllWrites r).take (count + 2) =
            (writesOf b).map (b, ·) ++ (y.putAllWrites r).take count := rfl
        have hcompleted : completed ((writesOf b).map (b, ·)) = [b] := rfl
        simp only [htake, completed_append, hcompleted, ← List.append_assoc] at hlt ⊢
        rw [carryOut_append, carryOut_of_put hput]
        exact ih hy hlt

theorem putAll_eq (h : x.Holds l)
    (hheight : ∀ {i : Nat} {b : Block}, (l ++ bs)[i]? = some b → b.height.toNat = i) :
    ∃ y, x.putAll bs = (.ok (), y) ∧ y.Holds (l ++ bs) := by
  induction bs generalizing x l with
  | nil => exact ⟨x, rfl, (List.append_nil l).symm ▸ h⟩
  | cons b r ih =>
    have hb : b.height.toNat = l.length := hheight (by simp)
    have hput := h.put_eq (hb ▸ b.height.toNat_lt) b
    rw [if_pos hb] at hput
    rw [List.append_cons] at hheight ⊢
    obtain ⟨y, hy, hholds⟩ := ih (h.write_block hb) hheight
    exact ⟨y, by rw [putAll, hput]; exact hy, hholds⟩

end Holds

/-- **Every store that calls leave holds the blocks whose head was written.** -/
theorem Run.holds {x : Store} {log : List (Block × StoreWrite)} (h : Run x log)
    (hlt : (completed log).length < UInt64.size) : x.Holds (completed log) := by
  have hle {ws vs : List (Block × StoreWrite)} :
      (completed ws).length ≤ (completed (ws ++ vs)).length := by
    rw [completed_append, List.length_append]
    exact Nat.le_add_right _ _
  induction h with
  | empty => exact holds_empty
  | @finished x log call _ ih =>
    have hx := ih (hle.trans_lt hlt)
    rw [completed_append] at hlt ⊢
    rw [← carryOut_writes]
    rw [← List.take_length (l := call.writes x)] at hlt ⊢
    exact hx.cut hlt
  | cut call count _ ih =>
    have hx := ih (hle.trans_lt hlt)
    rw [completed_append] at hlt ⊢
    exact hx.cut hlt

/-! ### What is seen from outside -/

/-- Syncing with a chain adds the missing blocks to those that are stored, and counts them. -/
def Levels (x : Store) (l : List Block) (c : Chain) : Prop :=
  ∃ y, x.sync c = (.ok (c.length - l.length), y) ∧ y.load = .ok c.blocks

/-- A store behaves as one that has stored the blocks. -/
structure Consistent (x : Store) (l : List Block) : Prop where
  load_eq : x.load = .ok l
  head_eq : x.head = (l.getLast?.map fun b => b.height).elim (.error .notFound) .ok
  get_eq : ∀ (height : UInt64) (h : height.toNat < l.length),
    l[height.toNat].height = height ∧ x.get height = .ok l[height.toNat]
  put_next : ∀ b : Block, b.height.toNat = l.length → b.Within UInt64.size →
    ∃ y, x.put b = .ok y ∧ y.load = .ok (l ++ [b])
  put_refused : ∀ b : Block, b.height.toNat ≠ l.length →
    x.put b = .error (.outOfOrder (UInt64.ofNat l.length - 1) b.height) ∧
      (Call.put b).writes x = [] ∧ (Call.put b).finish x = x
  /-- What a chain has beyond the blocks is added. -/
  sync_levels : ∀ {s : Suite} {c : Chain}, c.Reachable s → l <+: c.blocks →
    (∀ b ∈ c.blocks, b.Within UInt64.size) → x.Levels l c
  /-- If that is cut off, the chain's blocks are stored up to some height, and the others are added
  later. -/
  cut_levels : ∀ {s : Suite} {c : Chain}, c.Reachable s → l <+: c.blocks →
    c.length < UInt64.size → (∀ b ∈ c.blocks, b.Within UInt64.size) → ∀ count : Nat,
      ∃ m, l <+: m ∧ m <+: c.blocks ∧
        (x.carryOut (((Call.sync c).writes x).take count)).load = .ok m ∧
        (x.carryOut (((Call.sync c).writes x).take count)).Levels m c

namespace Holds

variable {x : Store} {l : List Block} {c : Chain} {s : Suite}

theorem offered_eq (h : x.Holds l) (hlt : l.length < UInt64.size) :
    (Call.sync c).offered x = c.blocks.drop l.length := by
  rw [Call.offered, h.nextHeight_eq]
  simp only [Chain.blocksFrom, UInt64.toNat_ofNat_of_lt' hlt]

/-- **Syncing with a chain** stores what it has beyond the blocks. -/
theorem sync_eq (h : x.Holds l) (hlt : l.length < UInt64.size) (hc : c.Reachable s)
    (hfront : l <+: c.blocks) :
    ∃ y, x.sync c = (.ok (c.length - l.length), y) ∧ y.Holds c.blocks := by
  obtain ⟨missing, hmissing⟩ := hfront
  have hfrom : c.blocksFrom (UInt64.ofNat l.length) = missing := by
    rw [Chain.blocksFrom, UInt64.toNat_ofNat_of_lt' hlt, ← hmissing, List.drop_left]
  have hcount : missing.length = c.length - l.length := by
    rw [← c.length_blocks, ← hmissing, List.length_append, Nat.add_sub_cancel_left]
  obtain ⟨y, hput, hy⟩ : ∃ y, x.putAll missing = (.ok (), y) ∧ y.Holds (l ++ missing) :=
    h.putAll_eq fun hb => hc.history.height_eq (hmissing ▸ hb)
  refine ⟨y, ?_, hmissing ▸ hy⟩
  rw [sync, h.nextHeight_eq]
  simp only [hfrom, hput, hcount]

theorem levels (h : x.Holds l) (hlt : l.length < UInt64.size) (hc : c.Reachable s)
    (hfront : l <+: c.blocks) (hsize : ∀ b ∈ c.blocks, b.Within UInt64.size) : x.Levels l c :=
  have ⟨y, hsync, hy⟩ := h.sync_eq hlt hc hfront
  ⟨y, hsync, hy.load_eq hsize⟩

theorem toConsistent (h : x.Holds l) (hlt : l.length < UInt64.size)
    (hsize : ∀ b ∈ l, b.Within UInt64.size) : x.Consistent l where
  load_eq := h.load_eq hsize
  head_eq := h.head_eq
  get_eq height hheight := by
    have hmem := List.getElem_mem hheight
    have heq : l[height.toNat].height = height :=
      UInt64.toNat_inj.mp (h.height_eq (List.getElem?_eq_getElem hheight))
    have hget := h.get_eq hmem (hsize _ hmem)
    rw [heq] at hget
    exact ⟨heq, hget⟩
  put_next b hb hfits := by
    have hput := h.put_eq hlt b
    rw [if_pos hb] at hput
    refine ⟨_, hput, (h.write_block hb).load_eq fun d hd => ?_⟩
    rcases List.mem_append.mp hd with hd | hd
    · exact hsize d hd
    · exact List.mem_singleton.mp hd ▸ hfits
  put_refused b hb := by
    have hput := h.put_eq hlt b
    rw [if_neg hb] at hput
    refine ⟨hput, ?_, ?_⟩
    · rw [Call.writes, Call.offered, putAllWrites, hput]
    · rw [Call.finish, hput]
  sync_levels hc hfront hsizes := h.levels hlt hc hfront hsizes
  cut_levels {s c} hc hfront hlength hsizes count := by
    have hcut : l ++ completed (((Call.sync c).writes x).take count) <+: c.blocks := by
      obtain ⟨missing, hmissing⟩ := hfront
      rw [Call.writes, h.offered_eq hlt, ← hmissing, List.drop_left]
      exact (List.prefix_append_right_inj l).mpr (isPrefix_completed_take x missing count)
    have hlen : (l ++ completed (((Call.sync c).writes x).take count)).length < UInt64.size :=
      hcut.length_le.trans_lt (c.length_blocks ▸ hlength)
    have hy := h.cut hlen
    exact ⟨_, List.prefix_append .., hcut, hy.load_eq fun b hb => hsizes b (hcut.subset hb),
      hy.levels hlen hc hcut hsizes⟩

end Holds

/-- **Interrupted calls leave a consistent store**, which has stored the blocks whose head was
written. -/
theorem Run.consistent {x : Store} {log : List (Block × StoreWrite)} (h : Run x log)
    (hlt : (completed log).length < UInt64.size)
    (hsize : ∀ b ∈ completed log, b.Within UInt64.size) : x.Consistent (completed log) :=
  (h.holds hlt).toConsistent hlt hsize

end DelayLedger.Store

/-! ### The small ledger, stored -/

namespace DelayLedger.Sample

open Store (Call Run)

/-- Putting the first block is cut off before its head is written. -/
def torn : Store := Store.empty.carryOut (((Call.put first).writes .empty).take 1)

/-- Then storing the ledger is cut off before the head of the second block is written. -/
def resumed : Store := torn.carryOut (((Call.sync chain).writes torn).take 3)

theorem run_resumed :
    Run resumed (((Call.put first).writes .empty).take 1 ++ ((Call.sync chain).writes torn).take 3) :=
  .cut (.sync chain) 3 (.cut (.put first) 1 .empty)

/-- After both cuts the first block is stored, and the ledger can be stored. -/
theorem resumed_consistent :
    resumed.Consistent [first] ∧ resumed.records.length = 2 ∧ resumed.Levels [first] chain := by
  have hcompleted : Store.completed (((Call.put first).writes .empty).take 1 ++
      ((Call.sync chain).writes torn).take 3) = [first] := by decide +kernel
  have hsize : ∀ b ∈ chain.blocks, b.Within UInt64.size := by decide +kernel
  have hmem : ∀ b ∈ [first], b ∈ chain.blocks := by decide +kernel
  have hconsistent := run_resumed.consistent (by rw [hcompleted]; decide)
    (fun b hb => hsize b (hmem b (hcompleted ▸ hb)))
  rw [hcompleted] at hconsistent
  have hlevels := hconsistent.sync_levels reachable_chain ⟨[second], rfl⟩ hsize
  exact ⟨hconsistent, by decide +kernel, hlevels⟩

end DelayLedger.Sample
