import Mathlib.Data.List.Basic
import DelayLedger.Block.Layout
import DelayLedger.Proofs.Block.Size

/-!
# Reading what was written

Three properties of a reader, each of which passes from the readers of a block's parts to the reader
of the block:

* `Reader.Reads`: it reads a value from the bytes of the value, whatever follows them.
* `Reader.Local`: it looks at no byte behind those it takes, so that on an input that is cut short it
  meets the end of the input.
* `Reader.Economical`: it takes no fewer bytes than writing the value takes.

A byte format has a property when its words, lengths and alternatives have (`Layout.Faithful`,
`Layout.Local`, `Layout.Economical`), and then it has it for blocks: `Faithful.block`, `Local.block`,
`Economical.block`.
-/

namespace DelayLedger

namespace Reader

variable {α β : Type}

/-- The reader takes the bytes `written` as the value `x`, whatever follows them. -/
def Reads (r : Reader α) (written : Bytes) (x : α) : Prop :=
  ∀ rest, r (written ++ rest) = .ok (x, rest)

/-- The reader takes a value in the same way when what follows it is cut off, and meets the end of the
input when some of the value is. -/
def Local (r : Reader α) : Prop :=
  ∀ input more x rest, r (input ++ more) = .ok (x, rest) →
    r input = .error .endOfInput ∨ ∃ left, r input = .ok (x, left) ∧ rest = left ++ more

/-- The reader takes at least as many bytes as `put` needs for the value. -/
def Economical (r : Reader α) (put : α → Bytes) : Prop :=
  ∀ ⦃input x rest⦄, r input = .ok (x, rest) → (put x).length + rest.length ≤ input.length

theorem bind_of_ok {r : Reader α} {f : α → Reader β} {input middle : Bytes} {x : α}
    (h : r input = .ok (x, middle)) : (r >>= f : Reader β) input = f x middle := by
  show andThen r f input = _
  rw [andThen, h]

theorem bind_of_error {r : Reader α} {f : α → Reader β} {input : Bytes} {e : ReadError}
    (h : r input = .error e) : (r >>= f : Reader β) input = .error e := by
  show andThen r f input = _
  rw [andThen, h]

theorem bind_eq_ok_iff {r : Reader α} {f : α → Reader β} {input rest : Bytes} {y : β} :
    (r >>= f : Reader β) input = .ok (y, rest) ↔
      ∃ x middle, r input = .ok (x, middle) ∧ f x middle = .ok (y, rest) := by
  constructor
  · intro h
    cases hr : r input with
    | error e =>
      rw [bind_of_error hr] at h
      contradiction
    | ok found =>
      rw [bind_of_ok hr] at h
      exact ⟨found.1, found.2, rfl, h⟩
  · rintro ⟨x, middle, hr, hf⟩
    rw [bind_of_ok hr, hf]

theorem pure_eq_ok_iff {x y : α} {input rest : Bytes} :
    (pure x : Reader α) input = .ok (y, rest) ↔ x = y ∧ input = rest := by
  show Except.ok (x, input) = _ ↔ _
  rw [Except.ok.injEq, Prod.mk.injEq]

theorem map_eq (g : α → β) (r : Reader α) : g <$> r = (r >>= fun x => pure (g x) : Reader β) := rfl

/-! ### Reading back -/

namespace Reads

theorem pure (x : α) : Reads (Pure.pure x) [] x := fun _ => rfl

theorem bind {r : Reader α} {f : α → Reader β} {first second : Bytes} {x : α} {y : β}
    (hr : r.Reads first x) (hf : (f x).Reads second y) : (r >>= f).Reads (first ++ second) y := by
  intro rest
  rw [List.append_assoc]
  exact bind_eq_ok_iff.mpr ⟨x, second ++ rest, hr _, hf rest⟩

theorem map {r : Reader α} {written : Bytes} {x : α} (h : r.Reads written x) (g : α → β) :
    (g <$> r).Reads written (g x) := by
  rw [map_eq, ← List.append_nil written]
  exact h.bind (pure (g x))

theorem word {r : Reader Nat} {written : Bytes} {w : UInt64} (h : r.Reads written w.toNat) :
    (UInt64.ofNat <$> r).Reads written w := by
  have hword := h.map UInt64.ofNat
  rwa [UInt64.ofNat_toNat] at hword

theorem of_eq {r : Reader α} {written expected : Bytes} {x : α} (h : r.Reads written x)
    (heq : written = expected) : r.Reads expected x := heq ▸ h

theorem byte (b : UInt8) : Reader.byte.Reads [b] b := fun _ => rfl

theorem take (written : Bytes) : (Reader.take written.length).Reads written written := by
  intro rest
  rw [Reader.take, List.take_left, List.drop_left, if_neg (Nat.lt_irrefl _)]

theorem digest (d : Digest) : Reader.digest.Reads d.bytes d := by
  intro rest
  have htake := take d.bytes rest
  rw [d.length_eq] at htake
  rw [Reader.digest, htake]
  simp only [Digest.ofBytes?_bytes]

theorem optional {item : Reader α} {put : α → Bytes} {x : Option α}
    (h : ∀ a ∈ x, item.Reads (put a) a) : (Reader.optional item).Reads (Block.optional put x) x := by
  cases x with
  | none => exact fun _ => rfl
  | some a => exact (byte 1).bind ((h a rfl).map some)

theorem manyFrom {item : Reader α} {put : α → Bytes} {l : List α}
    (h : ∀ a ∈ l, item.Reads (put a) a) (done : List α) :
    (Reader.manyFrom item l.length done).Reads (l.flatMap put) (done.reverse ++ l) := by
  intro rest
  induction l generalizing done with
  | nil => rw [List.append_nil]; rfl
  | cons a l ih =>
    have hitem := h a List.mem_cons_self (l.flatMap put ++ rest)
    have hrest := ih (fun b hb => h b (List.mem_cons_of_mem a hb)) (a :: done)
    rw [List.reverse_cons, List.append_assoc, List.singleton_append] at hrest
    rw [List.length_cons, Reader.manyFrom, List.flatMap_cons, List.append_assoc, hitem]
    exact hrest

theorem many {item : Reader α} {put : α → Bytes} {l : List α}
    (h : ∀ a ∈ l, item.Reads (put a) a) : (Reader.many item l.length).Reads (l.flatMap put) l :=
  manyFrom h []

end Reads

/-! ### Inputs that are cut short -/

namespace Local

theorem pure (x : α) : Local (Pure.pure x) := by
  intro input more y rest h
  obtain ⟨rfl, rfl⟩ := pure_eq_ok_iff.mp h
  exact Or.inr ⟨input, rfl, rfl⟩

theorem fail (e : ReadError) : Local (fun _ => .error e : Reader α) := by
  intro input more x rest h
  contradiction

theorem bind {r : Reader α} {f : α → Reader β} (hr : r.Local) (hf : ∀ x, (f x).Local) :
    (r >>= f).Local := by
  intro input more y rest h
  obtain ⟨x, middle, hfirst, hsecond⟩ := bind_eq_ok_iff.mp h
  rcases hr input more x middle hfirst with hend | ⟨left, hleft, rfl⟩
  · exact Or.inl (bind_of_error hend)
  · rw [bind_of_ok hleft]
    exact hf x left more y rest hsecond

theorem map {r : Reader α} (h : r.Local) (g : α → β) : (g <$> r).Local :=
  h.bind fun x => pure (g x)

theorem byte : Reader.byte.Local := by
  intro input more x rest h
  cases input with
  | nil => exact Or.inl rfl
  | cons b input =>
    injection h with h
    obtain ⟨rfl, rfl⟩ := Prod.mk.inj h
    exact Or.inr ⟨input, rfl, rfl⟩

theorem take (count : Nat) : (Reader.take count).Local := by
  intro input more x rest h
  rw [Reader.take] at h ⊢
  split at h
  · contradiction
  · injection h with h
    obtain ⟨rfl, rfl⟩ := Prod.mk.inj h
    split
    · exact Or.inl rfl
    · next hlong =>
      have hcount : count ≤ input.length := by
        rw [List.length_take] at hlong
        omega
      refine Or.inr ⟨input.drop count, ?_, List.drop_append_of_le_length hcount⟩
      rw [List.take_append_of_le_length hcount]

theorem digest : Reader.digest.Local := by
  intro input more x rest h
  rw [Reader.digest] at h ⊢
  split at h
  · contradiction
  · next front after htake =>
    rcases take 32 input more front after htake with hend | ⟨left, hleft, rfl⟩
    · rw [hend]
      exact Or.inl rfl
    · rw [hleft]
      split at h
      · next d hd =>
        injection h with h
        obtain ⟨rfl, rfl⟩ := Prod.mk.inj h
        simp only [hd]
        exact Or.inr ⟨left, rfl, rfl⟩
      · contradiction

theorem optional {item : Reader α} (h : item.Local) : (Reader.optional item).Local := by
  refine byte.bind fun tag => ?_
  split
  · exact pure none
  · exact h.map some
  · exact fail _

theorem manyFrom {item : Reader α} (h : item.Local) (count : Nat) (done : List α) :
    (Reader.manyFrom item count done).Local := by
  intro input more x rest hread
  induction count generalizing input done with
  | zero =>
    injection hread with hread
    obtain ⟨rfl, rfl⟩ := Prod.mk.inj hread
    exact Or.inr ⟨input, rfl, rfl⟩
  | succ count ih =>
    rw [Reader.manyFrom] at hread ⊢
    split at hread
    · contradiction
    · next a after hitem =>
      rcases h input more a after hitem with hend | ⟨left, hleft, rfl⟩
      · rw [hend]
        exact Or.inl rfl
      · rw [hleft]
        exact ih (a :: done) left hread

theorem many {item : Reader α} (h : item.Local) (count : Nat) : (Reader.many item count).Local :=
  manyFrom h count []

end Local

/-! ### Bytes that are taken -/

theorem byte_eq_ok_iff {b : UInt8} {input rest : Bytes} :
    byte input = .ok (b, rest) ↔ input = b :: rest := by
  cases input with
  | nil => simp [byte]
  | cons c input => simp [byte]

theorem take_eq_ok_iff {count : Nat} {input front rest : Bytes} :
    take count input = .ok (front, rest) ↔ front.length = count ∧ input = front ++ rest := by
  constructor
  · intro h
    rw [take] at h
    split at h
    · contradiction
    · next hlong =>
      injection h with h
      obtain ⟨rfl, rfl⟩ := Prod.mk.inj h
      rw [List.length_take] at hlong ⊢
      exact ⟨by omega, (List.take_append_drop count input).symm⟩
  · rintro ⟨rfl, rfl⟩
    exact Reads.take front rest

theorem digest_eq_ok_iff {d : Digest} {input rest : Bytes} :
    digest input = .ok (d, rest) ↔ input = d.bytes ++ rest := by
  constructor
  · intro h
    rw [digest] at h
    split at h
    · contradiction
    · next front after htake =>
      obtain ⟨hlength, rfl⟩ := take_eq_ok_iff.mp htake
      rw [Digest.ofBytes?, dif_pos hlength] at h
      injection h with h
      obtain ⟨rfl, rfl⟩ := Prod.mk.inj h
      rfl
  · rintro rfl
    exact Reads.digest d rest

namespace Economical

theorem digest : Reader.digest.Economical Digest.bytes := by
  intro input d rest h
  exact Nat.le_of_eq (by rw [digest_eq_ok_iff.mp h, List.length_append])

theorem optional {item : Reader α} {put : α → Bytes} (h : item.Economical put) :
    (Reader.optional item).Economical (Block.optional put) := by
  intro input x rest hread
  obtain ⟨tag, middle, hbyte, hread⟩ := bind_eq_ok_iff.mp hread
  rw [byte_eq_ok_iff.mp hbyte, List.length_cons]
  split at hread
  · obtain ⟨rfl, rfl⟩ := pure_eq_ok_iff.mp hread
    exact Nat.le_of_eq (Nat.add_comm _ _)
  · rw [map_eq] at hread
    obtain ⟨a, after, hitem, hread⟩ := bind_eq_ok_iff.mp hread
    obtain ⟨rfl, rfl⟩ := pure_eq_ok_iff.mp hread
    have hle := h hitem
    rw [Block.optional, List.length_cons]
    omega
  · contradiction

theorem manyFrom {item : Reader α} {put : α → Bytes} (h : item.Economical put) {count : Nat}
    {done l : List α} {input rest : Bytes}
    (hread : Reader.manyFrom item count done input = .ok (l, rest)) :
    ∃ m, l = done.reverse ++ m ∧ m.length = count ∧
      (m.flatMap put).length + rest.length ≤ input.length := by
  induction count generalizing done input with
  | zero =>
    injection hread with hread
    obtain ⟨rfl, rfl⟩ := Prod.mk.inj hread
    exact ⟨[], (List.append_nil _).symm, rfl, by simp⟩
  | succ count ih =>
    rw [Reader.manyFrom] at hread
    split at hread
    · contradiction
    · next a after hitem =>
      obtain ⟨m, rfl, hlength, hle⟩ := ih hread
      have hfirst := h hitem
      refine ⟨a :: m, by simp, by rw [List.length_cons, hlength], ?_⟩
      rw [List.flatMap_cons, List.length_append]
      omega

theorem many {item : Reader α} {put : α → Bytes} (h : item.Economical put) {count : Nat}
    {l : List α} {input rest : Bytes} (hread : Reader.many item count input = .ok (l, rest)) :
    l.length = count ∧ (l.flatMap put).length + rest.length ≤ input.length := by
  obtain ⟨m, rfl, hlength, hle⟩ := h.manyFrom hread
  exact ⟨hlength, hle⟩

end Economical

end Reader

namespace Layout

variable {l : Layout}

/-! ### Layouts that read back what they write -/

/-- Words, lengths of 64 bits and the two alternatives are read back. -/
structure Faithful (l : Layout) : Prop where
  word : ∀ w, l.word.Reads (l.putWord w) w
  length : ∀ n < UInt64.size, l.length.Reads (l.putLength n) n
  variant : ∀ n < 2, l.variant.Reads (l.putVariant n) n

namespace Faithful

theorem bytes (h : l.Faithful) {x : Bytes} (hx : x.length < UInt64.size) :
    l.bytes.Reads (l.putBytes x) x := (h.length _ hx).bind (.take x)

theorem proof (h : l.Faithful) {p : DelayProof}
    (hp : p.output.length < UInt64.size ∧ p.witness.length < UInt64.size) :
    l.proof.Reads (l.putProof p) p :=
  ((h.bytes hp.1).bind ((h.bytes hp.2).bind (.pure p))).of_eq (by simp [putProof])

theorem action (h : l.Faithful) (a : Action) : l.action.Reads (l.putAction a) a := by
  cases a with
  | join => exact ((h.variant 0 (by decide)).bind (.pure Action.join)).of_eq (List.append_nil _)
  | leave => exact ((h.variant 1 (by decide)).bind (.pure Action.leave)).of_eq (List.append_nil _)

theorem change (h : l.Faithful) {c : Change}
    (hc : c.identity.length < UInt64.size ∧ c.signature.length < UInt64.size) :
    l.change.Reads (l.putChange c) c :=
  ((h.bytes hc.1).bind ((h.action c.action).bind ((h.word c.requestedAt).bind
    ((h.bytes hc.2).bind (.pure c))))).of_eq (by simp [putChange])

/-- **A block is read back from its bytes**, whatever follows them. -/
theorem block (h : l.Faithful) {b : Block} (hb : b.Within UInt64.size) :
    l.block.Reads (l.putBlock b) b := by
  have hprevious := Reader.Reads.optional (x := b.previousHash) fun d _ => Reader.Reads.digest d
  have hproof := Reader.Reads.optional fun p hp => h.proof (hb.proof p hp)
  have hchanges := Reader.Reads.many fun c hc => h.change (hb.change c hc)
  have hnodes := Reader.Reads.many fun x hx => h.bytes (hb.node x hx)
  exact (hprevious.bind ((h.word b.height).bind ((h.word b.difficulty).bind
    ((h.word b.timestamp).bind (hproof.bind ((h.bytes hb.producer).bind
    ((h.length _ hb.changes).bind (hchanges.bind ((h.length _ hb.nodes).bind
    (hnodes.bind ((Reader.Reads.digest b.hash).bind ((h.bytes hb.signature).bind
    (.pure b))))))))))))).of_eq (by simp [putBlock])

end Faithful

/-! ### Layouts and inputs that are cut short -/

/-- Words, lengths and alternatives are read without a look behind them. -/
structure Local (l : Layout) : Prop where
  word : l.word.Local
  length : l.length.Local
  variant : l.variant.Local

namespace Local

theorem bytes (h : l.Local) : l.bytes.Local := h.length.bind .take

theorem proof (h : l.Local) : l.proof.Local :=
  h.bytes.bind fun _ => h.bytes.bind fun _ => .pure _

theorem action (h : l.Local) : l.action.Local := by
  refine h.variant.bind fun n => ?_
  split
  · exact .pure _
  · exact .pure _
  · exact .fail _

theorem change (h : l.Local) : l.change.Local :=
  h.bytes.bind fun _ => h.action.bind fun _ => h.word.bind fun _ => h.bytes.bind fun _ => .pure _

/-- **A block is read without a look behind it.** -/
theorem block (h : l.Local) : l.block.Local :=
  Reader.Local.digest.optional.bind fun _ => h.word.bind fun _ => h.word.bind fun _ =>
    h.word.bind fun _ => h.proof.optional.bind fun _ => h.bytes.bind fun _ =>
    h.length.bind fun _ => (h.change.many _).bind fun _ => h.length.bind fun _ =>
    (h.bytes.many _).bind fun _ => Reader.Local.digest.bind fun _ => h.bytes.bind fun _ => .pure _

end Local

/-! ### Layouts that write no more than they read -/

/-- Words, lengths and alternatives are read from at least as many bytes as they are written with. -/
structure Economical (l : Layout) : Prop where
  word : l.word.Economical l.putWord
  length : l.length.Economical l.putLength
  variant : l.variant.Economical l.putVariant

namespace Economical

open Reader (bind_eq_ok_iff pure_eq_ok_iff)

theorem bytes (h : l.Economical) : l.bytes.Economical l.putBytes := by
  intro input x rest hread
  obtain ⟨n, middle, hlength, htake⟩ := bind_eq_ok_iff.mp hread
  obtain ⟨rfl, rfl⟩ := Reader.take_eq_ok_iff.mp htake
  have hle := h.length hlength
  rw [List.length_append] at hle
  rw [putBytes, List.length_append]
  omega

theorem proof (h : l.Economical) : l.proof.Economical l.putProof := by
  intro input p rest hread
  obtain ⟨output, _, houtput, hread⟩ := bind_eq_ok_iff.mp hread
  obtain ⟨witness, _, hwitness, hread⟩ := bind_eq_ok_iff.mp hread
  obtain ⟨rfl, rfl⟩ := pure_eq_ok_iff.mp hread
  replace houtput := h.bytes houtput
  replace hwitness := h.bytes hwitness
  simp only [putProof, List.length_append]
  omega

theorem action (h : l.Economical) : l.action.Economical l.putAction := by
  intro input a rest hread
  obtain ⟨n, after, hvariant, hread⟩ := bind_eq_ok_iff.mp hread
  have hle := h.variant hvariant
  split at hread
  · obtain ⟨rfl, rfl⟩ := pure_eq_ok_iff.mp hread
    exact hle
  · obtain ⟨rfl, rfl⟩ := pure_eq_ok_iff.mp hread
    exact hle
  · contradiction

theorem change (h : l.Economical) : l.change.Economical l.putChange := by
  intro input c rest hread
  obtain ⟨identity, _, hidentity, hread⟩ := bind_eq_ok_iff.mp hread
  obtain ⟨action, _, haction, hread⟩ := bind_eq_ok_iff.mp hread
  obtain ⟨requestedAt, _, hrequested, hread⟩ := bind_eq_ok_iff.mp hread
  obtain ⟨signature, _, hsignature, hread⟩ := bind_eq_ok_iff.mp hread
  obtain ⟨rfl, rfl⟩ := pure_eq_ok_iff.mp hread
  replace hidentity := h.bytes hidentity
  replace haction := h.action haction
  replace hrequested := h.word hrequested
  replace hsignature := h.bytes hsignature
  simp only [putChange, List.length_append]
  omega

/-- **Writing a block takes no more bytes than it was read from.** -/
theorem block (h : l.Economical) : l.block.Economical l.putBlock := by
  intro input b rest hread
  obtain ⟨previousHash, _, hprevious, hread⟩ := bind_eq_ok_iff.mp hread
  obtain ⟨height, _, hheight, hread⟩ := bind_eq_ok_iff.mp hread
  obtain ⟨difficulty, _, hdifficulty, hread⟩ := bind_eq_ok_iff.mp hread
  obtain ⟨timestamp, _, htimestamp, hread⟩ := bind_eq_ok_iff.mp hread
  obtain ⟨proof, _, hproof, hread⟩ := bind_eq_ok_iff.mp hread
  obtain ⟨producer, _, hproducer, hread⟩ := bind_eq_ok_iff.mp hread
  obtain ⟨count, _, hcount, hread⟩ := bind_eq_ok_iff.mp hread
  obtain ⟨changes, _, hchanges, hread⟩ := bind_eq_ok_iff.mp hread
  obtain ⟨size, _, hsize, hread⟩ := bind_eq_ok_iff.mp hread
  obtain ⟨nodes, _, hnodes, hread⟩ := bind_eq_ok_iff.mp hread
  obtain ⟨hash, _, hhash, hread⟩ := bind_eq_ok_iff.mp hread
  obtain ⟨signature, _, hsignature, hread⟩ := bind_eq_ok_iff.mp hread
  obtain ⟨rfl, rfl⟩ := pure_eq_ok_iff.mp hread
  obtain ⟨rfl, hchanges⟩ := h.change.many hchanges
  obtain ⟨rfl, hnodes⟩ := h.bytes.many hnodes
  replace hprevious := Reader.Economical.digest.optional hprevious
  replace hheight := h.word hheight
  replace hdifficulty := h.word hdifficulty
  replace htimestamp := h.word htimestamp
  replace hproof := h.proof.optional hproof
  replace hproducer := h.bytes hproducer
  replace hcount := h.length hcount
  replace hsize := h.length hsize
  replace hhash := Reader.Economical.digest hhash
  replace hsignature := h.bytes hsignature
  simp only [putBlock, List.length_append]
  omega

end Economical

/-! ### Bytes and their parts -/

theorem length_le_length_flatMap {α : Type} (put : α → Bytes) {a : α} {as : List α} (h : a ∈ as) :
    (put a).length ≤ (as.flatMap put).length :=
  (List.infix_of_mem_flatten (List.mem_map_of_mem h)).length_le

theorem within_of_length_putBlock_lt {bound : Nat} {b : Block}
    (h : (l.putBlock b).length < bound) (hchanges : b.changes.length < bound)
    (hnodes : b.nodes.length < bound) : b.Within bound := by
  simp only [putBlock, putBytes, List.length_append] at h
  refine ⟨fun p hp => ?_, by omega, hchanges, fun c hc => ?_, hnodes, fun x hx => ?_, by omega⟩
  · rw [Option.mem_def] at hp
    rw [hp, Block.optional, List.length_cons, putProof, List.length_append, putBytes, putBytes,
      List.length_append, List.length_append] at h
    omega
  · have hle := length_le_length_flatMap l.putChange hc
    simp only [putChange, putBytes, List.length_append] at hle h
    omega
  · have hle := length_le_length_flatMap l.putBytes hx
    simp only [putBytes, List.length_append] at hle h
    omega

end Layout

end DelayLedger
