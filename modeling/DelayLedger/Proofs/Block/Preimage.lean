import DelayLedger.Bytes.Number
import DelayLedger.Proofs.Block.Size
import DelayLedger.Proofs.Chain.History

/-!
# Hashed contents

The hashed contents of a block are its parts one after the other.  Each part either has a fixed width
or is preceded by its length in four bytes, so it can be told from what follows: the parent's hash and
the height whatever comes after them (`header_eq_of_preimage_eq`), all parts before the set
(`body_eq_of_preimage_eq`), and all parts of blocks whose lists and byte strings are shorter than
`2 ^ 32` (`unsealed_eq_of_preimage_eq`).  Where no two blocks collide (`CollisionFree`) a hash
therefore tells the height, and within a history it tells the block (`History.eq_of_hash_eq`).
-/

namespace DelayLedger

namespace Block

/-! ### Parts told apart from the front -/

section Parts

variable {r t : Bytes}

theorem optional_append_inj {α : Type} {write : α → Bytes} {x y : Option α}
    (hitem : ∀ a ∈ x, ∀ b ∈ y, write a ++ r = write b ++ t → a = b ∧ r = t)
    (h : optional write x ++ r = optional write y ++ t) : x = y ∧ r = t := by
  cases x with
  | none =>
    cases y with
    | none => exact ⟨rfl, List.append_cancel_left h⟩
    | some b => injection h with hhead; contradiction
  | some a =>
    cases y with
    | none => injection h with hhead; contradiction
    | some b =>
      obtain ⟨-, htail⟩ := List.cons.inj h
      obtain ⟨rfl, hrest⟩ := hitem a rfl b rfl htail
      exact ⟨rfl, hrest⟩

theorem digest_append_inj {d e : Digest} (h : d.bytes ++ r = e.bytes ++ t) : d = e ∧ r = t := by
  obtain ⟨hbytes, hrest⟩ := List.append_inj h (d.length_eq.trans e.length_eq.symm)
  exact ⟨Digest.ext hbytes, hrest⟩

theorem ofWord_append_inj {v w : UInt64} (h : Bytes.ofWord v ++ r = Bytes.ofWord w ++ t) :
    v = w ∧ r = t := by
  obtain ⟨hword, hrest⟩ := List.append_inj h (by rw [Bytes.length_ofWord, Bytes.length_ofWord])
  exact ⟨Bytes.ofWord_injective hword, hrest⟩

theorem ofLength_append_inj {n m : Nat} (hn : n < UInt32.size) (hm : m < UInt32.size)
    (h : Bytes.ofLength n ++ r = Bytes.ofLength m ++ t) : n = m ∧ r = t := by
  obtain ⟨hlength, hrest⟩ :=
    List.append_inj h (by rw [Bytes.length_ofLength, Bytes.length_ofLength])
  have hwidth : UInt32.size = 256 ^ 4 := rfl
  exact ⟨Bytes.littleEndian_injective (hwidth ▸ hn) (hwidth ▸ hm) hlength, hrest⟩

theorem prefixed_append_inj {x y : Bytes} (hx : x.length < UInt32.size) (hy : y.length < UInt32.size)
    (h : Bytes.prefixed x ++ r = Bytes.prefixed y ++ t) : x = y ∧ r = t := by
  rw [Bytes.prefixed, Bytes.prefixed, List.append_assoc, List.append_assoc] at h
  obtain ⟨hlength, hrest⟩ := ofLength_append_inj hx hy h
  exact List.append_inj hrest hlength

theorem flatMap_append_inj {α : Type} {write : α → Bytes} {l m : List α}
    (hlength : l.length = m.length)
    (hitem : ∀ a ∈ l, ∀ b ∈ m, ∀ r t, write a ++ r = write b ++ t → a = b ∧ r = t)
    (h : l.flatMap write ++ r = m.flatMap write ++ t) : l = m ∧ r = t := by
  induction l generalizing m with
  | nil =>
    rw [List.length_nil, eq_comm, List.length_eq_zero_iff] at hlength
    subst hlength
    exact ⟨rfl, h⟩
  | cons a l ih =>
    cases m with
    | nil => contradiction
    | cons b m =>
      rw [List.flatMap_cons, List.flatMap_cons, List.append_assoc, List.append_assoc] at h
      obtain ⟨rfl, htail⟩ := hitem a List.mem_cons_self b List.mem_cons_self _ _ h
      have hitem' : ∀ c ∈ l, ∀ d ∈ m, ∀ r t, write c ++ r = write d ++ t → c = d ∧ r = t :=
        fun c hc d hd => hitem c (List.mem_cons_of_mem a hc) d (List.mem_cons_of_mem a hd)
      obtain ⟨rfl, hrest⟩ := ih (Nat.succ.inj hlength) hitem' htail
      exact ⟨rfl, hrest⟩

theorem proof_append_inj {p q : DelayProof}
    (hp : p.output.length < UInt32.size ∧ p.witness.length < UInt32.size)
    (hq : q.output.length < UInt32.size ∧ q.witness.length < UInt32.size)
    (h : p.toBytes ++ r = q.toBytes ++ t) : p = q ∧ r = t := by
  rw [DelayProof.toBytes, DelayProof.toBytes, List.append_assoc, List.append_assoc] at h
  obtain ⟨houtput, h⟩ := prefixed_append_inj hp.1 hq.1 h
  obtain ⟨hwitness, hrest⟩ := prefixed_append_inj hp.2 hq.2 h
  obtain ⟨output, witness⟩ := p
  subst houtput hwitness
  exact ⟨rfl, hrest⟩

theorem change_append_inj {c d : Change}
    (hc : c.identity.length < UInt32.size ∧ c.signature.length < UInt32.size)
    (hd : d.identity.length < UInt32.size ∧ d.signature.length < UInt32.size)
    (h : c.toBytes ++ r = d.toBytes ++ t) : c = d ∧ r = t := by
  simp only [Change.toBytes, List.append_assoc] at h
  obtain ⟨htag, h⟩ := List.cons.inj h
  obtain ⟨hrequested, h⟩ := ofWord_append_inj h
  obtain ⟨hidentity, h⟩ := prefixed_append_inj hc.1 hd.1 h
  obtain ⟨hsignature, hrest⟩ := prefixed_append_inj hc.2 hd.2 h
  have haction := Action.tag_injective htag
  obtain ⟨identity, action, requestedAt, signature⟩ := c
  subst hidentity haction hrequested hsignature
  exact ⟨rfl, hrest⟩

end Parts

/-! ### Blocks told apart -/

/-- **The hashed contents tell the parent's hash and the height**, whatever the length of what
follows. -/
theorem header_eq_of_preimage_eq {a b : Block} (h : a.preimage = b.preimage) :
    a.previousHash = b.previousHash ∧ a.height = b.height := by
  simp only [preimage, List.append_assoc] at h
  obtain ⟨hprevious, hrest⟩ :=
    optional_append_inj (fun _ _ _ _ => digest_append_inj) (List.append_cancel_left h)
  exact ⟨hprevious, (ofWord_append_inj hrest).1⟩

/-- What is hashed of a block: all but its hash and its signature. -/
def unsealed (b : Block) : Block := { b with hash := Digest.zero, signature := [] }

def unsigned (b : Block) : Block := { b with signature := [] }

theorem unsigned_eq_of_unsealed_eq {a b : Block} (h : a.unsealed = b.unsealed)
    (hhash : a.hash = b.hash) : a.unsigned = b.unsigned := by
  cases a
  cases b
  simp_all [unsealed, unsigned]

def body (b : Block) : Block := { b.unsealed with nodes := [] }

theorem unsealed_eq_of_body_eq {a b : Block} (h : a.body = b.body) (hnodes : a.nodes = b.nodes) :
    a.unsealed = b.unsealed := by
  cases a
  cases b
  simp_all [body, unsealed]

/-- **The hashed contents tell all that comes before the set**, whatever the set is. -/
theorem body_eq_of_preimage_eq {a b : Block} (ha : a.BodyWithin UInt32.size)
    (hb : b.BodyWithin UInt32.size) (h : a.preimage = b.preimage) :
    a.body = b.body ∧
      Bytes.ofLength a.nodes.length ++ a.nodes.flatMap Bytes.prefixed =
        Bytes.ofLength b.nodes.length ++ b.nodes.flatMap Bytes.prefixed := by
  simp only [preimage, List.append_assoc] at h
  obtain ⟨hprevious, h⟩ :=
    optional_append_inj (fun _ _ _ _ => digest_append_inj) (List.append_cancel_left h)
  obtain ⟨hheight, h⟩ := ofWord_append_inj h
  obtain ⟨hdifficulty, h⟩ := ofWord_append_inj h
  obtain ⟨htimestamp, h⟩ := ofWord_append_inj h
  obtain ⟨hproof, h⟩ :=
    optional_append_inj (fun p hp q hq => proof_append_inj (ha.proof p hp) (hb.proof q hq)) h
  obtain ⟨hproducer, h⟩ := prefixed_append_inj ha.producer hb.producer h
  obtain ⟨hcount, h⟩ := ofLength_append_inj ha.changes hb.changes h
  obtain ⟨hchanges, h⟩ := flatMap_append_inj hcount
    (fun c hc d hd _ _ => change_append_inj (ha.change c hc) (hb.change d hd)) h
  refine ⟨?_, h⟩
  rw [body, body, unsealed, unsealed, hprevious, hheight, hdifficulty, htimestamp, hproof, hproducer,
    hchanges]

/-- **The hashed contents tell everything that is hashed** of blocks whose lists and byte strings are
shorter than `2 ^ 32`. -/
theorem unsealed_eq_of_preimage_eq {a b : Block} (ha : a.Within UInt32.size)
    (hb : b.Within UInt32.size) (h : a.preimage = b.preimage) : a.unsealed = b.unsealed := by
  obtain ⟨hbody, h⟩ := body_eq_of_preimage_eq ha.body hb.body h
  obtain ⟨hsize, h⟩ := ofLength_append_inj ha.nodes hb.nodes h
  have hlast : a.nodes.flatMap Bytes.prefixed ++ [] = b.nodes.flatMap Bytes.prefixed ++ [] := by
    rw [h]
  obtain ⟨hnodes, -⟩ := flatMap_append_inj hsize
    (fun x hx y hy _ _ => prefixed_append_inj (ha.node x hx) (hb.node y hy)) hlast
  exact unsealed_eq_of_body_eq hbody hnodes

end Block

/-- No two of some blocks have different contents and the same hash. -/
def CollisionFree (s : Suite) (involved : Block → Prop) : Prop :=
  ∀ a b, involved a → involved b → a.contentHash s = b.contentHash s → a.preimage = b.preimage

theorem CollisionFree.mono {s : Suite} {P Q : Block → Prop} (h : CollisionFree s Q)
    (hPQ : ∀ b, P b → Q b) : CollisionFree s P := fun a b ha hb => h a b (hPQ a ha) (hPQ b hb)

/-- **A hash names one block of a history**, unless two of them collide. -/
theorem History.eq_of_hash_eq {s : Suite} {policy : Policy} {blocks : List Block}
    (h : History s policy blocks) (hfree : CollisionFree s (· ∈ blocks)) {a b : Block}
    (ha : a ∈ blocks) (hb : b ∈ blocks) (hab : a.hash = b.hash) : a = b := by
  rw [← h.hash_eq ha, ← h.hash_eq hb] at hab
  exact h.eq_of_height_eq ha hb (Block.header_eq_of_preimage_eq (hfree a b ha hb hab)).2

end DelayLedger
