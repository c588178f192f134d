import DelayLedger.Block.Record
import DelayLedger.Block.Wire
import DelayLedger.Bytes.Number
import DelayLedger.Proofs.Block.Layout

/-!
# Stored and sent blocks

The record format has numbers of fixed width, and reads back every block whose lists and byte strings
are shorter than `2 ^ 64` (`Record.decode_encode`).  The wire format has numbers in as few groups of
seven bits as hold them (`Wire.putVarint`), while a reader also takes numbers with more groups, up to
the last one that fits: it takes a number from at least as many groups as the number needs
(`Wire.exists_of_varintFrom`).

* `Wire.codec`: a payload is read back, no part of it is, and what is read from any payload can be
  sent again in no more bytes.
* `Wire.length_putBlock_le`: blocks with parts of moderate size fit a payload.
-/

namespace DelayLedger

/-! ### Records -/

namespace Record

theorem fixed_reads {width n : Nat} (h : n < 256 ^ width) :
    (fixed width).Reads (Bytes.littleEndian width n) n := by
  have htake := (Reader.Reads.take (Bytes.littleEndian width n)).map Bytes.ofLittleEndian
  rwa [Bytes.length_littleEndian, Bytes.ofLittleEndian_littleEndian, Nat.mod_eq_of_lt h] at htake

theorem faithful : layout.Faithful where
  word w := Reader.Reads.word (fixed_reads w.toNat_lt)
  length n hn := fixed_reads hn
  variant n hn := fixed_reads (hn.trans (by decide))

/-- **A block is read back from its record.** -/
theorem decode_encode {b : Block} (hb : b.Within UInt64.size) : decode (encode b) = .ok b := by
  have hread := faithful.block hb []
  rw [List.append_nil] at hread
  rw [decode, encode, hread]

end Record

namespace Wire

/-! ### Numbers in groups of seven bits -/

@[simp] theorem length_putVarintFrom (more n : Nat) : (putVarintFrom more n).length = more + 1 := by
  induction more generalizing n with
  | zero => rfl
  | succ more ih => rw [putVarintFrom, List.length_cons, ih]

theorem pow_128_eq (k : Nat) : 128 ^ k = 2 ^ (7 * k) := (Nat.pow_mul 2 7 k).symm

theorem lt_pow_log2 (n : Nat) : n < 128 ^ (n.log2 / 7 + 1) := by
  rw [pow_128_eq]
  exact Nat.lt_log2_self.trans_le (Nat.pow_le_pow_right (by decide) (by omega))

theorem log2_div_le {n k : Nat} (h : n < 128 ^ (k + 1)) : n.log2 / 7 ≤ k := by
  by_cases hzero : n = 0
  · rw [hzero]
    exact Nat.zero_le k
  · rw [pow_128_eq] at h
    have hlog := (Nat.log2_lt hzero).mpr h
    omega

/-- **A number has no fewer groups** than it is written with. -/
theorem length_putVarint_le {n k : Nat} (h : n < 128 ^ (k + 1)) : (putVarint n).length ≤ k + 1 := by
  rw [putVarint, length_putVarintFrom]
  exact Nat.succ_le_succ (log2_div_le h)

variable {lastMax left unit sum : Nat}

theorem varintFrom_reads {more n : Nat} (hmore : more ≤ left) (hn : n < 128 ^ (more + 1))
    (hlast : n < (lastMax + 1) * 128 ^ left) :
    (varintFrom lastMax (left + 1) unit sum).Reads (putVarintFrom more n) (sum + n * unit) := by
  intro rest
  induction more generalizing left n unit sum with
  | zero =>
    have hbyte : (UInt8.ofNat n).toNat = n := by
      rw [UInt8.toNat_ofNat']
      omega
    have hfits : ¬ (left = 0 ∧ lastMax < n) := by
      rintro ⟨rfl, hlt⟩
      omega
    rw [putVarintFrom, List.singleton_append, varintFrom]
    simp only [hbyte]
    rw [if_pos (by omega), if_neg hfits, Nat.mod_eq_of_lt (by omega)]
  | succ more ih =>
    obtain ⟨left, rfl⟩ := Nat.exists_eq_succ_of_ne_zero (Nat.ne_zero_of_lt hmore)
    have hbyte : (UInt8.ofNat (n % 128 + 128)).toNat = n % 128 + 128 := by
      rw [UInt8.toNat_ofNat']
      omega
    have hhigh : n / 128 < 128 ^ (more + 1) := by
      rw [Nat.div_lt_iff_lt_mul (by decide), ← Nat.pow_succ]
      exact hn
    have hhighLast : n / 128 < (lastMax + 1) * 128 ^ left := by
      rw [Nat.div_lt_iff_lt_mul (by decide), Nat.mul_assoc, ← Nat.pow_succ]
      exact hlast
    have hsum : sum + n % 128 * unit + n / 128 * (unit * 128) = sum + n * unit := by
      conv_rhs => rw [← Nat.mod_add_div n 128]
      ring
    rw [putVarintFrom, List.cons_append, varintFrom]
    simp only [hbyte]
    rw [if_neg (by omega), show (n % 128 + 128) % 128 = n % 128 by omega,
      ih (Nat.le_of_succ_le_succ hmore) hhigh hhighLast, hsum]

theorem varint_reads {n : Nat} (hmax : lastMax < 128) (h : n < (lastMax + 1) * 128 ^ left) :
    (varintFrom lastMax (left + 1) 1 0).Reads (putVarint n) n := by
  have hlt : n < 128 ^ (left + 1) := by
    rw [Nat.pow_succ']
    exact h.trans_le (Nat.mul_le_mul_right _ hmax)
  have hreads : (varintFrom lastMax (left + 1) 1 0).Reads (putVarint n) (0 + n * 1) :=
    varintFrom_reads (log2_div_le hlt) (lt_pow_log2 n) h
  rwa [Nat.zero_add, Nat.mul_one] at hreads

/-- **What a number was read from**: the groups that were taken hold it, and it fits the width. -/
theorem exists_of_varintFrom {input rest : Bytes} {n : Nat} (hmax : lastMax < 128)
    (h : varintFrom lastMax (left + 1) unit sum input = .ok (n, rest)) :
    ∃ v k, n = sum + v * unit ∧ v < 128 ^ (k + 1) ∧ v < (lastMax + 1) * 128 ^ left ∧
      k + 1 + rest.length = input.length := by
  induction left generalizing unit sum input with
  | zero =>
    cases input with
    | nil => contradiction
    | cons b input =>
      rw [varintFrom] at h
      split at h
      · next hb =>
        split at h
        · contradiction
        · next hfits =>
          injection h with h
          obtain ⟨rfl, rfl⟩ := Prod.mk.inj h
          exact ⟨b.toNat % 128, 0, rfl, Nat.mod_lt _ (by decide), by omega, by simp [Nat.add_comm]⟩
      · contradiction
  | succ left ih =>
    cases input with
    | nil => contradiction
    | cons b input =>
      have hlow : b.toNat % 128 < 128 := Nat.mod_lt _ (by decide)
      rw [varintFrom] at h
      split at h
      · next hb =>
        rw [if_neg (by omega)] at h
        injection h with h
        obtain ⟨rfl, rfl⟩ := Prod.mk.inj h
        have hpow : 128 ≤ (lastMax + 1) * 128 ^ (left + 1) := by
          rw [Nat.pow_succ', Nat.mul_left_comm]
          exact Nat.le_mul_of_pos_right _ (by positivity)
        exact ⟨b.toNat % 128, 0, rfl, hlow, hlow.trans_le hpow, by simp [Nat.add_comm]⟩
      · obtain ⟨v, k, rfl, hv, hlast, hlength⟩ := ih h
        refine ⟨b.toNat % 128 + 128 * v, k + 1, by ring, ?_, ?_, ?_⟩
        · rw [Nat.pow_succ']
          omega
        · rw [Nat.pow_succ', Nat.mul_left_comm]
          omega
        · rw [List.length_cons, ← hlength]
          omega

theorem varint_economical (hmax : lastMax < 128) :
    (varintFrom lastMax (left + 1) 1 0).Economical putVarint := by
  intro input n rest h
  obtain ⟨v, k, rfl, hv, -, hlength⟩ := exists_of_varintFrom hmax h
  rw [Nat.zero_add, Nat.mul_one, ← hlength]
  exact Nat.add_le_add_right (length_putVarint_le hv) _

theorem varintFrom_local (lastMax left unit sum : Nat) : (varintFrom lastMax left unit sum).Local := by
  intro input more n rest h
  induction left generalizing unit sum input with
  | zero => cases input <;> cases more <;> contradiction
  | succ left ih =>
    cases input with
    | nil => exact Or.inl rfl
    | cons b input =>
      rw [List.cons_append, varintFrom] at h
      rw [varintFrom]
      split at h
      · next hb =>
        split at h
        · contradiction
        · next hfits =>
          injection h with h
          obtain ⟨rfl, rfl⟩ := Prod.mk.inj h
          exact Or.inr ⟨input, by rw [if_pos hb, if_neg hfits], rfl⟩
      · next hb =>
        rw [if_neg hb]
        exact ih _ _ _ h

/-! ### Payloads -/

theorem isFaithful : layout.Faithful where
  word w := Reader.Reads.word (varint_reads (by decide) w.toNat_lt)
  length n hn := varint_reads (by decide) hn
  variant n hn := varint_reads (by decide) (hn.trans (by decide))

theorem isLocal : layout.Local where
  word := (varintFrom_local 1 10 1 0).map UInt64.ofNat
  length := varintFrom_local 1 10 1 0
  variant := varintFrom_local 15 5 1 0

theorem isEconomical : layout.Economical where
  word := by
    intro input w rest h
    obtain ⟨n, middle, hvarint, hpure⟩ := Reader.bind_eq_ok_iff.mp h
    obtain ⟨rfl, rfl⟩ := Reader.pure_eq_ok_iff.mp hpure
    obtain ⟨v, k, rfl, hv, hfits, hlength⟩ := exists_of_varintFrom (by decide) hvarint
    rw [Nat.zero_add, Nat.mul_one, ← hlength]
    show (putVarint (UInt64.ofNat v).toNat).length + _ ≤ _
    rw [UInt64.toNat_ofNat_of_lt' hfits]
    exact Nat.add_le_add_right (length_putVarint_le hv) _
  length := varint_economical (by decide)
  variant := varint_economical (by decide)

theorem encode_eq_ok_iff {b : Block} {payload : Bytes} :
    encode b = .ok payload ↔ payload = layout.putBlock b ∧ payload.length ≤ maxBytes := by
  rw [encode]
  split
  · next hlarge =>
    refine iff_of_false nofun ?_
    rintro ⟨rfl, hle⟩
    omega
  · next hlarge =>
    rw [Except.ok.injEq, eq_comm]
    refine (and_iff_left_of_imp ?_).symm
    rintro rfl
    exact Nat.not_lt.mp hlarge

theorem decode_eq_ok_iff {payload : Bytes} {b : Block} :
    decode payload = .ok b ↔
      payload.length ≤ maxBytes ∧ (∃ rest, layout.block payload = .ok (b, rest)) ∧
        b.nodes.length ≤ maxNodes ∧ b.changes.length ≤ maxChanges := by
  constructor
  · intro h
    rw [decode] at h
    split at h
    · contradiction
    next hsize =>
    split at h
    · contradiction
    next d rest hread =>
    split at h
    · contradiction
    next hnodes =>
    split at h
    · contradiction
    next hchanges =>
    injection h with h
    subst h
    exact ⟨Nat.not_lt.mp hsize, ⟨rest, hread⟩, Nat.not_lt.mp hnodes, Nat.not_lt.mp hchanges⟩
  · rintro ⟨hsize, ⟨rest, hread⟩, hnodes, hchanges⟩
    rw [decode, if_neg (Nat.not_lt.mpr hsize), hread]
    simp only [if_neg (Nat.not_lt.mpr hnodes), if_neg (Nat.not_lt.mpr hchanges)]

/-! ### The size of a payload -/

theorem length_putVarint_le_ten {n : Nat} (h : n < UInt64.size) : (putVarint n).length ≤ 10 :=
  length_putVarint_le (h.trans (by decide))

theorem length_putWord_le (w : UInt64) : (layout.putWord w).length ≤ 10 :=
  length_putVarint_le_ten w.toNat_lt

theorem length_putBytes_le {x : Bytes} (h : x.length < 4096) :
    (layout.putBytes x).length ≤ 4106 := by
  have hprefix : (layout.putLength x.length).length ≤ 10 :=
    length_putVarint_le_ten (h.trans (by decide))
  rw [Layout.putBytes, List.length_append]
  omega

theorem length_putProof_le {p : DelayProof} (h : p.output.length < 4096 ∧ p.witness.length < 4096) :
    (layout.putProof p).length ≤ 8212 := by
  have houtput := length_putBytes_le h.1
  have hwitness := length_putBytes_le h.2
  rw [Layout.putProof, List.length_append]
  omega

theorem length_putChange_le {c : Change}
    (h : c.identity.length < 4096 ∧ c.signature.length < 4096) :
    (layout.putChange c).length ≤ 8223 := by
  have hidentity := length_putBytes_le h.1
  have haction : (layout.putAction c.action).length = 1 := by cases c.action <;> decide
  have hrequested := length_putWord_le c.requestedAt
  have hsignature := length_putBytes_le h.2
  simp only [Layout.putChange, List.length_append]
  omega

theorem length_optional_le {α : Type} (put : α → Bytes) {x : Option α} {bound : Nat}
    (h : ∀ a ∈ x, (put a).length ≤ bound) : (Block.optional put x).length ≤ bound + 1 := by
  cases x with
  | none => exact Nat.le_add_left 1 bound
  | some a => exact Nat.succ_le_succ (h a rfl)

theorem length_flatMap_le {α : Type} (put : α → Bytes) {as : List α} {bound : Nat}
    (h : ∀ a ∈ as, (put a).length ≤ bound) : (as.flatMap put).length ≤ as.length * bound := by
  induction as with
  | nil => exact Nat.zero_le _
  | cons a as ih =>
    have hfirst := h a List.mem_cons_self
    have hrest := ih fun x hx => h x (List.mem_cons_of_mem a hx)
    rw [List.flatMap_cons, List.length_append, List.length_cons, Nat.succ_mul]
    omega

/-- **Blocks with parts of moderate size fit a payload**, if their nodes and changes are as few as
they may be. -/
theorem length_putBlock_le {b : Block} (h : b.Within 4096) (hnodes : b.nodes.length ≤ maxNodes)
    (hchanges : b.changes.length ≤ maxChanges) : (layout.putBlock b).length ≤ maxBytes := by
  have hprevious : (Block.optional Digest.bytes b.previousHash).length ≤ 33 :=
    length_optional_le Digest.bytes fun d _ => d.length_eq.le
  have hheight := length_putWord_le b.height
  have hdifficulty := length_putWord_le b.difficulty
  have htimestamp := length_putWord_le b.timestamp
  have hproof := length_optional_le layout.putProof fun p hp => length_putProof_le (h.proof p hp)
  have hproducer := length_putBytes_le h.producer
  have hcount : (layout.putLength b.changes.length).length ≤ 10 :=
    length_putVarint_le_ten (h.changes.trans (by decide))
  have hall := length_flatMap_le layout.putChange fun c hc => length_putChange_le (h.change c hc)
  have hsize : (layout.putLength b.nodes.length).length ≤ 10 :=
    length_putVarint_le_ten (h.nodes.trans (by decide))
  have heach := length_flatMap_le layout.putBytes fun x hx => length_putBytes_le (h.node x hx)
  have hhash := b.hash.length_eq
  have hsignature := length_putBytes_le h.signature
  have hlimits : maxNodes = 1000 ∧ maxChanges = 64 ∧ maxBytes = 8388608 := ⟨rfl, rfl, rfl⟩
  simp only [Layout.putBlock, List.length_append]
  omega

theorem block_putBlock {b : Block} (hnodes : b.nodes.length ≤ maxNodes)
    (hchanges : b.changes.length ≤ maxChanges) (hsize : (layout.putBlock b).length ≤ maxBytes) :
    layout.block (layout.putBlock b) = .ok (b, []) := by
  have hmax : maxBytes < UInt64.size ∧ maxNodes < UInt64.size ∧ maxChanges < UInt64.size := by decide
  have hwithin : b.Within UInt64.size :=
    Layout.within_of_length_putBlock_lt (l := layout) (by omega) (by omega) (by omega)
  have hread := isFaithful.block hwithin []
  rwa [List.append_nil] at hread

theorem decode_of_encode {b : Block} {payload : Bytes} (hnodes : b.nodes.length ≤ maxNodes)
    (hchanges : b.changes.length ≤ maxChanges) (h : encode b = .ok payload) :
    decode payload = .ok b := by
  obtain ⟨rfl, hsize⟩ := encode_eq_ok_iff.mp h
  exact decode_eq_ok_iff.mpr ⟨hsize, ⟨[], block_putBlock hnodes hchanges hsize⟩, hnodes, hchanges⟩

/-- **A payload that is cut short ends too early**, wherever it is cut. -/
theorem decode_of_prefix {b : Block} {payload front : Bytes} (hnodes : b.nodes.length ≤ maxNodes)
    (hchanges : b.changes.length ≤ maxChanges) (h : encode b = .ok payload)
    (hfront : front <+: payload) (hne : front ≠ payload) :
    decode front = .error (.malformed .endOfInput) := by
  obtain ⟨rfl, hsize⟩ := encode_eq_ok_iff.mp h
  have hread := block_putBlock hnodes hchanges hsize
  have hfits : ¬ maxBytes < front.length := Nat.not_lt.mpr (hfront.length_le.trans hsize)
  obtain ⟨more, hmore⟩ := hfront
  rw [← hmore] at hread
  rcases isLocal.block front more b [] hread with hend | ⟨left, -, hleft⟩
  · rw [decode, if_neg hfits, hend]
  · have hnil : more = [] := (List.append_eq_nil_iff.mp hleft.symm).2
    rw [hnil, List.append_nil] at hmore
    contradiction

/-- **Payloads and blocks.**  A block with few enough nodes and changes is read back from its payload,
and no part of the payload that is cut off at the end is accepted.  A block that is read from any
payload can be sent again, in no more bytes, and is read back from those. -/
theorem codec :
    (∀ (b : Block) (payload : Bytes), b.nodes.length ≤ maxNodes → b.changes.length ≤ maxChanges →
      encode b = .ok payload →
      decode payload = .ok b ∧
        ∀ front, front <+: payload → front ≠ payload →
          decode front = .error (.malformed .endOfInput)) ∧
    ∀ (received : Bytes) (b : Block), decode received = .ok b →
      ∃ payload, encode b = .ok payload ∧ payload.length ≤ received.length ∧
        decode payload = .ok b := by
  constructor
  · intro b payload hnodes hchanges h
    exact ⟨decode_of_encode hnodes hchanges h, fun front =>
      decode_of_prefix hnodes hchanges h⟩
  · intro received b h
    obtain ⟨hsize, ⟨rest, hread⟩, hnodes, hchanges⟩ := decode_eq_ok_iff.mp h
    have hle : (layout.putBlock b).length + rest.length ≤ received.length :=
      isEconomical.block hread
    have hencode : encode b = .ok (layout.putBlock b) := encode_eq_ok_iff.mpr ⟨rfl, by omega⟩
    exact ⟨_, hencode, by omega, decode_of_encode hnodes hchanges hencode⟩

end Wire

namespace Sample

def letter : Block where
  previousHash := some Digest.zero
  height := 3
  difficulty := 1000
  timestamp := 1700000000
  proof := some ⟨[1, 2, 3], [4, 5]⟩
  producer := [6]
  changes := [⟨[7], .leave, 2, [8, 9]⟩]
  nodes := [[6], [10, 11]]
  hash := Digest.zero
  signature := [12]

/-- A payload of the block with a height of three groups where one is enough, and with a byte behind
the block. -/
def padded : Bytes :=
  (Wire.layout.putBlock letter).take 33 ++ [131, 128, 0] ++
    (Wire.layout.putBlock letter).drop 34 ++ [255]

/-- The block is read from a payload that is too long, sent in three bytes less, read back, and not
read from a part of what is sent. -/
theorem letter_sent :
    Wire.decode padded = .ok letter ∧
      ∃ payload, Wire.encode letter = .ok payload ∧ payload.length + 3 = padded.length ∧
        Wire.decode payload = .ok letter ∧
        Wire.decode (payload.take 60) = .error (.malformed .endOfInput) := by
  obtain ⟨hsent, hreceived⟩ := Wire.codec
  have hpadded : Wire.decode padded = .ok letter := by decide +kernel
  obtain ⟨payload, hencode, -, hdecode⟩ := hreceived padded letter hpadded
  have hpayload : payload = Wire.layout.putBlock letter := (Wire.encode_eq_ok_iff.mp hencode).1
  have hnodes : letter.nodes.length ≤ maxNodes := by decide
  have hchanges : letter.changes.length ≤ maxChanges := by decide
  refine ⟨hpadded, payload, hencode, ?_, hdecode, ?_⟩
  · rw [hpayload]
    decide +kernel
  · refine (hsent letter payload hnodes hchanges hencode).2 _ (List.take_prefix 60 payload) ?_
    rw [hpayload]
    decide +kernel

end Sample

end DelayLedger
