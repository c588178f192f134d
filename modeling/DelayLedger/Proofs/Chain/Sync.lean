import DelayLedger.Proofs.Block.Preimage
import DelayLedger.Proofs.Chain.Race
import DelayLedger.Proofs.Chain.Relay
import DelayLedger.Proofs.Chain.Restore
import DelayLedger.Proofs.Forge

/-!
# Catching up with a peer

A chain takes a batch of blocks from a peer.  Blocks that it holds already are passed over and the
first rejection ends the batch (`BatchAccount`).  Two chains that grew from one first block agree, up to
the height at which their hashes first differ, on all that a check reads of a parent
(`History.unsigned_eq_of_lt_forkHeight`).  So a chain that lies behind accepts what its peer has on top
of it, and one that has taken another way, or that is too far behind, refuses the first block that it
does not hold, for its link.

* `exists_batchAccount`: what becomes of any batch.
* `History.accepts_drop`: a peer's blocks above a chain's end are accepted one after another.
* `Reachable.sync_blocksFrom`: what becomes of a peer's blocks from any height on.
-/

namespace DelayLedger

/-! ### Where two chains part -/

/-- The first height at which two lists of blocks have different hashes, or the length of the shorter
one if there is none. -/
def forkHeight : List Block → List Block → Nat
  | x :: l, y :: m => if x.hash = y.hash then forkHeight l m + 1 else 0
  | _, _ => 0

theorem forkHeight_le_left (l m : List Block) : forkHeight l m ≤ l.length := by
  induction l generalizing m with
  | nil => exact Nat.le_refl 0
  | cons x l ih =>
    cases m with
    | nil => exact Nat.zero_le _
    | cons y m =>
      rw [forkHeight]
      split
      · exact Nat.succ_le_succ (ih m)
      · exact Nat.zero_le _

theorem hash_eq_of_lt_forkHeight {l m : List Block} {i : Nat} (hi : i < forkHeight l m) :
    ∃ x y, l[i]? = some x ∧ m[i]? = some y ∧ x.hash = y.hash := by
  induction l generalizing m i with
  | nil => exact absurd hi (Nat.not_lt_zero i)
  | cons x l ih =>
    cases m with
    | nil => exact absurd hi (Nat.not_lt_zero i)
    | cons y m =>
      rw [forkHeight] at hi
      split at hi
      · next hxy =>
        cases i with
        | zero => exact ⟨x, y, rfl, rfl, hxy⟩
        | succ i => exact ih (Nat.lt_of_succ_lt_succ hi)
      · exact absurd hi (Nat.not_lt_zero i)

theorem hash_ne_at_forkHeight {l m : List Block} {x y : Block} (hx : l[forkHeight l m]? = some x)
    (hy : m[forkHeight l m]? = some y) : x.hash ≠ y.hash := by
  induction l generalizing m with
  | nil => contradiction
  | cons a l ih =>
    cases m with
    | nil => contradiction
    | cons b m =>
      rw [forkHeight] at hx hy
      split at hx
      · next hab =>
        rw [if_pos hab] at hy
        exact ih hx hy
      · next hab =>
        rw [if_neg hab] at hy
        obtain rfl := Option.some.inj hx
        obtain rfl := Option.some.inj hy
        exact hab

/-! ### What a check reads of a parent -/

section Agreement

variable {s : Suite} {policy p q : Policy}

/-- **A check reads nothing of the parent's signature.** -/
theorem validate_eq_of_unsigned_eq {now : UInt64} {parent other b : Block}
    (h : parent.unsigned = other.unsigned) :
    validate s policy now parent b = validate s policy now other b := by
  have hparent : validate s policy now parent b = validate s policy now parent.unsigned b := rfl
  have hother : validate s policy now other b = validate s policy now other.unsigned b := rfl
  rw [hparent, hother, h]

theorem validate_of_timestamp_le {clock now : UInt64} {parent b : Block}
    (h : validate s policy clock parent b = .ok ()) (hle : b.timestamp ≤ latestTimestamp now) :
    validate s policy now parent b = .ok () := by
  obtain ⟨hlink, hhash, hsigned, proof, hproof, hearly, -, hrest⟩ := validate_eq_ok_iff.mp h
  exact validate_eq_ok_iff.mpr ⟨hlink, hhash, hsigned, proof, hproof, hearly, hle, hrest⟩

theorem Block.Follows.bodyWithin {parent b : Block} (h : b.Follows s policy parent)
    (hpublic : s.publicSize < UInt32.size) (hsignature : s.signatureSize < UInt32.size) :
    b.BodyWithin UInt32.size := by
  obtain ⟨hproof, hproducer, hchanges, hchange⟩ := h.measuredBody
  have helement : Delay.modulusBytes < UInt32.size := by decide
  have hmany : maxChanges < UInt32.size := by decide
  exact {
    proof := fun p hp => ⟨(hproof p hp).1.trans_lt helement, (hproof p hp).2.trans_lt helement⟩
    producer := hproducer.trans_lt hpublic
    changes := hchanges.trans_lt hmany
    change := fun c hc => ⟨(hchange c hc).1.trans_lt hpublic, (hchange c hc).2.trans_lt hsignature⟩ }

/-- **Children with one hashed content agree** if their parents do.  The set of a child need not be
told from its hashed contents: it follows from the parent's set. -/
theorem Block.Follows.unsigned_eq {a b parent other : Block} (ha : a.Follows s p parent)
    (hb : b.Follows s q other) (hpublic : s.publicSize < UInt32.size)
    (hsignature : s.signatureSize < UInt32.size) (hparents : parent.unsigned = other.unsigned)
    (hcontents : a.preimage = b.preimage) (hhash : a.hash = b.hash) : a.unsigned = b.unsigned := by
  obtain ⟨hbody, -⟩ := Block.body_eq_of_preimage_eq (ha.bodyWithin hpublic hsignature)
    (hb.bodyWithin hpublic hsignature) hcontents
  have hproducer : a.producer = b.producer := (congrArg Block.producer hbody :)
  have hchanges : a.changes = b.changes := (congrArg Block.changes hbody :)
  have hproofs : a.proof = b.proof := (congrArg Block.proof hbody :)
  obtain ⟨proof, hproof, -⟩ := ha.proof_verifies
  have hseed : a.seed = b.seed := by
    rw [Block.seed_eq hproof, Block.seed_eq (hproofs.symm.trans hproof)]
  have hleft : Membership.next s parent.unsigned a.producer a.changes a.seed = .ok a.nodes := ha.next_eq
  have hright : Membership.next s other.unsigned b.producer b.changes b.seed = .ok b.nodes := hb.next_eq
  rw [hparents, hproducer, hchanges, hseed, hright] at hleft
  injection hleft with hnodes
  exact Block.unsigned_eq_of_unsealed_eq (Block.unsealed_eq_of_body_eq hbody hnodes.symm) hhash

/-- **Histories of one first block agree below the height at which they part**, on all but
signatures. -/
theorem History.unsigned_eq_of_lt_forkHeight {l m : List Block} (hl : History s p l)
    (hm : History s q m) (hpublic : s.publicSize < UInt32.size)
    (hsignature : s.signatureSize < UInt32.size) (hfree : CollisionFree s (· ∈ l ++ m))
    (hfirst : l[0]? = m[0]?) {i : Nat} {x y : Block} (hi : i < forkHeight l m)
    (hx : l[i]? = some x) (hy : m[i]? = some y) : x.unsigned = y.unsigned := by
  induction i generalizing x y with
  | zero =>
    rw [hfirst, hy] at hx
    rw [Option.some.inj hx]
  | succ i ih =>
    obtain ⟨parent, hparent⟩ := exists_parent hx
    obtain ⟨other, hother⟩ := exists_parent hy
    have hparents := ih (Nat.lt_of_succ_lt hi) hparent hother
    obtain ⟨x', y', hx', hy', hhash⟩ := hash_eq_of_lt_forkHeight hi
    obtain rfl := Option.some.inj (hx.symm.trans hx')
    obtain rfl := Option.some.inj (hy.symm.trans hy')
    have hxmem := List.mem_of_getElem? hx
    have hymem := List.mem_of_getElem? hy
    have hcontents : x.preimage = y.preimage := by
      refine hfree x y (List.mem_append_left m hxmem) (List.mem_append_right l hymem) ?_
      rw [hl.hash_eq hxmem, hm.hash_eq hymem, hhash]
    exact (hl.follows hparent hx).unsigned_eq (hm.follows hother hy) hpublic hsignature hparents
      hcontents hhash

end Agreement

namespace Chain

variable {s : Suite} {now : UInt64} {a b c d : Chain} {x : Block} {l batch : List Block}

/-! ### Which blocks a chain holds -/

theorem holds_iff :
    c.holds x = true ↔ ∃ held, c.blocks[x.height.toNat]? = some held ∧ held.hash = x.hash := by
  rw [holds, blockAt?_eq, Option.any_eq_true]
  simp only [beq_iff_eq]

theorem holds_of_isPrefix (hcd : c.blocks <+: d.blocks) (h : c.holds x = true) :
    d.holds x = true := by
  obtain ⟨held, hheld, hhash⟩ := holds_iff.mp h
  obtain ⟨l, hl⟩ := hcd
  refine holds_iff.mpr ⟨held, ?_, hhash⟩
  rw [← hl, List.getElem?_append_left (List.getElem?_eq_some_iff.mp hheld).1, hheld]

theorem not_holds_of_length_le (h : c.length ≤ x.height.toNat) : c.holds x = false := by
  rw [holds, blockAt?, if_neg (Nat.not_lt.mpr h)]
  rfl

theorem holds_of_mem (hc : History s c.policy c.blocks) (hx : x ∈ c.blocks) : c.holds x = true := by
  obtain ⟨i, hi⟩ := List.mem_iff_getElem?.mp hx
  refine holds_iff.mpr ⟨x, ?_, rfl⟩
  rw [hc.height_eq hi, hi]

theorem height_of_validate (hc : History s c.policy c.blocks)
    (h : validate s c.policy now c.tip x = .ok ()) : x.height.toNat = c.length := by
  rw [(follows_of_validate h).height_eq, ← length_blocks, length_eq_of_history hc]

theorem history_push (hc : History s c.policy c.blocks)
    (h : validate s c.policy now c.tip x = .ok ()) : History s (c.push x).policy (c.push x).blocks := by
  rw [blocks_push]
  exact hc.snoc c.getLast?_blocks h

/-- **A block of another height than the next is refused for its link.** -/
theorem append_of_height_ne (h : x.height.toNat ≠ c.tip.height.toNat + 1) :
    c.append s now x = .error (.linkMismatch c.tip.height x.height) := by
  have hlink : x.continues c.tip = false := by
    rw [Bool.eq_false_iff]
    intro hcontinues
    exact h (Block.continues_iff.mp hcontinues).2
  exact (append_eq_error_iff s).mpr (validate_of_not_continues hlink)

/-! ### What becomes of a batch -/

/-- What becomes of a batch.  It has a part that was gone through, `taken`, and a part that was not.
The blocks of the first are on the chain now: they were held before, or they are accepted.  The second
is empty, or it begins with a block that is not held and is rejected. -/
structure BatchAccount (s : Suite) (now : UInt64) (c : Chain) (batch : List Block) (d : Chain)
    (report : BatchReport) (taken accepted rest : List Block) : Prop where
  batch_eq : batch = taken ++ rest
  accepts : Accepts s now c accepted d
  blocks_eq : d.blocks = c.blocks ++ accepted
  sublist : accepted.Sublist taken
  appended_eq : report.appended = accepted.length
  known_eq : report.known + accepted.length = taken.length
  holds : ∀ b ∈ taken, d.holds b = true
  ended : (report.rejected = none ∧ rest = []) ∨
    ∃ b later cause, report.rejected = some (b.height, cause) ∧ rest = b :: later ∧
      d.holds b = false ∧ d.append s now b = .error cause

theorem appendAll_eq_sync (report : BatchReport) (hreport : report.rejected = none) :
    appendAll s now c report batch =
      ((c.sync s now batch).1,
        { appended := report.appended + (c.sync s now batch).2.appended
          known := report.known + (c.sync s now batch).2.known
          rejected := (c.sync s now batch).2.rejected }) := by
  rw [sync]
  induction batch generalizing c report with
  | nil =>
    obtain ⟨appended, known, rejected⟩ := report
    obtain rfl : rejected = none := hreport
    rfl
  | cons x batch ih =>
    rw [appendAll, appendAll]
    by_cases hx : c.holds x = true
    · rw [if_pos hx, if_pos hx]
      simp only [ih { report with known := report.known + 1 } hreport, ih ⟨0, 1, none⟩ rfl,
        Nat.zero_add, Nat.add_assoc]
    rw [if_neg hx, if_neg hx]
    cases c.append s now x with
    | error cause => rfl
    | ok next =>
      simp only [ih { report with appended := report.appended + 1 } hreport, ih ⟨1, 0, none⟩ rfl,
        Nat.zero_add, Nat.add_assoc]

theorem sync_cons_of_holds (h : c.holds x = true) :
    c.sync s now (x :: batch) =
      ((c.sync s now batch).1,
        { (c.sync s now batch).2 with known := 1 + (c.sync s now batch).2.known }) := by
  rw [sync, appendAll, if_pos h, appendAll_eq_sync _ rfl]
  simp only [Nat.zero_add]

theorem sync_cons_of_validate (h : c.holds x = false)
    (hx : validate s c.policy now c.tip x = .ok ()) :
    c.sync s now (x :: batch) =
      (((c.push x).sync s now batch).1,
        { ((c.push x).sync s now batch).2 with
          appended := 1 + ((c.push x).sync s now batch).2.appended }) := by
  rw [sync, appendAll, if_neg (Bool.eq_false_iff.mp h), (append_eq_ok_iff s).mpr ⟨hx, rfl⟩]
  simp only
  rw [appendAll_eq_sync _ rfl]
  simp only [Nat.zero_add]

theorem sync_cons_of_error {cause : ValidationError} (h : c.holds x = false)
    (hx : c.append s now x = .error cause) :
    c.sync s now (x :: batch) = (c, ⟨0, 0, some (x.height, cause)⟩) := by
  rw [sync, appendAll, if_neg (Bool.eq_false_iff.mp h), hx]

/-- **Blocks that are held are passed over.** -/
theorem sync_append_of_holds (h : ∀ x ∈ l, c.holds x = true) :
    c.sync s now (l ++ batch) =
      ((c.sync s now batch).1,
        { (c.sync s now batch).2 with known := l.length + (c.sync s now batch).2.known }) := by
  induction l with
  | nil => rw [List.nil_append, List.length_nil, Nat.zero_add]
  | cons x l ih =>
    rw [List.cons_append, sync_cons_of_holds (h x List.mem_cons_self),
      ih fun y hy => h y (List.mem_cons_of_mem x hy)]
    simp only [List.length_cons, Nat.add_comm l.length 1, Nat.add_assoc]

/-- **Blocks that are accepted one after another are appended.**  None of them is held before its
turn. -/
theorem sync_of_accepts (hc : History s c.policy c.blocks) (h : Accepts s now c l d) :
    c.sync s now l = (d, ⟨l.length, 0, none⟩) := by
  induction h with
  | nil c => rfl
  | @cons c d x l hx _ ih =>
    have hnew : c.holds x = false := not_holds_of_length_le (height_of_validate hc hx).ge
    rw [sync_cons_of_validate hnew hx, ih (history_push hc hx), List.length_cons,
      Nat.add_comm l.length 1]

/-- **What becomes of any batch.** -/
theorem exists_batchAccount (hc : History s c.policy c.blocks) (now : UInt64) (batch : List Block) :
    ∃ taken accepted rest, BatchAccount s now c batch (c.sync s now batch).1 (c.sync s now batch).2
      taken accepted rest := by
  induction batch generalizing c with
  | nil =>
    exact ⟨[], [], [], rfl, .nil c, (List.append_nil _).symm, .slnil, rfl, rfl, List.forall_mem_nil _,
      Or.inl ⟨rfl, rfl⟩⟩
  | cons x batch ih =>
    by_cases hx : c.holds x = true
    · obtain ⟨taken, accepted, rest, h⟩ := ih hc
      rw [sync_cons_of_holds hx]
      refine ⟨x :: taken, accepted, rest, congrArg (x :: ·) h.batch_eq, h.accepts, h.blocks_eq,
        h.sublist.cons x, h.appended_eq, ?_, List.forall_mem_cons.mpr ⟨?_, h.holds⟩, h.ended⟩
      · rw [List.length_cons, ← h.known_eq]
        show 1 + (c.sync s now batch).2.known + accepted.length =
          (c.sync s now batch).2.known + accepted.length + 1
        omega
      · exact holds_of_isPrefix ⟨accepted, h.blocks_eq.symm⟩ hx
    · rw [Bool.not_eq_true] at hx
      cases happend : c.append s now x with
      | error cause =>
        rw [sync_cons_of_error hx happend]
        exact ⟨[], [], x :: batch, rfl, .nil c, (List.append_nil _).symm, .slnil, rfl, rfl,
          List.forall_mem_nil _, Or.inr ⟨x, batch, cause, rfl, rfl, hx, happend⟩⟩
      | ok next =>
        obtain ⟨hvalid, rfl⟩ := (append_eq_ok_iff s).mp happend
        have hpush := history_push hc hvalid
        obtain ⟨taken, accepted, rest, h⟩ := ih hpush
        have hblocks := h.blocks_eq
        rw [blocks_push, List.append_assoc, List.singleton_append] at hblocks
        rw [sync_cons_of_validate hx hvalid]
        refine ⟨x :: taken, x :: accepted, rest, congrArg (x :: ·) h.batch_eq, .cons hvalid h.accepts,
          hblocks, h.sublist.cons_cons x, ?_, ?_, List.forall_mem_cons.mpr ⟨?_, h.holds⟩, h.ended⟩
        · rw [List.length_cons, ← h.appended_eq]
          exact Nat.add_comm _ _
        · rw [List.length_cons, List.length_cons, ← h.known_eq]
          rfl
        · have hmem : x ∈ (c.push x).blocks := by
            rw [blocks_push]
            exact List.mem_append_right _ List.mem_cons_self
          exact holds_of_isPrefix ⟨accepted, h.blocks_eq.symm⟩ (holds_of_mem hpush hmem)

/-! ### A peer's blocks -/

theorem holds_of_lt_forkHeight (ha : History s a.policy a.blocks) {i : Nat}
    (hi : i < forkHeight a.blocks b.blocks) (hx : a.blocks[i]? = some x) : b.holds x = true := by
  obtain ⟨y, held, hy, hheld, hhash⟩ := hash_eq_of_lt_forkHeight hi
  obtain rfl := Option.some.inj (hx.symm.trans hy)
  exact holds_iff.mpr ⟨held, by rw [ha.height_eq hx, hheld], hhash.symm⟩

theorem blocksFrom_eq_append {h : UInt64} {k : Nat} (hk : h.toNat ≤ k) (hlength : k ≤ a.length) :
    a.blocksFrom h = (a.blocks.take k).drop h.toNat ++ a.blocks.drop k := by
  have htake : h.toNat ≤ (a.blocks.take k).length := by
    rw [List.length_take, length_blocks, Nat.min_eq_left hlength]
    exact hk
  rw [blocksFrom, ← List.drop_append_of_le_length htake, List.take_append_drop]

theorem length_drop_take {h k : Nat} (hlength : k ≤ a.length) :
    ((a.blocks.take k).drop h).length = k - h := by
  rw [List.length_drop, List.length_take, length_blocks, Nat.min_eq_left hlength]

theorem sync_blocksFrom_eq (ha : History s a.policy a.blocks) {h : UInt64} {k : Nat}
    (hk : k = forkHeight a.blocks b.blocks) (hh : h.toNat ≤ k) :
    b.sync s now (a.blocksFrom h) =
      ((b.sync s now (a.blocks.drop k)).1,
        { (b.sync s now (a.blocks.drop k)).2 with
          known := k - h.toNat + (b.sync s now (a.blocks.drop k)).2.known }) := by
  have hlength : k ≤ a.length := by
    rw [hk, ← length_blocks]
    exact forkHeight_le_left _ _
  rw [blocksFrom_eq_append hh hlength, sync_append_of_holds, length_drop_take hlength]
  intro x hx
  obtain ⟨i, hi⟩ := List.mem_iff_getElem?.mp (List.mem_of_mem_drop hx)
  have hik : i < k := by
    have hlt := (List.getElem?_eq_some_iff.mp hi).1
    rw [List.length_take] at hlt
    omega
  rw [List.getElem?_take_of_lt hik] at hi
  exact holds_of_lt_forkHeight ha (hk ▸ hik) hi

/-- **The blocks of a history above one of its blocks are accepted** by a chain whose tip is that block,
whatever its signature, at any time at which none of them is from too far ahead. -/
theorem accepts_drop {policy : Policy} (hl : History s policy l)
    (htime : ∀ x ∈ l, x.timestamp ≤ latestTimestamp now) (hpolicy : c.policy = policy) {n : Nat}
    {parent : Block} (hparent : l[n]? = some parent) (htip : parent.unsigned = c.tip.unsigned) :
    ∃ d, Accepts s now c (l.drop (n + 1)) d := by
  -- the induction is on what is left of the history
  induction hrest : l.drop (n + 1) generalizing c n parent with
  | nil => exact ⟨c, .nil c⟩
  | cons x rest ih =>
    have hx : l[n + 1]? = some x := by
      rw [← List.head?_drop, hrest]
      rfl
    have hdrop : l.drop (n + 1 + 1) = rest := by rw [← List.tail_drop, hrest, List.tail_cons]
    obtain ⟨clock, hclock⟩ := hl.link hparent hx
    have hvalid := validate_of_timestamp_le hclock (htime x (List.mem_of_getElem? hx))
    rw [validate_eq_of_unsigned_eq htip, ← hpolicy] at hvalid
    obtain ⟨d, hd⟩ := ih (c := c.push x) hpolicy hx rfl hdrop
    exact ⟨d, .cons hvalid hd⟩

/-- **A peer that went on from a chain's end is followed to its own end.**  Then all its blocks are
held. -/
theorem sync_drop_of_agree (ha : History s a.policy a.blocks) (hb : History s b.policy b.blocks)
    (hfirst : a.blocks[0]? = b.blocks[0]?) (hpolicy : a.policy = b.policy)
    (hfree : CollisionFree s (· ∈ a.blocks ++ b.blocks)) (hpublic : s.publicSize < UInt32.size)
    (hsignature : s.signatureSize < UInt32.size)
    (htime : ∀ x ∈ a.blocks, x.timestamp ≤ latestTimestamp now)
    (hk : forkHeight a.blocks b.blocks = b.length) :
    ∃ d, b.sync s now (a.blocks.drop b.length) = (d, ⟨a.length - b.length, 0, none⟩) ∧
      d.blocks.map Block.hash = a.blocks.map Block.hash ∧ ∀ x ∈ a.blocks, d.holds x = true := by
  have hpos : b.length - 1 < forkHeight a.blocks b.blocks := by
    rw [hk, length]
    omega
  obtain ⟨parent, tip, hparent, htip, -⟩ := hash_eq_of_lt_forkHeight hpos
  have hlast := b.getLast?_blocks
  rw [List.getLast?_eq_getElem?, length_blocks, htip] at hlast
  obtain rfl := Option.some.inj hlast
  have hagree := ha.unsigned_eq_of_lt_forkHeight hb hpublic hsignature hfree hfirst hpos hparent htip
  obtain ⟨d, hd⟩ := accepts_drop ha htime hpolicy.symm hparent hagree
  rw [show b.length - 1 + 1 = b.length from rfl] at hd
  have hsame : ∀ i : Nat, d.blocks[i]?.map Block.hash = a.blocks[i]?.map Block.hash := by
    intro i
    rw [hd.blocks_eq]
    by_cases hi : i < b.length
    · obtain ⟨x, y, hx, hy, hhash⟩ := hash_eq_of_lt_forkHeight (hk ▸ hi)
      rw [List.getElem?_append_left (by rw [length_blocks]; exact hi), hx, hy]
      exact congrArg some hhash.symm
    · rw [List.getElem?_append_right (by rw [length_blocks]; omega), List.getElem?_drop,
        length_blocks, Nat.add_sub_cancel' (Nat.not_lt.mp hi)]
  refine ⟨d, ?_, ?_, fun x hx => ?_⟩
  · rw [sync_of_accepts hb hd, List.length_drop, length_blocks]
  · apply List.ext_getElem?
    intro i
    rw [List.getElem?_map, List.getElem?_map, hsame]
  · obtain ⟨i, hi⟩ := List.mem_iff_getElem?.mp hx
    have hheld := hsame i
    rw [hi] at hheld
    obtain ⟨held, hheld, hhash⟩ := Option.map_eq_some_iff.mp hheld
    exact holds_iff.mpr ⟨held, by rw [ha.height_eq hi, hheld], hhash⟩

/-- **A block that is not the next one ends a batch at once**, if it is not held. -/
theorem sync_drop_of_refused (ha : History s a.policy a.blocks) (hb : History s b.policy b.blocks)
    {k : Nat} (hx : a.blocks[k]? = some x) (hk : k ≠ b.length) (hnew : b.holds x = false) :
    b.sync s now (a.blocks.drop k) =
      (b, ⟨0, 0, some (x.height, .linkMismatch b.tip.height x.height)⟩) := by
  have hdrop : a.blocks.drop k = x :: a.blocks.drop (k + 1) := by
    obtain ⟨hlt, rfl⟩ := List.getElem?_eq_some_iff.mp hx
    exact List.drop_eq_getElem_cons hlt
  rw [hdrop]
  refine sync_cons_of_error hnew (append_of_height_ne ?_)
  rw [ha.height_eq hx, ← length_eq_of_history hb, length_blocks]
  exact hk

/-- **Catching up with a peer.**  Two chains grew from one first block under one policy, and `k` is the
height at which they part.  If the one ends there, it takes the blocks of the other above its end and
passes over those that it holds; then both have the same hashes, and taking the other's blocks again
changes nothing.  If they part below both ends, or the blocks begin beyond the end, the first block
that is not held is refused for its link, and nothing is appended.  Of any batch, the blocks that are
accepted go on the chain in order, and the report says how many there are, how many were held, and
which block was the first to be rejected. -/
theorem Reachable.sync_blocksFrom (ha : Reachable s a) (hb : Reachable s b)
    (hfirst : a.blocks[0]? = b.blocks[0]?) (hpolicy : a.policy = b.policy)
    (hfree : CollisionFree s (· ∈ a.blocks ++ b.blocks)) (hpublic : s.publicSize < UInt32.size)
    (hsignature : s.signatureSize < UInt32.size) (now : UInt64)
    (htime : ∀ x ∈ a.blocks, x.timestamp.toNat ≤ now.toNat + 30) :
    let k := forkHeight a.blocks b.blocks
    (k = b.length → b.length ≤ a.length ∧ ∃ d : Chain,
      d.blocks.map Block.hash = a.blocks.map Block.hash ∧
      (∀ h : UInt64, h.toNat ≤ b.length →
        b.sync s now (a.blocksFrom h) = (d, ⟨a.length - b.length, b.length - h.toNat, none⟩)) ∧
      ∀ h : UInt64, d.sync s now (a.blocksFrom h) = (d, ⟨0, a.length - h.toNat, none⟩)) ∧
    (k < a.length → k < b.length → ∀ h : UInt64, h.toNat ≤ k →
      b.sync s now (a.blocksFrom h) =
        (b, ⟨0, k - h.toNat,
          some (UInt64.ofNat k, .linkMismatch b.tip.height (UInt64.ofNat k))⟩)) ∧
    (∀ h : UInt64, b.length < h.toNat → h.toNat < a.length →
      b.sync s now (a.blocksFrom h) = (b, ⟨0, 0, some (h, .linkMismatch b.tip.height h)⟩)) ∧
    ∀ (clock : UInt64) (batch : List Block), ∃ taken accepted rest,
      BatchAccount s clock b batch (b.sync s clock batch).1 (b.sync s clock batch).2 taken accepted
        rest := by
  intro k
  have hahistory := ha.history
  have hbhistory := hb.history
  refine ⟨fun hk => ⟨?_, ?_⟩, fun hka hkb h hh => ?_, fun h hbh hha => ?_,
    exists_batchAccount hbhistory⟩
  · rw [← hk, ← length_blocks]
    exact forkHeight_le_left _ _
  · obtain ⟨d, hsync, hhashes, hheld⟩ := sync_drop_of_agree hahistory hbhistory hfirst hpolicy hfree
      hpublic hsignature (fun x hx => le_latestTimestamp_iff.mpr (htime x hx)) hk
    refine ⟨d, hhashes, fun h hh => ?_, fun h => ?_⟩
    · rw [sync_blocksFrom_eq hahistory hk.symm hh, hsync, Nat.add_zero]
    · have hagain : d.sync s now (a.blocks.drop h.toNat ++ []) = _ :=
        sync_append_of_holds fun x hx => hheld x (List.mem_of_mem_drop hx)
      rw [List.append_nil, List.length_drop, length_blocks] at hagain
      exact hagain
  · obtain ⟨x, hx⟩ : ∃ x, a.blocks[k]? = some x :=
      ⟨_, List.getElem?_eq_getElem (by rw [length_blocks]; exact hka)⟩
    have hheight : x.height = UInt64.ofNat k := by
      rw [← hahistory.height_eq hx, UInt64.ofNat_toNat]
    have hnew : b.holds x = false := by
      rw [Bool.eq_false_iff]
      intro hheld
      obtain ⟨held, hheld, hhash⟩ := holds_iff.mp hheld
      rw [hahistory.height_eq hx] at hheld
      exact hash_ne_at_forkHeight hx hheld hhash.symm
    rw [sync_blocksFrom_eq hahistory rfl hh,
      sync_drop_of_refused hahistory hbhistory hx (Nat.ne_of_lt hkb) hnew, hheight, Nat.add_zero]
  · obtain ⟨x, hx⟩ : ∃ x, a.blocks[h.toNat]? = some x :=
      ⟨_, List.getElem?_eq_getElem (by rw [length_blocks]; exact hha)⟩
    have hheight : x.height = h := UInt64.toNat_inj.mp (hahistory.height_eq hx)
    have hnew : b.holds x = false := not_holds_of_length_le (hheight ▸ hbh.le)
    rw [blocksFrom, sync_drop_of_refused hahistory hbhistory hx (Nat.ne_of_gt hbh) hnew, hheight]

end Chain

namespace Sample

open Suite (small)

/-- The chain of a node that took the rival block in the place of the second. -/
def forked : Chain := founded.push rival

theorem reachable_forked : Chain.Reachable small forked := by
  have hrival : validate small founded.policy 102 founded.tip rival = .ok () :=
    validate_eq_ok_iff.mpr (by decide +kernel)
  have hcall := reachable_founded.call (.append 102 rival)
  rw [Chain.Call.run, AppendCall.runAlone_of_ok hrival] at hcall
  exact hcall

theorem collisionFree_peers :
    CollisionFree small (· ∈ chain.blocks ++ founded.blocks) ∧
      CollisionFree small (· ∈ chain.blocks ++ forked.blocks) := by
  have hbehind : ∀ a ∈ chain.blocks ++ founded.blocks, ∀ b ∈ chain.blocks ++ founded.blocks,
      a.contentHash small = b.contentHash small → a.preimage = b.preimage := by decide +kernel
  have hforked : ∀ a ∈ chain.blocks ++ forked.blocks, ∀ b ∈ chain.blocks ++ forked.blocks,
      a.contentHash small = b.contentHash small → a.preimage = b.preimage := by decide +kernel
  exact ⟨fun a b ha hb => hbehind a ha b hb, fun a b ha hb => hforked a ha b hb⟩

/-- A chain that lies one block behind catches up, and one that has taken another way stays as it is. -/
theorem sync_chain :
    (∃ d : Chain, d.blocks.map Block.hash = chain.blocks.map Block.hash ∧
      founded.sync small 100 (chain.blocksFrom 0) = (d, ⟨1, 1, none⟩)) ∧
    forked.sync small 100 (chain.blocksFrom 0) =
      (forked, ⟨0, 1, some (1, .linkMismatch 1 1)⟩) := by
  have htime : ∀ x ∈ chain.blocks, x.timestamp.toNat ≤ (100 : UInt64).toNat + 30 := by decide +kernel
  have hbehind := (Chain.Reachable.sync_blocksFrom reachable_chain reachable_founded
    (by decide +kernel) rfl collisionFree_peers.1 (by decide) (by decide) 100 htime).1
  have hforked := (Chain.Reachable.sync_blocksFrom reachable_chain reachable_forked
    (by decide +kernel) rfl collisionFree_peers.2 (by decide) (by decide) 100 htime).2.1
  have hfork : forkHeight chain.blocks forked.blocks = 1 := by decide +kernel
  constructor
  · obtain ⟨-, d, hhashes, hsync, -⟩ := hbehind (by decide +kernel)
    exact ⟨d, hhashes, hsync 0 (Nat.zero_le _)⟩
  · have hrefused := hforked (by decide +kernel) (by decide +kernel) 0 (Nat.zero_le _)
    rw [hfork] at hrefused
    exact hrefused

end Sample

end DelayLedger
