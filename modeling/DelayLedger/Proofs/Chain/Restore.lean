import DelayLedger.Proofs.Chain.Reachable

/-!
# Restored chains

Restoring goes through stored blocks with a tip of its own; a live chain appends them one after the
other (`grow`).  Both accept the same blocks and stop at the same one for the same reason
(`restoreFrom_eq_grow`).  A later clock accepts whatever an earlier one did (`validate_of_le`), so the
blocks of a chain can be restored once the clock has passed the readings at which they were accepted
(`AcceptedAt`).

* `restore_eq_ok_iff`, `restore_eq_error_iff`: what restoring accepts, and what it reports.
* `AcceptedAt.restore_blocks`: a reachable chain is restored from its own blocks.
* `restore_is_live_growth`: the two together.
-/

namespace DelayLedger

/-! ### The clock -/

theorem latestTimestamp_mono {earlier later : UInt64} (h : earlier ≤ later) :
    latestTimestamp earlier ≤ latestTimestamp later := by
  have hword : ∀ n : Nat, min n maxWord < UInt64.size := fun n =>
    Nat.lt_of_le_of_lt (Nat.min_le_right n maxWord) (by decide)
  rw [UInt64.le_iff_toNat_le] at h ⊢
  rw [latestTimestamp, latestTimestamp, UInt64.toNat_ofNat_of_lt' (hword _),
    UInt64.toNat_ofNat_of_lt' (hword _)]
  omega

/-- **A later clock accepts whatever an earlier one did.** -/
theorem validate_of_le {s : Suite} {policy : Policy} {earlier later : UInt64} {parent b : Block}
    (h : validate s policy earlier parent b = .ok ()) (hle : earlier ≤ later) :
    validate s policy later parent b = .ok () := by
  obtain ⟨hlink, hhash, hsigned, proof, hproof, hearly, hlate, hrest⟩ := validate_eq_ok_iff.mp h
  have hlatest := UInt64.le_trans hlate (latestTimestamp_mono hle)
  exact validate_eq_ok_iff.mpr ⟨hlink, hhash, hsigned, proof, hproof, hearly, hlatest, hrest⟩

namespace Chain

variable {s : Suite} {policy : Policy} {now : UInt64}

/-! ### Live growth -/

/-- Appends blocks in order.  The first one that is rejected ends it and is reported with the cause. -/
def grow (s : Suite) (now : UInt64) :
    Chain → List Block → Except (Block × ValidationError) Chain
  | c, [] => .ok c
  | c, b :: l =>
    match c.append s now b with
    | .error cause => .error (b, cause)
    | .ok next => grow s now next l

/-- The chain as it was before anything was published on its feed. -/
def quiet (c : Chain) : Chain := { c with feed := .empty }

theorem grow_eq_ok_iff {c d : Chain} {l : List Block} :
    c.grow s now l = .ok d ↔ Accepts s now c l d := by
  induction l generalizing c with
  | nil =>
    constructor
    · intro h
      injection h with h
      exact h ▸ .nil c
    · intro h
      cases h
      rfl
  | cons b l ih =>
    rw [grow]
    constructor
    · intro h
      split at h
      · contradiction
      · next next hnext =>
        obtain ⟨hb, rfl⟩ := (append_eq_ok_iff s).mp hnext
        exact .cons hb (ih.mp h)
    · intro h
      cases h with
      | cons hb hrest =>
        rw [(append_eq_ok_iff s).mpr ⟨hb, rfl⟩]
        exact ih.mpr hrest

/-- **Growth ends at the first block that appending rejects**, after all blocks before it. -/
theorem grow_eq_error_iff {c : Chain} {l : List Block} {b : Block} {cause : ValidationError} :
    c.grow s now l = .error (b, cause) ↔
      ∃ before after grown, l = before ++ b :: after ∧ c.grow s now before = .ok grown ∧
        grown.append s now b = .error cause := by
  induction l generalizing c with
  | nil =>
    constructor
    · intro h
      contradiction
    · rintro ⟨before, after, -, hl, -⟩
      exact absurd hl.symm (List.append_ne_nil_of_right_ne_nil before (List.cons_ne_nil b after))
  | cons d l ih =>
    rw [grow]
    constructor
    · intro h
      split at h
      · next e he =>
        injection h with h
        obtain ⟨rfl, rfl⟩ := Prod.mk.inj h
        exact ⟨[], l, c, rfl, rfl, he⟩
      · next next hnext =>
        obtain ⟨before, after, grown, rfl, hgrown, hb⟩ := ih.mp h
        refine ⟨d :: before, after, grown, rfl, ?_, hb⟩
        rw [grow, hnext]
        exact hgrown
    · rintro ⟨before, after, grown, hl, hgrown, hb⟩
      cases before with
      | nil =>
        obtain ⟨rfl, rfl⟩ := List.cons.inj hl
        injection hgrown with hgrown
        rw [hgrown, hb]
      | cons d' before =>
        obtain ⟨rfl, rfl⟩ := List.cons.inj hl
        rw [grow] at hgrown
        split at hgrown
        · contradiction
        · next next hnext => exact ih.mpr ⟨before, after, grown, rfl, hgrown, hb⟩

/-! ### Restoring and growing -/

/-- **Going on with a restored chain is growing it**, but that nothing is published. -/
theorem restoreFrom_eq_grow (c : Chain) (l : List Block) :
    restoreFrom s c.policy now c.earlier c.tip l =
      match c.grow s now l with
      | .error (b, cause) => .error (.corrupt b.height cause)
      | .ok grown => .ok grown.quiet := by
  induction l generalizing c with
  | nil => rfl
  | cons b l ih =>
    rw [restoreFrom, grow]
    cases hb : validate s c.policy now c.tip b with
    | error e => rw [(append_eq_error_iff s).mpr hb]
    | ok u =>
      rw [(append_eq_ok_iff s).mpr ⟨hb, rfl⟩]
      exact ih (c.push b)

theorem restore_cons (genesis : Block) (l : List Block) :
    restore s policy now (genesis :: l) =
      match Chain.new s policy genesis with
      | .error e => .error e
      | .ok founded =>
        match founded.grow s now l with
        | .error (b, cause) => .error (.corrupt b.height cause)
        | .ok grown => .ok grown.quiet := by
  rw [restore, Chain.new]
  cases checkGenesis s genesis with
  | error e => rfl
  | ok u => exact restoreFrom_eq_grow ⟨policy, [], genesis, .empty⟩ l

theorem restore_eq_ok_iff {blocks : List Block} {c : Chain} :
    restore s policy now blocks = .ok c ↔
      ∃ genesis rest founded grown, blocks = genesis :: rest ∧
        Chain.new s policy genesis = .ok founded ∧ founded.grow s now rest = .ok grown ∧
        c = grown.quiet := by
  constructor
  · intro h
    cases blocks with
    | nil => contradiction
    | cons genesis rest =>
      rw [restore_cons] at h
      split at h
      · contradiction
      · next founded hfounded =>
        split at h
        · contradiction
        · next grown hgrown =>
          injection h with h
          exact ⟨genesis, rest, founded, grown, rfl, hfounded, hgrown, h.symm⟩
  · rintro ⟨genesis, rest, founded, grown, rfl, hfounded, hgrown, rfl⟩
    rw [restore_cons, hfounded]
    simp only [hgrown]

/-- **What restoring reports**: that there are no blocks, what `new` reports of the first one, or the
first block that a live chain would reject, with the cause. -/
theorem restore_eq_error_iff {blocks : List Block} {e : ChainError} :
    restore s policy now blocks = .error e ↔
      (blocks = [] ∧ e = .emptyStore) ∨
      (∃ genesis rest, blocks = genesis :: rest ∧ Chain.new s policy genesis = .error e) ∨
      ∃ genesis before b after founded grown cause, blocks = genesis :: (before ++ b :: after) ∧
        Chain.new s policy genesis = .ok founded ∧ founded.grow s now before = .ok grown ∧
        grown.append s now b = .error cause ∧ e = .corrupt b.height cause := by
  constructor
  · intro h
    cases blocks with
    | nil =>
      injection h with h
      exact Or.inl ⟨rfl, h.symm⟩
    | cons genesis rest =>
      rw [restore_cons] at h
      split at h
      · next e' he =>
        injection h with h
        exact Or.inr (Or.inl ⟨genesis, rest, rfl, h ▸ he⟩)
      · next founded hfounded =>
        split at h
        · next b cause hgrow =>
          injection h with h
          obtain ⟨before, after, grown, rfl, hgrown, hb⟩ := grow_eq_error_iff.mp hgrow
          exact Or.inr (Or.inr
            ⟨genesis, before, b, after, founded, grown, cause, rfl, hfounded, hgrown, hb, h.symm⟩)
        · contradiction
  · rintro (⟨rfl, rfl⟩ | ⟨genesis, rest, rfl, hgenesis⟩ |
      ⟨genesis, before, b, after, founded, grown, cause, rfl, hfounded, hgrown, hb, rfl⟩)
    · rfl
    · rw [restore_cons, hgenesis]
    · have hgrow := grow_eq_error_iff.mpr ⟨before, after, grown, rfl, hgrown, hb⟩
      rw [restore_cons, hfounded]
      simp only [hgrow]

theorem new_eq_error_iff {genesis : Block} {e : ChainError} :
    Chain.new s policy genesis = .error e ↔
      ∃ cause, checkGenesis s genesis = .error cause ∧ e = .invalidGenesis cause := by
  rw [Chain.new]
  cases checkGenesis s genesis with
  | error cause => simp [eq_comm]
  | ok u => simp

theorem new_eq_ok_iff {genesis : Block} {c : Chain} :
    Chain.new s policy genesis = .ok c ↔
      checkGenesis s genesis = .ok () ∧ c = ⟨policy, [], genesis, .empty⟩ := by
  rw [Chain.new]
  cases checkGenesis s genesis with
  | error cause => simp
  | ok u => simp [eq_comm]

/-! ### The clock's readings at which a chain grew -/

def Call.clock : Call → UInt64
  | .append now _ => now
  | .sync now _ => now

/-- A chain that calls lead to, and what the clock showed when each block above the first was
accepted, the lowest block first. -/
inductive AcceptedAt (s : Suite) : Chain → List UInt64 → Prop
  | new {policy : Policy} {genesis : Block} {c : Chain} :
      Chain.new s policy genesis = .ok c → AcceptedAt s c []
  | restore {policy : Policy} {now : UInt64} {blocks : List Block} {c : Chain} :
      Chain.restore s policy now blocks = .ok c →
      AcceptedAt s c (List.replicate (c.length - 1) now)
  | call {c : Chain} {clocks : List UInt64} (call : Call) : AcceptedAt s c clocks →
      AcceptedAt s (call.run s c)
        (clocks ++ List.replicate ((call.run s c).length - c.length) call.clock)

theorem Reachable.exists_acceptedAt {c : Chain} (h : Reachable s c) :
    ∃ clocks, AcceptedAt s c clocks := by
  induction h with
  | new hnew => exact ⟨_, .new hnew⟩
  | restore hrestore => exact ⟨_, .restore hrestore⟩
  | call call _ ih =>
    obtain ⟨clocks, hclocks⟩ := ih
    exact ⟨_, .call call hclocks⟩

theorem exists_accepts_clock (s : Suite) (c : Chain) (call : Call) :
    ∃ accepted, Accepts s call.clock c accepted (call.run s c) := by
  cases call with
  | append now candidate =>
    obtain ⟨accepted, hacc, -⟩ := exists_accepts_runAlone s now c candidate
    exact ⟨accepted, hacc⟩
  | sync now batch =>
    obtain ⟨accepted, hacc, -⟩ := exists_accepts_appendAll s now batch c ⟨0, 0, none⟩
    exact ⟨accepted, hacc⟩

theorem Accepts.length_eq {c d : Chain} {l : List Block} (h : Accepts s now c l d) :
    d.length = c.length + l.length := by
  rw [← length_blocks, ← length_blocks, h.blocks_eq, List.length_append]

/-- **Blocks that are accepted at one time are accepted later**, too. -/
theorem Accepts.later {earlier later : UInt64} {c d : Chain} {l : List Block}
    (h : Accepts s earlier c l d)
    (hle : ∀ clock ∈ List.replicate l.length earlier, clock ≤ later) : Accepts s later c l d := by
  induction h with
  | nil c => exact .nil c
  | @cons c d b l hb hrest ih =>
    have hclock : earlier ≤ later := hle earlier (List.mem_cons_self)
    refine .cons (validate_of_le hb hclock) (ih fun clock hmem => ?_)
    exact hle clock (List.mem_cons_of_mem _ hmem)

/-! ### Restoring a chain from its own blocks -/

theorem restore_eq_ok_iff_accepts {blocks : List Block} {c : Chain} :
    restore s policy now blocks = .ok c ↔
      ∃ genesis rest grown, blocks = genesis :: rest ∧ checkGenesis s genesis = .ok () ∧
        Accepts s now ⟨policy, [], genesis, .empty⟩ rest grown ∧ c = grown.quiet := by
  rw [restore_eq_ok_iff]
  constructor
  · rintro ⟨genesis, rest, founded, grown, hblocks, hfounded, hgrown, hc⟩
    obtain ⟨hcheck, rfl⟩ := new_eq_ok_iff.mp hfounded
    exact ⟨genesis, rest, grown, hblocks, hcheck, grow_eq_ok_iff.mp hgrown, hc⟩
  · rintro ⟨genesis, rest, grown, hblocks, hcheck, hacc, hc⟩
    exact ⟨genesis, rest, _, grown, hblocks, new_eq_ok_iff.mpr ⟨hcheck, rfl⟩,
      grow_eq_ok_iff.mpr hacc, hc⟩

theorem blocks_of_restore {blocks : List Block} {c : Chain}
    (h : restore s policy now blocks = .ok c) :
    c.blocks = blocks ∧ c.policy = policy ∧ c.quiet = c := by
  obtain ⟨genesis, rest, grown, rfl, -, hacc, rfl⟩ := restore_eq_ok_iff_accepts.mp h
  exact ⟨hacc.blocks_eq, hacc.policy_eq, rfl⟩

theorem restore_of_le {earlier : UInt64} {blocks : List Block} {c : Chain}
    (h : restore s policy earlier blocks = .ok c)
    (hle : ∀ clock ∈ List.replicate (c.length - 1) earlier, clock ≤ now) :
    restore s policy now blocks = .ok c := by
  obtain ⟨genesis, rest, grown, rfl, hcheck, hacc, rfl⟩ := restore_eq_ok_iff_accepts.mp h
  have hlength : grown.quiet.length - 1 = rest.length := by
    rw [show grown.quiet.length = 1 + rest.length from hacc.length_eq]
    exact Nat.add_sub_cancel_left 1 rest.length
  rw [hlength] at hle
  exact restore_eq_ok_iff_accepts.mpr ⟨genesis, rest, grown, rfl, hcheck, hacc.later hle, rfl⟩

theorem restoreFrom_append {earlier : List Block} {tip : Block} {l m : List Block} {c : Chain}
    (h : restoreFrom s policy now earlier tip l = .ok c.quiet) :
    restoreFrom s policy now earlier tip (l ++ m) = restoreFrom s policy now c.earlier c.tip m := by
  induction l generalizing earlier tip with
  | nil =>
    injection h with h
    have hearlier : earlier = c.earlier := congrArg Chain.earlier h
    have htip : tip = c.tip := congrArg Chain.tip h
    rw [hearlier, htip, List.nil_append]
  | cons b l ih =>
    rw [restoreFrom] at h
    split at h
    · contradiction
    · next hb =>
      rw [List.cons_append, restoreFrom, hb]
      exact ih h

theorem restore_append {c d : Chain} {l m : List Block}
    (h : restore s c.policy now l = .ok c.quiet) (hacc : Accepts s now c m d) :
    restore s c.policy now (l ++ m) = .ok d.quiet := by
  cases l with
  | nil => contradiction
  | cons genesis l =>
    rw [restore] at h
    split at h
    · contradiction
    · next hcheck =>
      rw [List.cons_append, restore, hcheck]
      calc restoreFrom s c.policy now [] genesis (l ++ m)
          = restoreFrom s c.policy now c.earlier c.tip m := restoreFrom_append h
        _ = .ok d.quiet := by rw [restoreFrom_eq_grow, grow_eq_ok_iff.mpr hacc]

/-- **A chain is restored from its own blocks** when the clock has passed all readings at which they
were accepted. -/
theorem AcceptedAt.restore_blocks {c : Chain} {clocks : List UInt64} (h : AcceptedAt s c clocks)
    (hle : ∀ clock ∈ clocks, clock ≤ now) : Chain.restore s c.policy now c.blocks = .ok c.quiet := by
  induction h with
  | @new policy genesis c hnew =>
    obtain ⟨hcheck, rfl⟩ := new_eq_ok_iff.mp hnew
    exact restore_eq_ok_iff_accepts.mpr ⟨genesis, [], _, rfl, hcheck, .nil _, rfl⟩
  | @restore policy earlier blocks c hrestore =>
    obtain ⟨hblocks, hpolicy, hquiet⟩ := blocks_of_restore hrestore
    rw [hblocks, hpolicy, hquiet]
    exact restore_of_le hrestore hle
  | @call c clocks call _ ih =>
    obtain ⟨accepted, hacc⟩ := exists_accepts_clock s c call
    rw [hacc.length_eq, Nat.add_sub_cancel_left] at hle
    have hbefore := ih fun clock hmem => hle clock (List.mem_append_left _ hmem)
    have hlater := hacc.later fun clock hmem => hle clock (List.mem_append_right _ hmem)
    rw [hacc.policy_eq, hacc.blocks_eq]
    exact restore_append hbefore hlater

/-- **Restoring is the same check as live growth.**  It accepts a list of blocks exactly when a chain
can be founded on the first one and appends the others in order, and then it has that chain's blocks
and tip.  What it reports else is that the list is empty, what founding the chain reports, or the first
block that appending rejects, by its height and with the cause.  A reachable chain is restored from
its own blocks at any time that is not before the readings at which they were accepted. -/
theorem restore_is_live_growth (s : Suite) :
    (∀ (policy : Policy) (now : UInt64) (blocks : List Block) (c : Chain),
      restore s policy now blocks = .ok c ↔
        ∃ genesis rest founded grown, blocks = genesis :: rest ∧
          Chain.new s policy genesis = .ok founded ∧ founded.grow s now rest = .ok grown ∧
          c = grown.quiet ∧ c.blocks = grown.blocks ∧ c.tip = grown.tip) ∧
      (∀ (policy : Policy) (now : UInt64) (blocks : List Block) (e : ChainError),
        restore s policy now blocks = .error e ↔
          (blocks = [] ∧ e = .emptyStore) ∨
          (∃ genesis rest cause, blocks = genesis :: rest ∧
            Chain.new s policy genesis = .error e ∧ e = .invalidGenesis cause) ∨
          ∃ genesis before b after founded grown cause,
            blocks = genesis :: (before ++ b :: after) ∧
            Chain.new s policy genesis = .ok founded ∧ founded.grow s now before = .ok grown ∧
            grown.append s now b = .error cause ∧ e = .corrupt b.height cause) ∧
      ∀ c : Chain, Reachable s c → (∃ clocks, AcceptedAt s c clocks) ∧
        ∀ (clocks : List UInt64) (now : UInt64), AcceptedAt s c clocks →
          (∀ clock ∈ clocks, clock ≤ now) →
          ∃ restored, restore s c.policy now (c.blocksFrom 0) = .ok restored ∧
            restored.blocks = c.blocks ∧ restored.tip = c.tip ∧ restored.policy = c.policy := by
  refine ⟨fun policy now blocks c => ?_, fun policy now blocks e => ?_, fun c hc => ?_⟩
  · rw [restore_eq_ok_iff]
    constructor
    · rintro ⟨genesis, rest, founded, grown, hblocks, hfounded, hgrown, rfl⟩
      exact ⟨genesis, rest, founded, grown, hblocks, hfounded, hgrown, rfl, rfl, rfl⟩
    · rintro ⟨genesis, rest, founded, grown, hblocks, hfounded, hgrown, hc, -⟩
      exact ⟨genesis, rest, founded, grown, hblocks, hfounded, hgrown, hc⟩
  · rw [restore_eq_error_iff]
    refine or_congr Iff.rfl (or_congr ?_ Iff.rfl)
    constructor
    · rintro ⟨genesis, rest, hblocks, hnew⟩
      obtain ⟨cause, -, he⟩ := new_eq_error_iff.mp hnew
      exact ⟨genesis, rest, cause, hblocks, hnew, he⟩
    · rintro ⟨genesis, rest, -, hblocks, hnew, -⟩
      exact ⟨genesis, rest, hblocks, hnew⟩
  · refine ⟨hc.exists_acceptedAt, fun clocks now hclocks hle => ?_⟩
    exact ⟨c.quiet, hclocks.restore_blocks hle, rfl, rfl, rfl⟩

end Chain

namespace Sample

open Suite (small)

theorem new_first : Chain.new small .fixed first = .ok founded :=
  Chain.new_of_checkGenesis .fixed (checkGenesis_eq_ok_iff.mpr (by decide +kernel))

theorem acceptedAt_chain : Chain.AcceptedAt small chain [100] := by
  have hcall := Chain.AcceptedAt.call (.append 100 second) (.new new_first)
  rw [Chain.Call.run, AppendCall.runAlone_of_ok validate_second] at hcall
  exact hcall

/-- The small ledger can be restored from the time on at which its last block was accepted.  At an
earlier one that block is from too far ahead. -/
theorem restore_chain :
    (∃ restored, Chain.restore small .fixed 100 [first, second] = .ok restored ∧
      restored.blocks = chain.blocks ∧ restored.tip = second ∧ restored.policy = .fixed) ∧
    Chain.restore small .fixed 70 [first, second] =
      .error (.corrupt 1 (.timestampOutOfRange 100 100 101)) := by
  obtain ⟨-, herror, hreachable⟩ := Chain.restore_is_live_growth small
  have hearly : founded.append small 70 second = .error (.timestampOutOfRange 100 100 101) :=
    (Chain.append_eq_error_iff small).mpr (by decide +kernel)
  have hclocks : ∀ clock ∈ [(100 : UInt64)], clock ≤ 100 := by
    intro clock hmem
    obtain rfl := List.mem_singleton.mp hmem
    exact UInt64.le_refl 100
  constructor
  · exact (hreachable chain reachable_chain).2 [100] 100 acceptedAt_chain hclocks
  · exact (herror .fixed 70 [first, second] _).mpr (Or.inr (Or.inr
      ⟨first, [], second, [], founded, founded, _, rfl, new_first, rfl, hearly, rfl⟩))

end Sample

end DelayLedger
