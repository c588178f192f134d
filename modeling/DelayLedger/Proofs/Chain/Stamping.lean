import DelayLedger.Proofs.Forge

/-!
# Stamping ahead of the clock

Under a slot the difficulty of a child falls as its timestamp moves on, and a child may be stamped up to
`clockDrift` seconds ahead of the clock.  What a maker can spare itself by that is what the policy
prescribes for the latest timestamp.

* `least_le_of_validate`: no accepted child has less.
* `exists_validate_least`: with a proof in hand a child with exactly that is accepted.
* `stamping_ahead`: so the least difficulty of all comes within reach `clockDrift` seconds before two slots
  have passed on the clock, and no sooner.

At a slot of ten seconds the drift is longer than two slots (`Sample.hurried_least`).
-/

namespace DelayLedger

variable {s : Suite} {policy : Policy} {slot now : UInt64} {parent candidate : Block}

/-- The difficulty of a child that is stamped at the latest timestamp there is at a clock. -/
def leastAhead (slot now : UInt64) (parent : Block) : UInt64 :=
  (Policy.slotTarget slot).next parent.difficulty parent.timestamp (latestTimestamp now)

/-- **No accepted child has less** than the latest timestamp would earn it. -/
theorem least_le_of_validate (h : validate s (.slotTarget slot) now parent candidate = .ok ()) :
    leastAhead slot now parent ≤ candidate.difficulty := by
  obtain ⟨-, -, -, -, -, -, hlatest, hdifficulty, -⟩ := validate_eq_ok_iff.mp h
  rw [hdifficulty]
  exact Policy.next_slotTarget_anti hlatest

theorem two_slots_of_validate (h : validate s policy now parent candidate = .ok ()) {span : Nat}
    (hspan : span ≤ (candidate.timestamp.toNat - parent.timestamp.toNat) * 1000) :
    span ≤ (now.toNat + clockDrift - parent.timestamp.toNat) * 1000 := by
  obtain ⟨-, -, -, -, -, -, hlatest, -⟩ := validate_eq_ok_iff.mp h
  refine Nat.le_trans hspan (Nat.mul_le_mul_right 1000 (Nat.sub_le_sub_right ?_ _))
  exact le_latestTimestamp_iff.mp hlatest

/-- **The least is within reach** of everyone who has a proof over the parent, once there is room for
the maker. -/
theorem exists_validate_least {keys : Keypair} {proof : DelayProof}
    (hheight : parent.height.toNat < maxWord)
    (hsign : ∀ message, s.verify keys.publicKey message (s.sign keys.secretKey message) = .ok ())
    (hproof : Delay.verify s parent.difficulty parent.hash.bytes proof = true)
    (hroom : (insert keys.publicKey parent.nodes.toFinset).card ≤ maxNodes)
    (hnow : parent.timestamp ≤ now) :
    ∃ candidate, validate s (.slotTarget slot) now parent candidate = .ok () ∧
      candidate.producer = keys.publicKey ∧ candidate.difficulty = leastAhead slot now parent := by
  have hlatest : now ≤ latestTimestamp now := le_latestTimestamp_iff.mpr (Nat.le_add_right _ _)
  have htime : ¬ (latestTimestamp now < parent.timestamp ∨
      latestTimestamp now < latestTimestamp now) := by
    rw [not_or, UInt64.not_lt]
    exact ⟨UInt64.le_trans hnow hlatest, UInt64.lt_irrefl _⟩
  have hfits := Membership.card_successors_select_le s [] hroom
  refine ⟨forge s (.slotTarget slot) keys parent proof [] (latestTimestamp now), ?_, rfl, rfl⟩
  rw [validate_forge _ now proof [] _ hheight hsign, hproof, if_neg nofun, if_neg htime,
    if_neg (Nat.not_lt.mpr hfits)]

/-- **What stamping ahead can buy.**  If the latest timestamp that is accepted does not earn the minimum
difficulty, then no accepted child has it, however it is stamped: none has less than that timestamp
earns.  A child is stamped two slots after its parent only when two slots less 30 seconds have passed on
the clock.  And this much can be bought: whoever has a proof over the parent may make a child with
exactly the difficulty of the latest timestamp. -/
theorem stamping_ahead (s : Suite) (slot now : UInt64) (parent : Block) :
    (∀ candidate, validate s (.slotTarget slot) now parent candidate = .ok () →
      (minDifficulty < (leastAhead slot now parent).toNat →
          minDifficulty < candidate.difficulty.toNat) ∧
        leastAhead slot now parent ≤ candidate.difficulty ∧
        (2 * slot.toNat ≤ (candidate.timestamp.toNat - parent.timestamp.toNat) * 1000 →
          2 * slot.toNat ≤ (now.toNat + clockDrift - parent.timestamp.toNat) * 1000)) ∧
    ∀ (keys : Keypair) (proof : DelayProof), parent.timestamp ≤ now →
      parent.height.toNat < maxWord →
      (∀ message, s.verify keys.publicKey message (s.sign keys.secretKey message) = .ok ()) →
      Delay.verify s parent.difficulty parent.hash.bytes proof = true →
      (insert keys.publicKey parent.nodes.toFinset).card ≤ maxNodes →
      ∃ candidate, validate s (.slotTarget slot) now parent candidate = .ok () ∧
        candidate.producer = keys.publicKey ∧ candidate.difficulty = leastAhead slot now parent := by
  constructor
  · intro candidate haccept
    have hleast := least_le_of_validate haccept
    refine ⟨fun habove => ?_, hleast, two_slots_of_validate haccept⟩
    exact Nat.lt_of_lt_of_le habove (UInt64.le_iff_toNat_le.mp hleast)
  · intro keys proof hnow hheight hsign hproof hroom
    exact exists_validate_least hheight hsign hproof hroom hnow

/-! ### A short slot and a long one -/

namespace Sample

open Suite (small)

def steady : Block := genesis small maker [] 200 1000

/-- A child of `steady` that is stamped 30 seconds after it. -/
def ahead (slot : UInt64) : Block :=
  forge small (.slotTarget slot) maker steady ⟨[1], [13]⟩ [] 1030

/-- At a slot of a minute, stamping ahead spares the maker a quarter of the difficulty. -/
theorem least_of_minute :
    validate small (.slotTarget 60000) 1000 steady (ahead 60000) = .ok () ∧
      minDifficulty < (ahead 60000).difficulty.toNat ∧
      ∃ candidate, validate small (.slotTarget 60000) 1000 steady candidate = .ok () ∧
        candidate.difficulty = 300 := by
  have hahead : validate small (.slotTarget 60000) 1000 steady (ahead 60000) = .ok () :=
    validate_eq_ok_iff.mpr (by decide +kernel)
  obtain ⟨hbound, hreach⟩ := stamping_ahead small 60000 1000 steady
  obtain ⟨candidate, haccept, -, hleast⟩ := hreach maker ⟨[1], [13]⟩ (by decide +kernel)
    (by decide +kernel) (Suite.small_verify_sign [1]) (by decide +kernel) (by decide +kernel)
  exact ⟨hahead, (hbound _ hahead).1 (by decide +kernel), candidate, haccept,
    hleast.trans (by decide +kernel)⟩

/-- **At a slot of ten seconds the minimum can be bought at once.**  A child that is stamped on time has
to carry twice the difficulty, and one that is stamped 30 seconds ahead is accepted with the
minimum. -/
theorem hurried_least :
    (Policy.slotTarget 10000).next steady.difficulty steady.timestamp 1000 = 400 ∧
      validate small (.slotTarget 10000) 1000 steady (ahead 10000) = .ok () ∧
      (ahead 10000).difficulty.toNat = minDifficulty ∧
      ¬ ∀ (s : Suite) (slot now : UInt64) (parent candidate : Block), slot.toNat < 1 <<< 63 →
        parent.timestamp ≤ now →
        minDifficulty <
          ((Policy.slotTarget slot).next parent.difficulty parent.timestamp now).toNat →
        validate s (.slotTarget slot) now parent candidate = .ok () →
        minDifficulty < candidate.difficulty.toNat := by
  have hahead : validate small (.slotTarget 10000) 1000 steady (ahead 10000) = .ok () :=
    validate_eq_ok_iff.mpr (by decide +kernel)
  have hleast : (ahead 10000).difficulty.toNat = minDifficulty := by decide +kernel
  refine ⟨by decide +kernel, hahead, hleast, fun hclaim => ?_⟩
  have habove := hclaim small 10000 1000 steady (ahead 10000) (by decide) (by decide +kernel)
    (by decide +kernel) hahead
  exact Nat.lt_irrefl _ (hleast ▸ habove)

end Sample

end DelayLedger
