import DelayLedger.Proofs.Block.Preimage
import DelayLedger.Proofs.Chain.Reachable

/-!
# Altered blocks

What is hashed of a block tells everything but the hash and the signature (`Block.preimage_eq_iff`, and
`Block.unsealed_eq_iff` with every field named).  So an accepted block cannot be altered under its hash:
where the parent's hash or the height is altered it no longer continues its parent, and where anything
else is, its hash no longer matches (`validate_altered`).  Neither depends on the clock or the policy.
-/

namespace DelayLedger

namespace Block

theorem unsealed_eq_iff {a b : Block} :
    a.unsealed = b.unsealed ↔
      a.previousHash = b.previousHash ∧ a.height = b.height ∧ a.difficulty = b.difficulty ∧
        a.timestamp = b.timestamp ∧ a.proof = b.proof ∧ a.producer = b.producer ∧
        a.changes = b.changes ∧ a.nodes = b.nodes := by
  cases a
  cases b
  simp [unsealed]

/-- **The hashed contents are one to one with what is hashed**, for lists and byte strings shorter than
`2 ^ 32`.  The hash and the signature do not enter. -/
theorem preimage_eq_iff {a b : Block} (ha : a.unsealed.Within UInt32.size)
    (hb : b.unsealed.Within UInt32.size) : a.preimage = b.preimage ↔ a.unsealed = b.unsealed := by
  constructor
  · exact fun h => unsealed_eq_of_preimage_eq (a := a.unsealed) (b := b.unsealed) ha hb h
  · intro h
    show a.unsealed.preimage = b.unsealed.preimage
    rw [h]

theorem continues_eq_iff {parent b altered : Block} (h : b.continues parent = true) :
    altered.continues parent = true ↔
      altered.previousHash = b.previousHash ∧ altered.height = b.height := by
  rw [continues_iff] at h ⊢
  rw [h.1, ← UInt64.toNat_inj, h.2]

end Block

variable {s : Suite} {policy : Policy} {now : UInt64} {parent b altered : Block}

theorem hashMatches_altered (hb : b.unsealed.Within UInt32.size)
    (haltered : altered.unsealed.Within UInt32.size) (hmatches : b.hashMatches s = true)
    (hhash : altered.hash = b.hash) (hne : altered.unsealed ≠ b.unsealed)
    (hfree : CollisionFree s fun x => x = b ∨ x = altered) : altered.hashMatches s = false := by
  rw [Bool.eq_false_iff]
  intro h
  rw [Block.hashMatches_iff] at h hmatches
  have hcontent : altered.contentHash s = b.contentHash s := by rw [h, hhash, hmatches]
  have hpreimage := hfree altered b (Or.inr rfl) (Or.inl rfl) hcontent
  exact hne ((Block.preimage_eq_iff haltered hb).mp hpreimage)

/-- **No accepted block can be altered under its hash.**  The hashed contents of blocks whose lists and
byte strings are shorter than `2 ^ 32` are equal exactly when all eight fields are that are hashed.  If an
accepted block is altered in any of them while its hash stays, and the two do not collide, then it is
rejected at every clock and under every policy, for its link where the parent's hash or the height was
altered and for its hash otherwise. -/
theorem validate_altered (s : Suite) :
    (∀ a b : Block, a.unsealed.Within UInt32.size → b.unsealed.Within UInt32.size →
      (a.preimage = b.preimage ↔
        a.previousHash = b.previousHash ∧ a.height = b.height ∧ a.difficulty = b.difficulty ∧
          a.timestamp = b.timestamp ∧ a.proof = b.proof ∧ a.producer = b.producer ∧
          a.changes = b.changes ∧ a.nodes = b.nodes)) ∧
    ∀ (policy : Policy) (now : UInt64) (parent b altered : Block),
      validate s policy now parent b = .ok () → b.unsealed.Within UInt32.size →
      altered.unsealed.Within UInt32.size → altered.hash = b.hash →
      altered.unsealed ≠ b.unsealed → (CollisionFree s fun x => x = b ∨ x = altered) →
      ∀ (otherPolicy : Policy) (later : UInt64),
        validate s otherPolicy later parent altered =
          if altered.previousHash ≠ b.previousHash ∨ altered.height ≠ b.height then
            .error (.linkMismatch parent.height altered.height)
          else .error .hashMismatch := by
  constructor
  · intro a b ha hb
    rw [Block.preimage_eq_iff ha hb, Block.unsealed_eq_iff]
  · intro policy now parent b altered haccept hb haltered hhash hne hfree otherPolicy later
    obtain ⟨hlink, hmatches, -⟩ := validate_eq_ok_iff.mp haccept
    by_cases hheader : altered.continues parent = true
    · obtain ⟨hprevious, hheight⟩ := (Block.continues_eq_iff hlink).mp hheader
      rw [if_neg (by rw [hprevious, hheight]; simp)]
      exact validate_of_not_hashMatches hheader
        (hashMatches_altered hb haltered hmatches hhash hne hfree)
    · have hmoved := mt (Block.continues_eq_iff hlink).mpr hheader
      rw [if_pos (not_and_or.mp hmoved)]
      exact validate_of_not_continues (Bool.eq_false_iff.mpr hheader)

namespace Sample

open Suite (small)

def restamped : Block := { second with timestamp := 102 }

def raised : Block := { second with height := 2 }

theorem rejected_altered :
    validate small .fixed 100 first second = .ok () ∧ restamped.hash = second.hash ∧
      raised.hash = second.hash ∧
      validate small .fixed 100 first restamped = .error .hashMismatch ∧
      validate small .fixed 100 first raised = .error (.linkMismatch 0 2) := by
  have hfree : ∀ x : Block, x.contentHash small ≠ second.contentHash small →
      CollisionFree small fun y => y = second ∨ y = x := by
    rintro x hne a b (rfl | rfl) (rfl | rfl) heq
    · rfl
    · exact absurd heq.symm hne
    · exact absurd heq hne
    · rfl
  have haltered := (validate_altered small).2 .fixed 100 first second
  refine ⟨validate_second, rfl, rfl, ?_, ?_⟩
  · have hkept : ¬ (restamped.previousHash ≠ second.previousHash ∨
        restamped.height ≠ second.height) := by decide +kernel
    rw [haltered restamped validate_second (by decide +kernel) (by decide +kernel) rfl
      (by decide +kernel) (hfree _ (by decide +kernel)) .fixed 100, if_neg hkept]
  · have hmoved : raised.previousHash ≠ second.previousHash ∨ raised.height ≠ second.height := by
      decide +kernel
    rw [haltered raised validate_second (by decide +kernel) (by decide +kernel) rfl
      (by decide +kernel) (hfree _ (by decide +kernel)) .fixed 100, if_pos hmoved]
    rfl

end Sample

end DelayLedger
