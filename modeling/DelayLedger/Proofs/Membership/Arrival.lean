import Mathlib.Data.List.Perm.Basic
import DelayLedger.Proofs.Chain.Reachable
import DelayLedger.Proofs.Membership.Queue

/-!
# The order of arrival

What a queue holds of an identity after some requests is read off by `ofIdentity?`.  Of the signed
requests that an identity made, the queue holds the one that arrived last (`ofIdentity?_foldl_offer`),
whatever heights they were made at.  So it holds the newest one when that one happens to arrive last, and
in every order of arrival only if there is no older one (`last_arrival_held`).  A request that somebody
hands in a second time takes the place of a newer one (`Sample.older_displaces_newer`).
-/

namespace DelayLedger

namespace Queue

variable {s : Suite} {q : Queue} {c d : Change} {requests : List Change} {identity : Bytes}

/-! ### The request of an identity -/

def ofIdentity? (q : Queue) (identity : Bytes) : Option Change := q.find? (·.identity == identity)

theorem Ascending.ofIdentity?_eq_some_iff (h : q.Ascending) :
    q.ofIdentity? identity = some c ↔ c ∈ q ∧ c.identity = identity := by
  have hfound : ∀ {d}, q.ofIdentity? identity = some d → d ∈ q ∧ d.identity = identity := by
    intro d hd
    have hsame := List.find?_some hd
    exact ⟨List.mem_of_find?_eq_some hd, beq_iff_eq.mp hsame⟩
  refine ⟨hfound, fun ⟨hc, hidentity⟩ => ?_⟩
  cases hd : q.ofIdentity? identity with
  | none => exact absurd (beq_iff_eq.mpr hidentity) (List.find?_eq_none.mp hd c hc)
  | some d =>
    obtain ⟨hmem, hsame⟩ := hfound hd
    rw [h.eq_of_identity_eq hmem hc (hsame.trans hidentity.symm)]

theorem Ascending.nodup (h : q.Ascending) : q.Nodup := by
  refine List.Pairwise.imp (fun hlt heq => ?_) h
  exact ne_identity_of_lt hlt (congrArg Change.identity heq).symm

/-- **Queues that hold the same of every identity are the same.** -/
theorem Ascending.eq_of_ofIdentity?_eq {p : Queue} (hp : p.Ascending) (hq : q.Ascending)
    (h : ∀ identity, p.ofIdentity? identity = q.ofIdentity? identity) : p = q := by
  have hmem : ∀ c, c ∈ p ↔ c ∈ q := by
    intro c
    have hheld := h c.identity
    constructor
    · intro hc
      exact (hq.ofIdentity?_eq_some_iff.mp
        (hheld ▸ hp.ofIdentity?_eq_some_iff.mpr ⟨hc, rfl⟩)).1
    · intro hc
      exact (hp.ofIdentity?_eq_some_iff.mp
        (hheld ▸ hq.ofIdentity?_eq_some_iff.mpr ⟨hc, rfl⟩)).1
  have hperm : p.Perm q := (List.perm_ext_iff_of_nodup hp.nodup hq.nodup).mpr hmem
  refine List.Perm.eq_of_pairwise (fun c d _ _ hcd hdc => ?_) hp hq hperm
  exact absurd (Bytes.lt_trans hcd hdc) (by rw [Bytes.lt_irrefl]; exact Bool.false_ne_true)

theorem ofIdentity?_put (h : q.Ascending) (c : Change) (identity : Bytes) :
    (q.put c).ofIdentity? identity =
      if c.identity = identity then some c else q.ofIdentity? identity := by
  apply Option.ext
  intro d
  rw [(h.put c).ofIdentity?_eq_some_iff, mem_put h]
  split
  · next hc =>
    subst hc
    rw [Option.some.injEq]
    constructor
    · rintro ⟨rfl | ⟨-, hne⟩, hd⟩
      · rfl
      · exact absurd hd hne
    · rintro rfl
      exact ⟨Or.inl rfl, rfl⟩
  · next hc =>
    rw [h.ofIdentity?_eq_some_iff]
    constructor
    · rintro ⟨rfl | ⟨hd, -⟩, hidentity⟩
      · exact absurd hidentity hc
      · exact ⟨hd, hidentity⟩
    · rintro ⟨hd, rfl⟩
      exact ⟨Or.inr ⟨hd, Ne.symm hc⟩, rfl⟩

/-! ### The request that arrived last -/

def isAcceptedOf (s : Suite) (identity : Bytes) (c : Change) : Bool :=
  c.isSigned s && c.identity == identity

theorem isAcceptedOf_iff :
    isAcceptedOf s identity c = true ↔ c.isSigned s = true ∧ c.identity = identity := by
  rw [isAcceptedOf, Bool.and_eq_true, beq_iff_eq]

/-- The last one to arrive of the requests of an identity that are accepted. -/
def lastAccepted (s : Suite) (requests : List Change) (identity : Bytes) : Option Change :=
  requests.reverse.find? (isAcceptedOf s identity)

theorem mem_of_lastAccepted (h : lastAccepted s requests identity = some c) :
    c ∈ requests ∧ c.isSigned s = true ∧ c.identity = identity :=
  ⟨List.mem_reverse.mp (List.mem_of_find?_eq_some h), isAcceptedOf_iff.mp (List.find?_some h)⟩

theorem exists_lastAccepted (hc : c ∈ requests) (hsigned : c.isSigned s = true) :
    ∃ d, lastAccepted s requests c.identity = some d := by
  rw [← Option.isSome_iff_exists, lastAccepted, List.find?_isSome]
  exact ⟨c, List.mem_reverse.mpr hc, isAcceptedOf_iff.mpr ⟨hsigned, rfl⟩⟩

theorem exists_lastAccepted_of_subset {order : List Change} (hsub : requests ⊆ order)
    (h : lastAccepted s requests identity = some c) :
    ∃ d, lastAccepted s order identity = some d := by
  obtain ⟨hc, hsigned, hidentity⟩ := mem_of_lastAccepted h
  exact hidentity ▸ exists_lastAccepted (hsub hc) hsigned

theorem lastAccepted_concat (s : Suite) (requests : List Change) (c : Change) (identity : Bytes) :
    lastAccepted s (requests ++ [c]) identity =
      if isAcceptedOf s identity c then some c else lastAccepted s requests identity := by
  rw [lastAccepted, List.reverse_concat, List.find?_cons]
  cases isAcceptedOf s identity c with
  | true => rfl
  | false => rfl

theorem ofIdentity?_offer (h : q.Ascending) (c : Change) (identity : Bytes) :
    (q.offer s c).ofIdentity? identity =
      if isAcceptedOf s identity c then some c else q.ofIdentity? identity := by
  rw [offer_eq, isAcceptedOf]
  cases c.isSigned s with
  | false => rfl
  | true =>
    rw [if_pos rfl, ofIdentity?_put h, Bool.true_and]
    simp only [beq_iff_eq]

/-- **The last one wins.**  After some requests a queue holds of each identity the one that arrived last,
and what it held before if there was none. -/
theorem ofIdentity?_foldl_offer (h : q.Valid s) (requests : List Change) (identity : Bytes) :
    (requests.foldl (offer s) q).ofIdentity? identity =
      (lastAccepted s requests identity).or (q.ofIdentity? identity) := by
  induction requests using List.reverseRecOn with
  | nil => rfl
  | append_singleton requests c ih =>
    rw [List.foldl_append, List.foldl_cons, List.foldl_nil,
      ofIdentity?_offer (h.foldl_offer requests).ascending, lastAccepted_concat, ih]
    split <;> rfl

/-! ### The newest request -/

/-- A queue holds the newest request of each identity: of every request that is accepted, it holds one of
the same identity that was made no earlier. -/
def HoldsNewest (s : Suite) (requests : List Change) (q : Queue) : Prop :=
  ∀ c ∈ requests, c.isSigned s = true →
    ∃ d ∈ requests, q.ofIdentity? c.identity = some d ∧ c.requestedAt ≤ d.requestedAt

/-- **The newest request is held exactly when it arrives last**, for each identity. -/
theorem holdsNewest_foldl_offer_iff (h : q.Valid s) (requests : List Change) :
    HoldsNewest s requests (requests.foldl (offer s) q) ↔
      ∀ c ∈ requests, c.isSigned s = true →
        ∀ d, lastAccepted s requests c.identity = some d → c.requestedAt ≤ d.requestedAt := by
  have hheld : ∀ {i d}, lastAccepted s requests i = some d →
      (requests.foldl (offer s) q).ofIdentity? i = some d := by
    intro i d hd
    rw [ofIdentity?_foldl_offer h, hd, Option.some_or]
  constructor
  · intro hnewest c hc hsigned d hd
    obtain ⟨e, -, he, hle⟩ := hnewest c hc hsigned
    rw [hheld hd, Option.some.injEq] at he
    exact he ▸ hle
  · intro hlast c hc hsigned
    obtain ⟨d, hd⟩ := exists_lastAccepted hc hsigned
    exact ⟨d, (mem_of_lastAccepted hd).1, hheld hd, hlast c hc hsigned d hd⟩

theorem exists_perm_lastAccepted (hc : c ∈ requests) (hsigned : c.isSigned s = true) :
    ∃ order, order.Perm requests ∧ lastAccepted s order c.identity = some c := by
  refine ⟨requests.erase c ++ [c], ?_, ?_⟩
  · exact (List.perm_append_singleton c _).trans (List.perm_cons_erase hc).symm
  · rw [lastAccepted_concat, if_pos (isAcceptedOf_iff.mpr ⟨hsigned, rfl⟩)]

/-- **The newest request is held in every order of arrival** only if no identity made requests at
different heights. -/
theorem holdsNewest_every_order_iff (h : q.Valid s) (requests : List Change) :
    (∀ order, order.Perm requests → HoldsNewest s order (order.foldl (offer s) q)) ↔
      ∀ c ∈ requests, ∀ d ∈ requests, c.isSigned s = true → d.isSigned s = true →
        c.identity = d.identity → c.requestedAt = d.requestedAt := by
  constructor
  · intro hevery
    -- each of the two can be the one that arrives last
    have hle : ∀ c ∈ requests, ∀ d ∈ requests, c.isSigned s = true → d.isSigned s = true →
        c.identity = d.identity → c.requestedAt ≤ d.requestedAt := by
      intro c hc d hd hcsigned hdsigned hidentity
      obtain ⟨order, hperm, hlast⟩ := exists_perm_lastAccepted hd hdsigned
      have hnewest := (holdsNewest_foldl_offer_iff h order).mp (hevery order hperm)
      exact hnewest c (hperm.mem_iff.mpr hc) hcsigned d (hidentity ▸ hlast)
    intro c hc d hd hcsigned hdsigned hidentity
    exact UInt64.le_antisymm (hle c hc d hd hcsigned hdsigned hidentity)
      (hle d hd c hc hdsigned hcsigned hidentity.symm)
  · intro hsame order hperm
    rw [holdsNewest_foldl_offer_iff h]
    intro c hc hsigned d hd
    obtain ⟨hmem, hdsigned, hidentity⟩ := mem_of_lastAccepted hd
    rw [hsame c (hperm.mem_iff.mp hc) d (hperm.mem_iff.mp hmem) hsigned hdsigned hidentity.symm]
    exact UInt64.le_refl _

/-- **Two orders of arrival** leave the same queue exactly when the same request arrives last for every
identity. -/
theorem foldl_offer_eq_iff (h : q.Valid s) {order : List Change} (hperm : order.Perm requests) :
    order.foldl (offer s) q = requests.foldl (offer s) q ↔
      ∀ identity, lastAccepted s order identity = lastAccepted s requests identity := by
  constructor
  · intro heq identity
    have hheld := congrArg (ofIdentity? · identity) heq
    simp only [ofIdentity?_foldl_offer h] at hheld
    cases hlast : lastAccepted s requests identity with
    | none =>
      cases hother : lastAccepted s order identity with
      | none => rfl
      | some d =>
        obtain ⟨e, he⟩ := exists_lastAccepted_of_subset hperm.subset hother
        exact absurd (he.symm.trans hlast) nofun
    | some d =>
      obtain ⟨e, he⟩ := exists_lastAccepted_of_subset hperm.symm.subset hlast
      rw [he, hlast, Option.some_or, Option.some_or] at hheld
      rw [he, hheld]
  · intro hlast
    refine (h.foldl_offer order).ascending.eq_of_ofIdentity?_eq (h.foldl_offer requests).ascending ?_
    intro identity
    rw [ofIdentity?_foldl_offer h, ofIdentity?_foldl_offer h, hlast]

/-- **The request that arrived last is held**, whenever it was made.  After some requests a queue holds of
each identity the accepted one that arrived last, and otherwise what it held before; one more request
takes the place of its identity, even if it was made earlier than the one that is held.  So the newest one
is held exactly when it arrives last, and in every order of arrival only if no identity made requests at
different heights; two orders leave the same queue exactly when the same request arrives last in both. -/
theorem last_arrival_held (h : q.Valid s) (requests : List Change) :
    (∀ identity, (requests.foldl (offer s) q).ofIdentity? identity =
      (lastAccepted s requests identity).or (q.ofIdentity? identity)) ∧
    (∀ c : Change, c.isSigned s = true →
      ((requests.foldl (offer s) q).offer s c).ofIdentity? c.identity = some c) ∧
    (HoldsNewest s requests (requests.foldl (offer s) q) ↔
      ∀ c ∈ requests, c.isSigned s = true →
        ∀ d, lastAccepted s requests c.identity = some d → c.requestedAt ≤ d.requestedAt) ∧
    ((∀ order, order.Perm requests → HoldsNewest s order (order.foldl (offer s) q)) ↔
      ∀ c ∈ requests, ∀ d ∈ requests, c.isSigned s = true → d.isSigned s = true →
        c.identity = d.identity → c.requestedAt = d.requestedAt) ∧
    ∀ order, order.Perm requests →
      (order.foldl (offer s) q = requests.foldl (offer s) q ↔
        ∀ identity, lastAccepted s order identity = lastAccepted s requests identity) := by
  refine ⟨ofIdentity?_foldl_offer h requests, ?_, holdsNewest_foldl_offer_iff h requests,
    holdsNewest_every_order_iff h requests, fun order => foldl_offer_eq_iff h⟩
  intro c hsigned
  rw [ofIdentity?_offer (h.foldl_offer requests).ascending,
    if_pos (isAcceptedOf_iff.mpr ⟨hsigned, rfl⟩)]

end Queue

/-! ### A request that is handed in again -/

namespace Sample

open Suite (small)

def early : Change := Change.signed small joiner .join 0

def late : Change := Change.signed small joiner .leave 1

theorem early_held :
    Queue.Valid small [] ∧ late.isSigned small = true ∧ early.isSigned small = true ∧
      Queue.ofIdentity? ([late].foldl (Queue.offer small) []) joiner.publicKey = some late ∧
      Queue.ofIdentity? ([late, early].foldl (Queue.offer small) []) joiner.publicKey =
        some early := by
  have hheld := Queue.last_arrival_held (Queue.valid_nil small)
  refine ⟨Queue.valid_nil small, by decide +kernel, by decide +kernel, ?_, ?_⟩
  · rw [(hheld [late]).1]
    decide +kernel
  · exact (hheld [late]).2.1 early (by decide +kernel)

/-- **An older request displaces a newer one** that is pending.  The newer one, to leave, is lost when
the older one comes again; in the other order it stays. -/
theorem older_displaces_newer :
    early.requestedAt < late.requestedAt ∧
      [early, late].foldl (Queue.offer small) [] = [late] ∧
      [late, early].foldl (Queue.offer small) [] = [early] ∧
      ¬ ∀ (s : Suite) (requests order : List Change), (∀ c ∈ requests, c.isSigned s = true) →
        order.Perm requests → Queue.HoldsNewest s requests (order.foldl (Queue.offer s) []) := by
  have hsigned : ∀ c ∈ [late, early], c.isSigned small = true := by decide +kernel
  have holder : early.requestedAt < late.requestedAt := by decide +kernel
  refine ⟨holder, by decide +kernel, by decide +kernel, fun hclaim => ?_⟩
  obtain ⟨held, -, hheld, hle⟩ := hclaim small [late, early] [late, early] hsigned
    (List.Perm.refl _) late List.mem_cons_self (by decide +kernel)
  have hearly : Queue.ofIdentity? ([late, early].foldl (Queue.offer small) []) late.identity =
      some early := by decide +kernel
  rw [hearly, Option.some.injEq] at hheld
  exact UInt64.not_lt.mpr hle (hheld ▸ holder)

end Sample

end DelayLedger
