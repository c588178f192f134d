import Mathlib.Data.List.Induction
import DelayLedger.Membership.Queue

/-!
# What a queue holds

A queue is ascending by identity, so it holds one request of each identity at most
(`eq_of_identity_eq`).  A request that is put into it takes the place of its identity and leaves all
others where they are (`mem_put`); after many, each is there unless it was replaced
(`mem_foldl_offer_or_replaced`).  Settling takes away what a block records and what no later block may
record (`mem_settle`).  That a request may still be recorded by a block above a height is the same as
being fresh for some parent there (`isUsable_iff_exists_isFresh`), up to the greatest height there is.
-/

namespace DelayLedger.Queue

def Ascending (q : Queue) : Prop := q.Pairwise fun c d => Bytes.lt c.identity d.identity = true

/-- What every queue of a node is like: ascending by identity, and every request in it is signed by the
identity that it names. -/
structure Valid (s : Suite) (q : Queue) : Prop where
  ascending : q.Ascending
  signed : ∀ c ∈ q, c.isSigned s = true

theorem valid_nil (s : Suite) : Valid s [] := ⟨List.Pairwise.nil, List.forall_mem_nil _⟩

variable {s : Suite} {q : Queue} {c d : Change} {height : UInt64}

theorem ne_identity_of_lt (h : Bytes.lt c.identity d.identity = true) : d.identity ≠ c.identity := by
  intro heq
  rw [heq, Bytes.lt_irrefl] at h
  contradiction

/-- **An identity has one request in a queue at most.** -/
theorem Ascending.eq_of_identity_eq (h : q.Ascending) (hc : c ∈ q) (hd : d ∈ q)
    (hcd : c.identity = d.identity) : c = d := by
  induction q with
  | nil => exact absurd hc List.not_mem_nil
  | cons e q ih =>
    obtain ⟨hfirst, hrest⟩ := List.pairwise_cons.mp h
    rcases List.mem_cons.mp hc with rfl | hcq
    · rcases List.mem_cons.mp hd with rfl | hdq
      · rfl
      · exact absurd hcd.symm (ne_identity_of_lt (hfirst d hdq))
    · rcases List.mem_cons.mp hd with rfl | hdq
      · exact absurd hcd (ne_identity_of_lt (hfirst c hcq))
      · exact ih hrest hcq hdq

/-- Where a request comes to stand in a queue: before the first one, behind it, or in its place. -/
theorem put_cons_cases (c e : Change) (q : Queue) :
    Bytes.lt c.identity e.identity = true ∧ put c (e :: q) = c :: e :: q ∨
      Bytes.lt e.identity c.identity = true ∧ put c (e :: q) = e :: q.put c ∨
        c.identity = e.identity ∧ put c (e :: q) = c :: q := by
  rw [put]
  split
  · next hlt => exact Or.inl ⟨hlt, rfl⟩
  split
  · next hlt => exact Or.inr (Or.inl ⟨hlt, rfl⟩)
  · next hce hec =>
    have hsame := Bytes.eq_of_lt_eq_false (Bool.eq_false_iff.mpr hce) (Bool.eq_false_iff.mpr hec)
    exact Or.inr (Or.inr ⟨hsame, rfl⟩)

/-- **A request that is put into a queue** takes the place of its identity. -/
theorem mem_put (h : q.Ascending) : d ∈ q.put c ↔ d = c ∨ d ∈ q ∧ d.identity ≠ c.identity := by
  induction q with
  | nil => simp [put]
  | cons e q ih =>
    obtain ⟨hfirst, hrest⟩ := List.pairwise_cons.mp h
    rcases put_cons_cases c e q with ⟨hlt, hput⟩ | ⟨hlt, hput⟩ | ⟨hsame, hput⟩
    · -- all that is in the queue comes after the place of the request
      have hafter : ∀ x ∈ e :: q, x.identity ≠ c.identity := by
        intro x hx
        rcases List.mem_cons.mp hx with rfl | hx
        · exact ne_identity_of_lt hlt
        · exact ne_identity_of_lt (Bytes.lt_trans hlt (hfirst x hx))
      rw [hput, List.mem_cons]
      exact or_congr_right ⟨fun hd => ⟨hd, hafter d hd⟩, And.left⟩
    · have hne : e.identity ≠ c.identity := (ne_identity_of_lt hlt).symm
      rw [hput, List.mem_cons, ih hrest, List.mem_cons]
      constructor
      · rintro (rfl | rfl | ⟨hd, hdc⟩)
        · exact Or.inr ⟨Or.inl rfl, hne⟩
        · exact Or.inl rfl
        · exact Or.inr ⟨Or.inr hd, hdc⟩
      · rintro (rfl | ⟨rfl | hd, hdc⟩)
        · exact Or.inr (Or.inl rfl)
        · exact Or.inl rfl
        · exact Or.inr (Or.inr ⟨hd, hdc⟩)
    · have hafter : ∀ x ∈ q, x.identity ≠ c.identity := by
        intro x hx
        rw [hsame]
        exact ne_identity_of_lt (hfirst x hx)
      rw [hput, List.mem_cons, List.mem_cons]
      constructor
      · rintro (rfl | hd)
        · exact Or.inl rfl
        · exact Or.inr ⟨Or.inr hd, hafter d hd⟩
      · rintro (rfl | ⟨rfl | hd, hdc⟩)
        · exact Or.inl rfl
        · exact absurd hsame.symm hdc
        · exact Or.inr hd

theorem Ascending.put (h : q.Ascending) (c : Change) : (q.put c).Ascending := by
  induction q with
  | nil => exact List.pairwise_singleton _ _
  | cons e q ih =>
    obtain ⟨hfirst, hrest⟩ := List.pairwise_cons.mp h
    rcases put_cons_cases c e q with ⟨hlt, hput⟩ | ⟨hlt, hput⟩ | ⟨hsame, hput⟩
    · rw [hput]
      refine List.pairwise_cons.mpr ⟨fun x hx => ?_, h⟩
      rcases List.mem_cons.mp hx with rfl | hx
      · exact hlt
      · exact Bytes.lt_trans hlt (hfirst x hx)
    · rw [hput]
      refine List.pairwise_cons.mpr ⟨fun x hx => ?_, ih hrest⟩
      rcases (mem_put hrest).mp hx with rfl | ⟨hx, -⟩
      · exact hlt
      · exact hfirst x hx
    · rw [hput]
      refine List.pairwise_cons.mpr ⟨fun x hx => ?_, hrest⟩
      rw [hsame]
      exact hfirst x hx

/-! ### Requests one after another -/

def offer (s : Suite) (q : Queue) (c : Change) : Queue :=
  match q.request s c with
  | .ok q => q
  | .error _ => q

theorem offer_eq (s : Suite) (q : Queue) (c : Change) :
    q.offer s c = if c.isSigned s then q.put c else q := by
  rw [offer, request]
  cases c.isSigned s <;> rfl

theorem Valid.offer (h : q.Valid s) (c : Change) : (q.offer s c).Valid s := by
  rw [offer_eq]
  split
  · next hc =>
    refine ⟨h.ascending.put c, fun d hd => ?_⟩
    rcases (mem_put h.ascending).mp hd with rfl | ⟨hd, -⟩
    · exact hc
    · exact h.signed d hd
  · exact h

theorem Valid.foldl_offer (h : q.Valid s) (requests : List Change) :
    Valid s (requests.foldl (Queue.offer s) q) := by
  induction requests generalizing q with
  | nil => exact h
  | cons c requests ih => exact ih (h.offer c)

/-- After a request was last made, another one of the same identity was accepted. -/
def Replaced (s : Suite) (requests : List Change) (d : Change) : Prop :=
  ∃ earlier e later, requests = earlier ++ e :: later ∧ d ∉ e :: later ∧ e.isSigned s = true ∧
    e.identity = d.identity

/-- **No request that was accepted is lost** by those that come in after it, unless it is replaced. -/
theorem mem_foldl_offer_or_replaced (h : q.Valid s) {requests : List Change}
    (hd : d ∈ q ∨ d ∈ requests ∧ d.isSigned s = true) :
    d ∈ requests.foldl (offer s) q ∨ Replaced s requests d := by
  induction requests using List.reverseRecOn with
  | nil => exact Or.inl (hd.resolve_right fun hd => List.not_mem_nil hd.1)
  | append_singleton requests c ih =>
    have hsigned : d.isSigned s = true := hd.elim (h.signed d) And.right
    have hvalid := h.foldl_offer requests
    rw [List.foldl_append, List.foldl_cons, List.foldl_nil, offer_eq]
    by_cases hcd : c = d
    · left
      rw [hcd, if_pos hsigned, mem_put hvalid.ascending]
      exact Or.inl rfl
    · have hbefore : d ∈ q ∨ d ∈ requests ∧ d.isSigned s = true := by
        refine hd.imp_right fun hd => ⟨?_, hsigned⟩
        refine (List.mem_append.mp hd.1).resolve_right fun hmem => ?_
        exact hcd (List.mem_singleton.mp hmem).symm
      rcases ih hbefore with hmem | ⟨earlier, e, later, rfl, hnot, he, hidentity⟩
      · by_cases hc : c.isSigned s = true
        · by_cases hidentity : c.identity = d.identity
          · refine Or.inr ⟨requests, c, [], rfl, ?_, hc, hidentity⟩
            exact fun hmem => hcd (List.mem_singleton.mp hmem).symm
          · left
            rw [if_pos hc, mem_put hvalid.ascending]
            exact Or.inr ⟨hmem, fun heq => hidentity heq.symm⟩
        · left
          rw [if_neg hc]
          exact hmem
      · refine Or.inr ⟨earlier, e, later ++ [c], List.append_assoc .., ?_, he, hidentity⟩
        rw [← List.cons_append, List.mem_append, List.mem_singleton]
        exact not_or.mpr ⟨hnot, fun heq => hcd heq.symm⟩

/-! ### Settling -/

theorem mem_settle {recorded : List Change} :
    d ∈ q.settle recorded height ↔ d ∈ q ∧ d ∉ recorded ∧ isUsable height d = true := by
  rw [settle, List.mem_filter, List.mem_filter, decide_eq_true_eq, and_assoc]

theorem Valid.settle (h : q.Valid s) (recorded : List Change) (height : UInt64) :
    (q.settle recorded height).Valid s := by
  refine ⟨?_, fun d hd => h.signed d (mem_settle.mp hd).1⟩
  exact (h.ascending.filter _).filter _

/-- A request may be recorded above a height as long as the height is not more than `lifetime` above
the one it was made at.  That the sum stops at the greatest height makes no difference. -/
theorem isUsable_iff :
    isUsable height d = true ↔ height.toNat ≤ d.requestedAt.toNat + Change.lifetime := by
  have hheight : height.toNat ≤ maxWord := Nat.le_of_lt_succ height.toNat_lt
  rw [isUsable, decide_eq_true_eq, Nat.le_min]
  exact and_iff_left hheight

/-- **What stays in the queue may still be recorded**, and what goes may not: a request is usable above
a height exactly when it is fresh for some parent at the height or above. -/
theorem isUsable_iff_exists_isFresh :
    isUsable height d = true ↔ ∃ parent : UInt64, height ≤ parent ∧ d.isFresh parent = true := by
  have hlifetime : Change.lifetime = 64 := rfl
  simp only [isUsable_iff, Change.isFresh, Bool.and_eq_true, decide_eq_true_eq,
    UInt64.le_iff_toNat_le]
  constructor
  · intro h
    -- a request of a height to come is fresh for a parent at that height
    by_cases hle : d.requestedAt.toNat ≤ height.toNat
    · exact ⟨height, Nat.le_refl _, hle, by omega⟩
    · exact ⟨d.requestedAt, by omega, Nat.le_refl _, by omega⟩
  · rintro ⟨parent, hparent, hmade, hage⟩
    omega

end DelayLedger.Queue
