import DelayLedger.Ticket

/-!
# The order of tickets

`Ticket.order` lists the candidates strictly ascending by ticket and identity (`sorted_order`).  The
order is linear even where tickets collide, so every candidate is listed once (`nodup_order`) and
none is lost (`mem_order`, `length_order`).  No other list does that (`eq_order_iff`); in particular,
candidates that are in order stay as they are (`order_order`).  The draws are those of the listed
candidates, each with its place as rank (`draw_eq`).
-/

namespace DelayLedger.Ticket

variable (s : Suite)

/-- Whether one identity comes before another under a seed: by ticket, then by identity. -/
def precedes (seed x y : Bytes) : Bool :=
  drawLt (valueOf s seed x, x) (valueOf s seed y, y)

theorem isLinear_precedes (seed : Bytes) : Ascending.IsLinear (precedes s seed) where
  irrefl _ := isLinear_drawLt.irrefl _
  trans hxy hyz := isLinear_drawLt.trans hxy hyz
  eq_of_not_lt hxy hyx := congrArg Prod.snd (isLinear_drawLt.eq_of_not_lt hxy hyx)

theorem eq_of_mem_draws {seed : Bytes} {candidates : List Bytes} {d : Digest × Bytes}
    (hd : d ∈ draws s seed candidates) : d = (valueOf s seed d.2, d.2) := by
  obtain ⟨identity, -, rfl⟩ := List.mem_map.mp (isLinear_drawLt.mem_ofList.mp hd)
  rfl

/-- **Candidates are listed strictly ascending** by ticket and identity. -/
theorem sorted_order (seed : Bytes) (candidates : List Bytes) :
    Ascending.Sorted (precedes s seed) (order s seed candidates) := by
  have hsorted := isLinear_drawLt.sorted_ofList
    (candidates.map fun identity => (valueOf s seed identity, identity))
  refine List.pairwise_map.mpr (hsorted.imp_of_mem fun {d e} hd he hlt => ?_)
  rw [eq_of_mem_draws s hd, eq_of_mem_draws s he] at hlt
  exact hlt

theorem nodup_order (seed : Bytes) (candidates : List Bytes) :
    (order s seed candidates).Nodup :=
  (isLinear_precedes s seed).nodup_of_sorted (sorted_order s seed candidates)

theorem length_order {seed : Bytes} {candidates : List Bytes} (h : candidates.Nodup) :
    (order s seed candidates).length = candidates.length :=
  ((List.perm_ext_iff_of_nodup (nodup_order s seed candidates) h).mpr
    fun _ => mem_order s).length_eq

/-- **There is one way to list the candidates** strictly ascending by ticket and identity. -/
theorem eq_order_iff {seed : Bytes} {listed candidates : List Bytes} :
    listed = order s seed candidates ↔
      (∀ x, x ∈ listed ↔ x ∈ candidates) ∧ Ascending.Sorted (precedes s seed) listed := by
  constructor
  · rintro rfl
    exact ⟨fun _ => mem_order s, sorted_order s seed candidates⟩
  · rintro ⟨hmem, hsorted⟩
    refine (isLinear_precedes s seed).eq_of_mem_iff hsorted (sorted_order s seed candidates) ?_
    intro x
    rw [hmem, mem_order]

theorem order_order (seed : Bytes) (candidates : List Bytes) :
    order s seed (order s seed candidates) = order s seed candidates :=
  order_eq_of_mem_iff s fun _ => mem_order s

/-- **Each ticket tells its place** and the draw of its identity. -/
theorem draw_eq (seed : Bytes) (candidates : List Bytes) :
    draw s seed candidates = (order s seed candidates).mapIdx fun place identity =>
      ⟨identity, valueOf s seed identity, place % UInt32.size⟩ := by
  refine List.ext_getElem? fun place => ?_
  rw [draw, order, List.getElem?_mapIdx, List.getElem?_mapIdx, List.getElem?_map, Option.map_map]
  cases hd : (draws s seed candidates)[place]? with
  | none => rfl
  | some d =>
    have hvalue : d.1 = valueOf s seed d.2 :=
      congrArg Prod.fst (eq_of_mem_draws s (List.mem_of_getElem? hd))
    rw [Option.map_some, Option.map_some, Function.comp_apply, hvalue]

end DelayLedger.Ticket
