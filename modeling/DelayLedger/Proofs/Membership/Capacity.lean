import DelayLedger.Proofs.Membership.Rule

/-!
# Capacity and the order of changes

Whether changes may be recorded does not depend on the order in which they are listed, with one
exception: a join is refused where the set is full, also if a change that is listed later makes room for
it.  Listed with the leaves in front, changes are accepted exactly when they are recordable and the set
that they lead to is not too large.

* `joinsFit_of_leavesFirst`: with the leaves in front every join finds room, if the set does in the end.
* `order_decides_room_only`: what the order decides on.
* `Sample.order_decides`: changes that are accepted in one order and refused in the other.
-/

namespace DelayLedger

namespace Membership

def LeavesFirst (changes : List Change) : Prop :=
  changes.Pairwise fun c d => c.action = .join → d.action = .join

variable {s : Suite} {parent : Block} {producer seed : Bytes} {nodes : List Bytes}
  {changes listed : List Change}

def leavesThenJoins (changes : List Change) : List Change :=
  changes.filter (·.action = .leave) ++ changes.filter (·.action = .join)

theorem leavesThenJoins_perm (changes : List Change) : (leavesThenJoins changes).Perm changes := by
  have hjoin : (fun c : Change => decide (c.action = .join)) =
      fun c => !decide (c.action = .leave) := by
    funext c
    cases c.action <;> rfl
  rw [leavesThenJoins, hjoin]
  exact List.filter_append_perm _ changes

theorem leavesFirst_leavesThenJoins (changes : List Change) :
    LeavesFirst (leavesThenJoins changes) := by
  have hleave : ∀ c ∈ changes.filter (·.action = .leave), c.action ≠ .join := by
    intro c hc hjoin
    have hact : c.action = .leave := of_decide_eq_true (List.mem_filter.mp hc).2
    rw [hjoin] at hact
    contradiction
  have hjoin : ∀ c ∈ changes.filter (·.action = .join), c.action = .join :=
    fun c hc => of_decide_eq_true (List.mem_filter.mp hc).2
  refine List.pairwise_append.mpr ⟨?_, ?_, ?_⟩
  · exact List.pairwise_of_forall_mem_list fun c hc _ _ hact => absurd hact (hleave c hc)
  · exact List.pairwise_of_forall_mem_list fun _ _ d hd _ => hjoin d hd
  · exact fun c hc _ _ hact => absurd hact (hleave c hc)

/-! ### Where joins find room -/

theorem joining_append_subset (before after : List Change) :
    joining before ⊆ joining (before ++ after) := by
  intro x hx
  obtain ⟨c, hc, hrest⟩ := mem_joining.mp hx
  exact mem_joining.mpr ⟨c, List.mem_append_left after hc, hrest⟩

/-- **With the leaves in front every join finds room**, if the set that the changes lead to is not too
large: what is listed after a join only adds to the set. -/
theorem joinsFit_of_leavesFirst (hfirst : LeavesFirst changes)
    (hroom : (successors nodes changes producer).card ≤ 1000) : JoinsFit nodes producer changes := by
  intro before c after heq hjoin
  have hsplit : changes = (before ++ [c]) ++ after := by rw [heq, List.append_cons]
  have hafter : ∀ d ∈ after, d.action = .join := by
    intro d hd
    rw [LeavesFirst, heq, List.pairwise_append, List.pairwise_cons] at hfirst
    exact hfirst.2.1.1 d hd hjoin
  refine le_trans (Finset.card_le_card fun x hx => ?_) hroom
  rw [mem_successors] at hx ⊢
  refine hx.imp_right fun ⟨hin, hstays⟩ => ⟨hin.imp_right fun hx => ?_, fun hleaving => hstays ?_⟩
  · rw [hsplit]
    exact joining_append_subset _ after hx
  · obtain ⟨d, hd, hleave, hidentity⟩ := mem_leaving.mp hleaving
    rw [hsplit, List.mem_append] at hd
    rcases hd with hd | hd
    · exact mem_leaving.mpr ⟨d, hd, hleave, hidentity⟩
    · rw [hafter d hd] at hleave
      contradiction

theorem successors_subset (nodes : List Bytes) (changes : List Change) (producer : Bytes) :
    successors nodes changes producer ⊆ insert producer (nodes.toFinset ∪ joining changes) :=
  Finset.insert_subset_insert _ Finset.sdiff_subset

/-- **Where everybody fits at once every join finds room.** -/
theorem joinsFit_of_card_le
    (hroom : (insert producer (nodes.toFinset ∪ joining changes)).card ≤ 1000) :
    JoinsFit nodes producer changes := by
  intro before c after heq _
  have hsplit : changes = (before ++ [c]) ++ after := by rw [heq, List.append_cons]
  refine le_trans (Finset.card_le_card ?_) hroom
  refine (successors_subset nodes _ producer).trans (Finset.insert_subset_insert _ ?_)
  rw [hsplit]
  exact Finset.union_subset_union_right (joining_append_subset _ after)

/-! ### What the order decides on -/

/-- **The order in which changes are listed decides on room only.**  However they are listed, changes
are accepted when they are recordable, the set that they lead to is not too large, and each join finds
room where it stands; what is recordable and leads to such a set is refused for want of room only.  With
the leaves in front there always is room for the joins, so some order is accepted exactly when the
changes are recordable and the set is not too large; and where the parent's set, all who join and the
producer fit at once, every order is. -/
theorem order_decides_room_only (s : Suite) (parent : Block) (producer seed : Bytes)
    (changes : List Change) :
    let allowed := Recordable s parent producer changes ∧
      (successors parent.nodes changes producer).card ≤ 1000
    let accepted := fun listed => ∃ nodes, next s parent producer listed seed = .ok nodes
    (∀ listed, listed.Perm changes →
      (accepted listed ↔ allowed ∧ JoinsFit parent.nodes producer listed) ∧
        (allowed → ∀ e, next s parent producer listed seed = .error e → e = .setFull) ∧
        (LeavesFirst listed → (accepted listed ↔ allowed)) ∧
        ((insert producer (parent.nodes.toFinset ∪ joining changes)).card ≤ 1000 →
          (accepted listed ↔ allowed))) ∧
      ((∃ listed, listed.Perm changes ∧ accepted listed) ↔ allowed) := by
  intro allowed accepted
  have haccepted : ∀ listed, listed.Perm changes →
      (accepted listed ↔ allowed ∧ JoinsFit parent.nodes producer listed) := by
    intro listed hperm
    show (∃ nodes, _) ↔ (_ ∧ _) ∧ _
    rw [exists_next_iff, recordable_perm_iff hperm, successors_perm hperm, and_assoc,
      and_comm (a := JoinsFit parent.nodes producer listed)]
  have hfirst : ∀ listed, listed.Perm changes → LeavesFirst listed →
      (accepted listed ↔ allowed) := by
    intro listed hperm hleaves
    rw [haccepted listed hperm, and_iff_left_iff_imp]
    rintro ⟨-, hroom⟩
    rw [← successors_perm hperm] at hroom
    exact joinsFit_of_leavesFirst hleaves hroom
  refine ⟨fun listed hperm => ⟨haccepted listed hperm, ?_, hfirst listed hperm, ?_⟩, ?_⟩
  · rintro ⟨hrecordable, -⟩ e herror
    rcases next_of_recordable seed (hrecordable.perm hperm) with ⟨-, -, nodes, hok⟩ | ⟨-, hfull⟩
    · rw [herror] at hok
      contradiction
    · rw [herror] at hfull
      exact Except.error.inj hfull
  · intro hroom
    rw [haccepted listed hperm, and_iff_left_iff_imp]
    rw [← joining_perm hperm] at hroom
    exact fun _ => joinsFit_of_card_le hroom
  · constructor
    · rintro ⟨listed, hperm, hok⟩
      exact ((haccepted listed hperm).mp hok).1
    · intro hallowed
      have hperm := leavesThenJoins_perm changes
      exact ⟨_, hperm, (hfirst _ hperm (leavesFirst_leavesThenJoins changes)).mpr hallowed⟩

end Membership

/-! ### A set that is full -/

namespace Sample

open Suite (small)

def strangers : List Bytes := (List.range 998).map fun n => List.replicate (n + 2) 0

/-- A first block with as many nodes as a set can have. -/
def crowded : Block :=
  { first with nodes := maker.publicKey :: leaver.publicKey :: strangers }.sealWith small maker

def leaves : Change := Change.signed small leaver .leave 0

def joins : Change := Change.signed small joiner .join 0

theorem nodes_crowded : crowded.nodes = maker.publicKey :: leaver.publicKey :: strangers := rfl

theorem not_mem_strangers {key : Bytes} (h : key.length = 1) : key ∉ strangers := by
  intro hmem
  obtain ⟨n, -, heq⟩ := List.mem_map.mp hmem
  rw [← heq, List.length_replicate] at h
  omega

theorem nodup_crowded : crowded.nodes.Nodup := by
  have hstrangers : strangers.Nodup := by
    refine List.Nodup.map_on (fun n _ m _ heq => ?_) List.nodup_range
    have hlength := congrArg List.length heq
    rw [List.length_replicate, List.length_replicate] at hlength
    omega
  rw [nodes_crowded, List.nodup_cons, List.nodup_cons, List.mem_cons]
  have hkeys : maker.publicKey ≠ leaver.publicKey := by decide
  exact ⟨fun hmem => hmem.elim hkeys (not_mem_strangers rfl), not_mem_strangers rfl, hstrangers⟩

theorem card_crowded : crowded.nodes.toFinset.card = 1000 := by
  rw [List.toFinset_card_of_nodup nodup_crowded, nodes_crowded, List.length_cons, List.length_cons,
    strangers, List.length_map, List.length_range]

theorem joiner_not_mem_crowded : joiner.publicKey ∉ crowded.nodes := by
  have hmaker : joiner.publicKey ≠ maker.publicKey := by decide
  have hleaver : joiner.publicKey ≠ leaver.publicKey := by decide
  rw [nodes_crowded, List.mem_cons, List.mem_cons, not_or, not_or]
  exact ⟨hmaker, hleaver, not_mem_strangers rfl⟩

theorem checkGenesis_crowded : checkGenesis small crowded = .ok () :=
  checkGenesis_eq_ok_iff.mpr ⟨rfl, rfl, by decide, Block.hashMatches_sealWith small _ maker,
    Block.isSigned_sealWith rfl (Suite.small_verify_sign [1])⟩

theorem recordable_crowded : Membership.Recordable small crowded maker.publicKey [leaves, joins] where
  length_le := by decide
  nodup := by decide
  fresh := by
    intro c hc
    have hrequested : c.requestedAt = 0 := by
      rcases List.mem_pair.mp hc with rfl | rfl <;> rfl
    rw [hrequested]
    decide
  signed := by
    intro c hc
    rcases List.mem_pair.mp hc with rfl | rfl
    · exact Suite.small_verify_sign [2] _
    · exact Suite.small_verify_sign [3] _
  join_not_mem := by
    intro c hc hjoin
    rcases List.mem_pair.mp hc with rfl | rfl
    · contradiction
    · exact joiner_not_mem_crowded
  leave_mem := by
    intro c hc hleave
    rcases List.mem_pair.mp hc with rfl | rfl
    · exact List.mem_cons_of_mem _ List.mem_cons_self
    · contradiction
  leave_ne := by
    intro c hc hleave
    rcases List.mem_pair.mp hc with rfl | rfl
    · decide
    · contradiction

theorem leavesFirst_crowded : Membership.LeavesFirst [leaves, joins] := by
  refine List.pairwise_pair.mpr fun hjoin => ?_
  exact nomatch hjoin

theorem card_successors_crowded :
    (Membership.successors crowded.nodes [leaves, joins] maker.publicKey).card ≤ 1000 := by
  have hmaker : maker.publicKey ∈ crowded.nodes := List.mem_cons_self
  have hleaver : leaver.publicKey ∈ crowded.nodes := List.mem_cons_of_mem _ List.mem_cons_self
  have hsubset : Membership.successors crowded.nodes [leaves, joins] maker.publicKey ⊆
      insert joiner.publicKey (crowded.nodes.toFinset.erase leaver.publicKey) := by
    intro x hx
    rw [Membership.mem_successors, Membership.mem_joining, Membership.mem_leaving] at hx
    rw [Finset.mem_insert, Finset.mem_erase, List.mem_toFinset]
    rcases hx with rfl | ⟨hin | ⟨c, hc, hjoin, rfl⟩, hstays⟩
    · exact Or.inr ⟨by decide, hmaker⟩
    · exact Or.inr ⟨fun heq => hstays ⟨leaves, List.mem_cons_self, rfl, heq.symm⟩, hin⟩
    · rcases List.mem_pair.mp hc with rfl | rfl
      · exact nomatch hjoin
      · exact Or.inl rfl
  have hcard := Finset.card_le_card hsubset
  have hinsert := Finset.card_insert_le joiner.publicKey
    (crowded.nodes.toFinset.erase leaver.publicKey)
  rw [Finset.card_erase_of_mem (List.mem_toFinset.mpr hleaver), card_crowded] at hinsert
  omega

theorem accepted_crowded :
    [leaves, joins].Perm [joins, leaves] ∧ Membership.LeavesFirst [leaves, joins] ∧
      ∃ nodes, Membership.next small crowded maker.publicKey [leaves, joins] [] = .ok nodes := by
  have hperm : [leaves, joins].Perm [joins, leaves] := List.Perm.swap _ _ _
  have hcard := card_successors_crowded
  rw [Membership.successors_perm hperm] at hcard
  have hlisted := (Membership.order_decides_room_only small crowded maker.publicKey []
    [joins, leaves]).1 _ hperm
  exact ⟨hperm, leavesFirst_crowded,
    (hlisted.2.2.1 leavesFirst_crowded).mpr ⟨recordable_crowded.perm hperm.symm, hcard⟩⟩

theorem not_joinsFit_crowded :
    ¬ Membership.JoinsFit crowded.nodes maker.publicKey [joins, leaves] := by
  intro hfit
  have hroom := hfit [] joins [leaves] rfl rfl
  have hout : joins.identity ∉ Membership.members crowded :=
    mt Membership.mem_members.mp joiner_not_mem_crowded
  rw [List.nil_append, ← Membership.successors_members,
    Membership.card_successors_join (Membership.sorted_members crowded) rfl hout,
    Membership.length_eq_card (Membership.sorted_members crowded), Membership.toFinset_members,
    card_crowded] at hroom
  omega

/-- **Two orders of the same changes, of which one is accepted.**  The set of the first block of a chain
is full; one node leaves and another joins.  The set that results is not too large, yet the join is
refused when it is listed first. -/
theorem order_decides :
    checkGenesis small crowded = .ok () ∧ ([leaves, joins].map (·.identity)).Nodup ∧
      [joins, leaves].Perm [leaves, joins] ∧
      (Membership.successors crowded.nodes [joins, leaves] maker.publicKey).card ≤ 1000 ∧
      (∃ nodes, Membership.next small crowded maker.publicKey [leaves, joins] [] = .ok nodes) ∧
      Membership.next small crowded maker.publicKey [joins, leaves] [] = .error .setFull := by
  have hperm : [joins, leaves].Perm [leaves, joins] := List.Perm.swap _ _ _
  have hfit := Membership.joinsFit_of_leavesFirst leavesFirst_crowded card_successors_crowded
  refine ⟨checkGenesis_crowded, recordable_crowded.nodup, hperm, ?_, ?_, ?_⟩
  · rw [Membership.successors_perm hperm]
    exact card_successors_crowded
  · exact Membership.exists_next_iff.mpr ⟨recordable_crowded, hfit, card_successors_crowded⟩
  · rcases Membership.next_of_recordable [] (recordable_crowded.perm hperm) with ⟨hjoins, -⟩ | ⟨-, hfull⟩
    · exact absurd hjoins not_joinsFit_crowded
    · exact hfull

end Sample

end DelayLedger
