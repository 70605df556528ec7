import Allotment.Proofs.Plan.Share

/-!
# The outcome of a share

Whatever a share does to an item, dense slots stay dense (`dense_outcome`), nobody but the member itself
gains a replica (`countP_outcome_le`), and nobody a second one (`nodup_holders_outcome`).  The member lets
an existing item go only if enough others hold it consistently, before and after (`replaced_of_let_go`).
-/

namespace Allotment

namespace Viewpoint

variable {v : Viewpoint} {repairs : Nat} {item : Entry Item} {rs : List Replica} {p : Placement}

/-! ### Slots after a share -/

/-- The slots of the outcome, but for a claim, are the new ones and those of the resting replicas. -/
theorem slots_settled_perm (v : Viewpoint) (repairs : Nat) (item : Entry Item) (p : Placement)
    (hrs : rs.Nodup) :
    (((v.spared repairs item rs p).map (v.settled repairs item rs p)).map (·.slot)).Perm
      ((v.resting repairs item rs p).map (·.slot) ++ (v.moving repairs item rs p).map (·.2)) := by
  refine ((map_settled_perm hrs).map _).trans ?_
  rw [List.map_append, List.map_map, List.map_map]
  have hmoved : (v.moving repairs item rs p).map ((·.slot) ∘ v.moved (v.pending item p)) =
      (v.moving repairs item rs p).map (·.2) := rfl
  have hrest : (v.resting repairs item rs p).map ((·.slot) ∘ fun r =>
      if v.flagging repairs item rs p = some r then r.flagged else r) =
      (v.resting repairs item rs p).map (·.slot) := by
    refine List.map_congr_left fun r _ => ?_
    rw [Function.comp_apply]
    split <;> rfl
  rw [hmoved, hrest]
  exact List.perm_append_comm

/-- If everything is packed, then the resting replicas are those that packing leaves alone. -/
theorem resting_perm_settlers (hrs : rs.Nodup)
    (h : v.moving repairs item rs p = renumbering (v.spared repairs item rs p)) :
    (v.resting repairs item rs p).Perm
      (Packing.settlers (v.spared repairs item rs p).length [] (v.spared repairs item rs p)) := by
  have hperm := spared_perm v repairs item p hrs
  have hall := Packing.movers_append_settlers_perm (v.spared repairs item rs p).length []
    (v.spared repairs item rs p)
  have hmovers : ((v.moving repairs item rs p).map (·.1)).Perm
      (Packing.movers (v.spared repairs item rs p).length [] (v.spared repairs item rs p)) := by
    rw [h, map_fst_renumbering]
    exact List.reverse_perm _
  refine (List.perm_append_left_iff _).1 (hperm.symm.trans ?_)
  exact hall.symm.trans (hmovers.symm.append_right _)

theorem moving_eq_nil_of_dense (hd : v.deleted repairs item p = [])
    (h : (rs.map (·.slot)).Perm (List.range rs.length)) : v.moving repairs item rs p = [] := by
  have hsub := moving_sublist v repairs item rs p
  rw [spared_of_deleted_eq_nil hd, renumbering_eq_nil_iff.2 h] at hsub
  exact List.sublist_nil.1 hsub

/-- Dense slots are dense after the share in an existing item. -/
theorem dense_placedOutcome (hrs : rs.Nodup) (h : (rs.map (·.slot)).Perm (List.range rs.length)) :
    ((v.placedOutcome repairs item rs p).map (·.slot)).Perm
      (List.range (v.placedOutcome repairs item rs p).length) := by
  have hslots := slots_settled_perm v repairs item p hrs
  unfold placedOutcome
  by_cases hd : v.deleted repairs item p = []
  · have hmoving := moving_eq_nil_of_dense hd h
    have hrest : v.resting repairs item rs p = rs := by
      simp [resting, hmoving, spared_of_deleted_eq_nil hd]
    rw [hmoving, hrest, List.map_nil, List.append_nil] at hslots
    rw [spared_of_deleted_eq_nil hd] at hslots ⊢
    split
    · simp only [List.cons_append, List.nil_append, List.map_cons, List.length_cons, List.length_map,
        List.range_succ]
      refine List.Perm.trans ?_ (List.perm_append_singleton _ _).symm
      exact (hslots.trans h).cons _
    · simpa using hslots.trans h
  · have hclaims : ¬ v.claims repairs item rs p = true := fun hc => hd (claims_eq_true_iff.1 hc).1
    have hmoving : v.moving repairs item rs p = renumbering (v.spared repairs item rs p) :=
      moving_eq_renumbering hd
    rw [if_neg hclaims, List.nil_append, List.length_map]
    refine hslots.trans ?_
    refine (((resting_perm_settlers hrs hmoving).map _).append_right _).trans ?_
    rw [hmoving]
    exact slots_renumbering_perm _

/-! ### Holders after a share -/

/-- Holders of the outcome held a replica before, but for the member that claims one. -/
theorem map_holder_placedOutcome (v : Viewpoint) (repairs : Nat) (item : Entry Item) (rs : List Replica)
    (p : Placement) : (v.placedOutcome repairs item rs p).map (·.holder) =
      (if v.claims repairs item rs p then [v.self] else []) ++
        (v.spared repairs item rs p).map (·.holder) := by
  unfold placedOutcome
  rw [List.map_append, List.map_map]
  congr 1
  · split <;> rfl
  · exact List.map_congr_left fun r _ => holder_settled r

/-- Nobody holds an item twice after a share, if nobody did before and only a member without it claims it. -/
theorem nodup_holders_placedOutcome (h : (rs.map (·.holder)).Nodup)
    (hclaim : v.claims repairs item rs p = true → ∀ r ∈ rs, r.holder ≠ v.self) :
    ((v.placedOutcome repairs item rs p).map (·.holder)).Nodup := by
  have hspared : ((v.spared repairs item rs p).map (·.holder)).Nodup :=
    h.sublist (List.filter_sublist.map _)
  rw [map_holder_placedOutcome]
  split
  next hclaims =>
    refine List.nodup_cons.2 ⟨fun hmem => ?_, hspared⟩
    obtain ⟨r, hr, hholder⟩ := List.mem_map.1 hmem
    exact hclaim hclaims r (mem_spared_iff.1 hr).1 hholder
  next => exact hspared

/-- A replica is counted for its holder where it settles. -/
theorem countP_map_settled (v : Viewpoint) (repairs : Nat) (item : Entry Item) (rs qs : List Replica)
    (p : Placement) (m : MemberId) (P : Replica → Bool) :
    (qs.map (v.settled repairs item rs p)).countP (fun r => r.holder == m && P r) =
      qs.countP fun r => r.holder == m && P (v.settled repairs item rs p r) := by
  rw [List.countP_map]
  refine List.countP_congr fun r _ => ?_
  rw [Function.comp_apply, holder_settled]

theorem countP_holder_map_settled (v : Viewpoint) (repairs : Nat) (item : Entry Item)
    (rs qs : List Replica) (p : Placement) (m : MemberId) :
    (qs.map (v.settled repairs item rs p)).countP (·.holder == m) = qs.countP (·.holder == m) := by
  simpa using countP_map_settled v repairs item rs qs p m fun _ => true

/-- A holder of whose replicas none is deleted keeps all of them. -/
theorem countP_spared_eq {m : MemberId} (h : ∀ r ∈ rs, r.holder = m → r ∉ v.deleted repairs item p)
    (P : Replica → Bool) : (v.spared repairs item rs p).countP (fun r => r.holder == m && P r) =
      rs.countP fun r => r.holder == m && P r := by
  unfold spared
  rw [List.countP_filter]
  refine List.countP_congr fun r hr => ?_
  have hkept := h r hr
  simpa using fun hm _ => hkept hm

theorem countP_spared_le (v : Viewpoint) (repairs : Nat) (item : Entry Item) (rs : List Replica)
    (p : Placement) (m : MemberId) :
    ((v.spared repairs item rs p).map (v.settled repairs item rs p)).countP (·.holder == m) ≤
      rs.countP (·.holder == m) := by
  rw [countP_holder_map_settled]
  exact List.filter_sublist.countP_le

/-- Only the member itself gains a replica, and at most one. -/
theorem countP_placedOutcome_le (m : MemberId) :
    (v.placedOutcome repairs item rs p).countP (·.holder == m) ≤
      rs.countP (·.holder == m) + if m = v.self ∧ v.claims repairs item rs p = true then 1 else 0 := by
  have hle := countP_spared_le v repairs item rs p m
  unfold placedOutcome
  rw [List.countP_append]
  by_cases hc : v.claims repairs item rs p = true
  · by_cases hm : m = v.self
    · have hone : [v.claimed item rs].countP (·.holder == m) ≤ 1 := List.countP_le_length
      rw [if_pos hc, if_pos ⟨hm, hc⟩]
      omega
    · have hnone : [v.claimed item rs].countP (·.holder == m) = 0 := by
        simpa [claimed, Replica.holder] using fun he => hm (Eq.symm he)
      rw [if_pos hc, if_neg fun h => hm h.1]
      omega
  · rw [if_neg hc, if_neg fun h => hc h.2]
    simpa using hle

theorem settled_mem_placedOutcome {r : Replica} (hr : r ∈ rs)
    (hd : r ∉ v.deleted repairs item p) :
    v.settled repairs item rs p r ∈ v.placedOutcome repairs item rs p :=
  List.mem_append_right _ (List.mem_map_of_mem (mem_spared_iff.2 ⟨hr, hd⟩))

/-- A member lets an item go only if enough others hold it consistently, and still do afterwards. -/
theorem replaced_of_let_go (v : Viewpoint) (repairs : Nat) (item : Entry Item) (hp : p.Fits rs)
    (hrs : rs.Nodup) {r : Replica} (hr : r ∈ rs) (ho : r.orphan = false)
    (hgone : ∀ q ∈ v.placedOutcome repairs item rs p, q.holder ≠ r.holder) :
    ∃ others : List MemberId, others.Nodup ∧ item.value.replication ≤ others.length ∧
      ∀ o ∈ others, o ≠ r.holder ∧ (∃ q ∈ rs, q.orphan = false ∧ q.holder = o) ∧
        ∃ q ∈ v.placedOutcome repairs item rs p,
          q.holder = o ∧ q.assignment.consistent = true := by
  obtain ⟨own, hown, hholder⟩ := Placement.exists_mem_liveOf hr ho List.not_mem_nil
  rw [← hp.live] at hown
  have hlive : ∀ q ∈ p.live, q ∈ rs := fun q hq => by
    rw [hp.live] at hq
    exact Placement.mem_of_mem_liveOf hq
  have hreleased : ∀ q ∈ p.live, q ∈ v.deleted repairs item p → v.own? p = some q :=
    fun q hq hd => (mem_released_iff.1 (mem_released_of_mem_deleted hp hrs hq hd)).1
  have hdel : own ∈ v.deleted repairs item p := Decidable.byContradiction fun hd =>
    hgone _ (settled_mem_placedOutcome (hlive own hown) hd) ((holder_settled own).trans hholder)
  have hwanted := (mem_released_iff.1 (mem_released_of_mem_deleted hp hrs hown hdel)).2.2
  -- a share deletes one live replica at most, so that those that made it a release stay
  refine ⟨((p.live.filter (· != own)).filter (·.assignment.consistent)).map (·.holder), ?_, ?_, ?_⟩
  · have hnodup : (p.live.map (·.holder)).Nodup := by
      rw [hp.live]
      exact Placement.nodup_holders_liveOf [] rs
    exact hnodup.sublist ((List.filter_sublist.trans List.filter_sublist).map _)
  · rw [List.length_map, ← List.countP_eq_length_filter]
    exact hwanted
  · intro o hom
    obtain ⟨q, hq, rfl⟩ := List.mem_map.1 hom
    obtain ⟨hq, hc⟩ := List.mem_filter.1 hq
    obtain ⟨hq, hne⟩ := List.mem_filter.1 hq
    have hne : q ≠ own := by simpa using hne
    have hkeep : q ∉ v.deleted repairs item p := fun hd =>
      hne (Option.some.inj ((hreleased q hq hd).symm.trans (hreleased own hown hdel)))
    refine ⟨fun he => hne ?_, ⟨q, hlive q hq, ?_, rfl⟩,
      _, settled_mem_placedOutcome (hlive q hq) hkeep, holder_settled q, consistent_settled hc⟩
    · rw [hp.live] at hq hown
      exact Placement.eq_of_holder hq hown (he.trans hholder.symm)
    · rw [hp.live] at hq
      exact (Placement.holder_of_mem_liveOf hq).1

/-! ### Any item -/

/-- The share in a removed item deletes its last replica, or does nothing. -/
theorem writes_removedWork_cases (v : Viewpoint) (repairs : Nat) (name : String)
    (rs : List Replica) :
    v.removedWork repairs name rs = Work.none ∨
      ∃ top, rs.getLast? = some top ∧ (v.removedWork repairs name rs).writes = [.delete top.key] ∧
        (v.removedWork repairs name rs).guards = v.orphanGuards [top] ++ v.itemGuards name 0 ∧
        (v.removedWork repairs name rs).tally = { Tally.zero with repaired := 1 } ∧
          (top.isHeldBy v.self = true ∨ top.orphan = true ∧ v.caretaker = v.self) := by
  unfold removedWork
  split
  next => exact .inl rfl
  next top htop =>
    split
    next hcond =>
      refine .inr ⟨top, htop, writes_guarded v name 0 _ _ _,
        guards_guarded v name 0 _ _ _ (List.cons_ne_nil _ _), rfl, ?_⟩
      simpa using (Bool.and_eq_true_iff.1 hcond).2
    next => exact .inl rfl

/-- A share that writes nothing counts nothing. -/
theorem work_eq_none {t : Planned} (h : (v.work repairs t).writes = []) :
    v.work repairs t = Work.none := by
  have hguarded : ∀ (name : String) (modified : Int) (ds : List Replica) (ws : List Write)
      (tally : Tally), ws = [] → v.guarded name modified ds ws tally = Work.none := by
    intro name modified ds ws tally hws
    subst hws
    rfl
  cases t with
  | placed item rs p =>
    refine hguarded item.value.id item.modified (v.deleted repairs item p) _ _ ?_
    exact (writes_guarded v item.value.id item.modified _ _ _).symm.trans h
  | removed name rs =>
    rcases writes_removedWork_cases v repairs name rs with he | ⟨top, -, hw, -⟩
    · exact he
    · have hw' : (v.work repairs (.removed name rs)).writes = [.delete top.key] := hw
      rw [hw'] at h
      exact nomatch h

variable {t : Planned}

/-- The share in an item leaves its outcome. -/
theorem turns_work (ht : t.Fits) (hrs : ReplicasOf v.layout t.name t.replicas) (hself : v.self.IsValid)
    (repairs : Nat) :
    Turns v.layout t.name (v.work repairs t).writes t.replicas (v.outcome repairs t) := by
  cases t with
  | removed name rs =>
    show Turns _ _ (v.removedWork repairs name rs).writes _
      (if (v.removedWork repairs name rs).writes = [] then rs else rs.dropLast)
    rcases writes_removedWork_cases v repairs name rs with h | ⟨top, htop, h, -⟩
    · rw [h]
      exact Turns.nil _ _ _
    · rw [h, if_neg (List.cons_ne_nil _ _)]
      refine (Turns.delete _ _ top rs.dropLast).perm_left ?_
      obtain ⟨init, rfl⟩ := List.getLast?_eq_some_iff.1 htop
      rw [List.dropLast_concat]
      exact List.perm_append_singleton _ _
  | placed item rs p =>
    show Turns _ _ (v.placedWork repairs item rs p).writes _ _
    rw [writes_placedWork]
    exact turns_placed hrs ht hself

/-- Every share with writes is guarded by its item and the scope of its item. -/
theorem guards_work (repairs : Nat) (h : (v.work repairs t).writes ≠ []) :
    Guard.modified (v.layout.itemKey t.name) t.modified ∈ (v.work repairs t).guards ∧
      Guard.unchanged (v.layout.itemScope t.name) v.revision ∈ (v.work repairs t).guards := by
  have hitem : ∀ (name : String) (modified : Int) (before : List Guard),
      Guard.modified (v.layout.itemKey name) modified ∈ before ++ v.itemGuards name modified ∧
        Guard.unchanged (v.layout.itemScope name) v.revision ∈
          before ++ v.itemGuards name modified := by
    intro name modified before
    simp [itemGuards]
  cases t with
  | placed item rs p =>
    have hg := guards_placedWork h
    show _ ∈ (v.placedWork repairs item rs p).guards ∧ _ ∈ (v.placedWork repairs item rs p).guards
    rw [hg]
    exact hitem _ _ _
  | removed name rs =>
    rcases writes_removedWork_cases v repairs name rs with he | ⟨top, -, -, hg, -⟩
    · exact absurd (congrArg Work.writes he) h
    · show _ ∈ (v.removedWork repairs name rs).guards ∧ _ ∈ (v.removedWork repairs name rs).guards
      rw [hg]
      exact hitem _ _ _

/-- Dense slots of an item are dense after any share in it. -/
theorem dense_outcome (hrs : ReplicasOf v.layout t.name t.replicas)
    (h : (t.replicas.map (·.slot)).Perm (List.range t.replicas.length)) (repairs : Nat) :
    ((v.outcome repairs t).map (·.slot)).Perm (List.range (v.outcome repairs t).length) := by
  cases t with
  | placed item rs p => exact dense_placedOutcome hrs.nodup_self h
  | removed name rs =>
    simp only [outcome]
    split
    next => exact h
    next =>
      have hslots : rs.map (·.slot) = List.range rs.length :=
        map_slot_of_isPacked (isPacked_of_ordered hrs.ordered h)
      have hlast : rs.dropLast.map (·.slot) = List.range rs.dropLast.length := by
        rw [List.map_dropLast, hslots, List.length_dropLast]
        cases rs.length with
        | zero => rfl
        | succ n => rw [List.range_succ, List.dropLast_concat, Nat.add_sub_cancel]
      exact List.Perm.of_eq hlast

/-- Only the member itself gains a replica, and only one that it has been promised. -/
theorem countP_outcome_le (repairs : Nat) (t : Planned) (m : MemberId) :
    (v.outcome repairs t).countP (·.holder == m) ≤
      t.replicas.countP (·.holder == m) + if m = v.self ∧ v.self ∈ t.promises then 1 else 0 := by
  cases t with
  | placed item rs p =>
    refine Nat.le_trans (countP_placedOutcome_le m) (Nat.add_le_add_left ?_ _)
    by_cases hc : m = v.self ∧ v.claims repairs item rs p = true
    · have hpromise : v.self ∈ (Planned.placed item rs p).promises :=
        List.mem_of_head? (claims_eq_true_iff.1 hc.2).2.2.2
      exact Nat.le_of_eq (by rw [if_pos hc, if_pos ⟨hc.1, hpromise⟩])
    · rw [if_neg hc]
      exact Nat.zero_le _
  | removed name rs =>
    refine Nat.le_add_right_of_le ?_
    simp only [outcome]
    split
    · exact Nat.le_refl _
    · exact (List.dropLast_sublist rs).countP_le

/-- Nobody holds an item twice after a share, if nobody did before and the member itself exists. -/
theorem nodup_holders_outcome (ht : t.Fits)
    (hself : ∀ r ∈ t.replicas, r.holder = v.self → r.orphan = false)
    (h : (t.replicas.map (·.holder)).Nodup) (repairs : Nat) :
    ((v.outcome repairs t).map (·.holder)).Nodup := by
  cases t with
  | removed name rs =>
    show ((if (v.removedWork repairs name rs).writes = [] then rs else rs.dropLast).map (·.holder)).Nodup
    split
    · exact h
    · exact h.sublist ((List.dropLast_sublist _).map _)
  | placed item rs p =>
    show ((v.placedOutcome repairs item rs p).map (·.holder)).Nodup
    refine nodup_holders_placedOutcome h fun hclaims r hr hholder => ?_
    have hreceives := List.mem_of_head? (claims_eq_true_iff.1 hclaims).2.2.2
    exact ht.receivers v.self hreceives r hr (hself r hr hholder) hholder

/-- A share adds a replica only if one is promised. -/
theorem added_work_le (v : Viewpoint) (repairs : Nat) (t : Planned) :
    (v.work repairs t).tally.added ≤ if v.self ∈ t.promises then 1 else 0 := by
  cases t with
  | placed item rs p =>
    show (v.placedWork repairs item rs p).tally.added ≤ _
    rw [tally_placedWork]
    show (if v.claims repairs item rs p then 1 else 0) ≤ _
    split
    next hc =>
      have hpromise : v.self ∈ (Planned.placed item rs p).promises :=
        List.mem_of_head? (claims_eq_true_iff.1 hc).2.2.2
      exact Nat.le_of_eq (if_pos hpromise).symm
    next => exact Nat.zero_le _
  | removed name rs =>
    show (v.removedWork repairs name rs).tally.added ≤ _
    rcases writes_removedWork_cases v repairs name rs with h | ⟨-, -, -, -, h, -⟩ <;> rw [h] <;>
      exact Nat.zero_le _

end Viewpoint

end Allotment
