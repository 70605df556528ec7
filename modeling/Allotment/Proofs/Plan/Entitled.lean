import Allotment.Proofs.Plan.Account
import Allotment.Proofs.Plan.Exclusive

/-!
# What a member may do to others

A proposal writes to assignments only, and it renumbers whatever packing requires.  But it takes nothing else
from another member that exists: the flags of the replicas of an item on that member are the same afterwards
(`Entitled.others`).  Orphans may go, and those that stay keep their flags (`Entitled.absent`).  The member
itself may come to hold an item, let replicas go and become consistent (`Entitled.own`).  All of this holds
for any snapshot that can be decoded, with duplicates, gaps and slots in any spelling, and for any bounds
(`Proposal.entitled_of_members`).
-/

namespace Allotment

/-! ### Flags -/

/-- The flags of the keys that stand for replicas of an item on a member, whatever their slots. -/
def Contents.flags (l : Layout) (c : Contents) (item : String) (m : MemberId) : Multiset Bool :=
  (c.keys.filter (·.startsWith (l.holdingScope item m))).map
    fun k => c.value? k == some Assignment.consistentValue

/-- The flags of the replicas of a holder. -/
def flagsOf (rs : List Replica) (m : MemberId) : List Bool :=
  (rs.filter (·.holder == m)).map (·.assignment.consistent)

theorem flagsOf_append (rs rs' : List Replica) (m : MemberId) :
    flagsOf (rs ++ rs') m = flagsOf rs m ++ flagsOf rs' m := by
  simp only [flagsOf, List.filter_append, List.map_append]

theorem flagsOf_eq_nil {rs : List Replica} {m : MemberId} (h : ∀ r ∈ rs, r.holder ≠ m) :
    flagsOf rs m = [] := by
  rw [flagsOf, List.map_eq_nil_iff, List.filter_eq_nil_iff]
  exact fun r hr he => h r hr (eq_of_beq he)

theorem flagsOf_sublist {rs rs' : List Replica} (h : rs.Sublist rs') (m : MemberId) :
    (flagsOf rs m).Sublist (flagsOf rs' m) :=
  (h.filter _).map _

namespace Contents

variable {l : Layout} {c c' : Contents} {item : String} {m : MemberId} {rs : List Replica}

theorem Shows.flags_eq (h : Shows l item c rs) (hm : m.IsValid) : c.flags l item m = flagsOf rs m := by
  have hscope : c.keys.filter (·.startsWith (l.holdingScope item m)) =
      (c.keys.filter (·.startsWith (l.itemScope item))).filter
        (·.startsWith (l.holdingScope item m)) := by
    rw [List.filter_filter]
    refine List.filter_congr fun k _ => ?_
    rw [Bool.eq_iff_iff, Bool.and_eq_true]
    exact (and_iff_left_of_imp Layout.startsWith_itemScope_of_holdingScope).symm
  have hperm := ((h.keys_perm.filter (·.startsWith (l.holdingScope item m))).map
    fun k => c.value? k == some Assignment.consistentValue)
  rw [flags, hscope, Multiset.coe_eq_coe]
  refine hperm.trans (List.Perm.of_eq ?_)
  rw [List.filter_map, List.map_map, flagsOf]
  have hfilter : rs.filter ((·.startsWith (l.holdingScope item m)) ∘ (·.key)) =
      rs.filter (·.holder == m) :=
    List.filter_congr fun r hr => by
      rw [Bool.eq_iff_iff, Function.comp_apply, (h.named r hr).startsWith_holdingScope_iff hm, beq_iff_eq]
  rw [hfilter]
  refine List.map_congr_left fun r hr => ?_
  rw [Function.comp_apply, h.value r (List.mem_filter.1 hr).1]
  cases r.assignment.consistent <;> decide

/-- Flags depend on the values in the scope of the item only. -/
theorem flags_congr (h : ∀ k, k.startsWith (l.itemScope item) = true → c'.get? k = c.get? k) :
    c'.flags l item m = c.flags l item m := by
  have hvalue : ∀ k, k.startsWith (l.holdingScope item m) = true → c'.value? k = c.value? k :=
    fun k hk => by
      unfold value?
      rw [h k (Layout.startsWith_itemScope_of_holdingScope hk)]
  rw [flags, flags, Multiset.coe_eq_coe]
  have hkeys : (c'.keys.filter (·.startsWith (l.holdingScope item m))).Perm
      (c.keys.filter (·.startsWith (l.holdingScope item m))) :=
    filter_keys_perm _ fun k hk => by rw [hvalue k hk]
  refine (hkeys.map _).trans (List.Perm.of_eq (List.map_congr_left fun k hk => ?_))
  rw [hvalue k (List.mem_filter.1 hk).2]

end Contents

/-! ### Shares -/

namespace Viewpoint

variable {v : Viewpoint} {repairs : Nat} {item : Entry Item} {rs : List Replica} {p : Placement}
  {m : MemberId}

theorem consistent_settled_of_ne {r : Replica} (h : r.holder ≠ v.self) :
    (v.settled repairs item rs p r).assignment.consistent = r.assignment.consistent := by
  have hpending : v.pending item p ≠ some r := fun hp =>
    h (of_own?_eq_some (of_pending_eq_some hp).1).2.2
  unfold settled
  split
  next n _ =>
    show (r.assignment.consistent || v.pending item p == some r) = _
    rw [beq_eq_false_iff_ne.2 hpending, Bool.or_false]
  next =>
    rw [if_neg fun hf => hpending (of_flagging_eq_some hf).1]

/-- The flags of a holder after the share: those of its spared replicas, as they settle, and that of a
claim. -/
theorem flagsOf_placedOutcome (v : Viewpoint) (repairs : Nat) (item : Entry Item) (rs : List Replica)
    (p : Placement) (m : MemberId) : flagsOf (v.placedOutcome repairs item rs p) m =
      (if v.claims repairs item rs p = true ∧ m = v.self then [false] else []) ++
        ((v.spared repairs item rs p).filter (·.holder == m)).map
          fun r => (v.settled repairs item rs p r).assignment.consistent := by
  unfold placedOutcome
  rw [flagsOf_append]
  congr 1
  · by_cases hclaims : v.claims repairs item rs p = true
    · rw [if_pos hclaims]
      by_cases hm : m = v.self
      · subst hm
        rw [if_pos ⟨hclaims, rfl⟩]
        simp [flagsOf, claimed, Replica.holder]
      · rw [if_neg fun h => hm h.2]
        exact flagsOf_eq_nil fun r hr he => hm (he.symm.trans (List.mem_singleton.1 hr ▸ rfl))
    · rw [if_neg hclaims, if_neg fun h => hclaims h.1]
      rfl
  · rw [flagsOf, List.filter_map, List.map_map]
    congr 1
    refine List.filter_congr fun r _ => ?_
    rw [Function.comp_apply, holder_settled]

/-- Others keep the flags of what is spared. -/
theorem flagsOf_placedOutcome_of_ne (hm : m ≠ v.self) :
    flagsOf (v.placedOutcome repairs item rs p) m = flagsOf (v.spared repairs item rs p) m := by
  rw [flagsOf_placedOutcome, if_neg fun h => hm h.2, List.nil_append]
  refine List.map_congr_left fun r hr => consistent_settled_of_ne ?_
  rw [eq_of_beq (List.mem_filter.1 hr).2]
  exact hm

/-- What has no replica deleted is all spared. -/
theorem flagsOf_spared (h : ∀ r ∈ v.deleted repairs item p, r.holder ≠ m) :
    flagsOf (v.spared repairs item rs p) m = flagsOf rs m := by
  unfold flagsOf spared
  rw [List.filter_filter]
  congr 1
  refine List.filter_congr fun r _ => ?_
  by_cases hr : r.holder = m
  · have hnot : r ∉ v.deleted repairs item p := fun hd => h r hd hr
    simp [hr, hnot]
  · simp [hr]

variable {t : Planned}

/-- A replica that a share takes away is the member's own, or an orphan. -/
theorem flagsOf_outcome_of_ne (hm : m ≠ v.self) (horphan : ∀ r ∈ t.replicas, r.holder = m → r.orphan = false)
    (ht : t.Fits) : flagsOf (v.outcome repairs t) m = flagsOf t.replicas m := by
  have hmine : ∀ r ∈ t.replicas, v.AnswersFor t r → r.holder ≠ m := by
    rintro r hr (hheld | ⟨ho, -⟩) rfl
    · simp only [Replica.isHeldBy, Bool.and_eq_true, beq_iff_eq] at hheld
      exact hm hheld.2
    · exact Bool.false_ne_true ((horphan r hr rfl).symm.trans ho)
  cases t with
  | placed item rs p =>
    show flagsOf (v.placedOutcome repairs item rs p) m = flagsOf rs m
    rw [flagsOf_placedOutcome_of_ne hm]
    exact flagsOf_spared fun r hr =>
      hmine r (mem_of_mem_deleted ht hr) (answersFor_of_mem_deleted hr)
  | removed name rs =>
    simp only [outcome]
    split
    next => rfl
    next hw =>
      rcases writes_removedWork_cases v repairs name rs with he | ⟨top, htop, -, -, -, hcare⟩
      · exact absurd (congrArg Work.writes he) hw
      · obtain ⟨init, rfl⟩ := List.getLast?_eq_some_iff.1 htop
        have htop' := hmine top (List.mem_append_right _ List.mem_cons_self) hcare
        rw [List.dropLast_concat]
        show flagsOf init m = flagsOf (init ++ [top]) m
        have hnone : flagsOf [top] m = [] := flagsOf_eq_nil fun r hr => List.mem_singleton.1 hr ▸ htop'
        rw [flagsOf_append, hnone, List.append_nil]

/-- Others gain nothing. -/
theorem flagsOf_outcome_sublist (hm : m ≠ v.self) :
    (flagsOf (v.outcome repairs t) m).Sublist (flagsOf t.replicas m) := by
  cases t with
  | placed item rs p =>
    show (flagsOf (v.placedOutcome repairs item rs p) m).Sublist (flagsOf rs m)
    rw [flagsOf_placedOutcome_of_ne hm]
    exact flagsOf_sublist List.filter_sublist m
  | removed name rs =>
    simp only [outcome]
    split
    · exact List.Sublist.refl _
    · exact flagsOf_sublist (List.dropLast_sublist rs) m

/-- The member itself claims its only replica, or loses some and becomes consistent in others. -/
theorem flagsOf_outcome_self (repairs : Nat)
    (horphan : ∀ r ∈ t.replicas, r.holder = v.self → r.orphan = false) (ht : t.Fits) :
    (t.item?.isSome = true ∧ flagsOf t.replicas v.self = [] ∧
        flagsOf (v.outcome repairs t) v.self = [false]) ∨
      ∃ kept : Multiset Bool, kept ≤ flagsOf t.replicas v.self ∧
        kept.Rel (· ≤ ·) (flagsOf (v.outcome repairs t) v.self) := by
  cases t with
  | placed item rs p =>
    show (true = true ∧ flagsOf rs v.self = [] ∧
        flagsOf (v.placedOutcome repairs item rs p) v.self = [false]) ∨
      ∃ kept : Multiset Bool, kept ≤ flagsOf rs v.self ∧
        kept.Rel (· ≤ ·) (flagsOf (v.placedOutcome repairs item rs p) v.self)
    rw [flagsOf_placedOutcome]
    by_cases hclaims : v.claims repairs item rs p = true
    · have hnone : ∀ r ∈ rs, r.holder ≠ v.self := fun r hr he =>
        ht.receivers v.self (List.mem_of_head? (claims_eq_true_iff.1 hclaims).2.2.2) r hr (horphan r hr he) he
      have hspared : (v.spared repairs item rs p).filter (·.holder == v.self) = [] :=
        List.filter_eq_nil_iff.2 fun r hr he => hnone r (mem_spared_iff.1 hr).1 (eq_of_beq he)
      rw [if_pos ⟨hclaims, rfl⟩, hspared]
      exact .inl ⟨rfl, flagsOf_eq_nil hnone, rfl⟩
    · rw [if_neg fun h => hclaims h.1, List.nil_append]
      refine .inr ⟨flagsOf (v.spared repairs item rs p) v.self,
        (flagsOf_sublist List.filter_sublist _).subperm, ?_⟩
      rw [flagsOf, ← Multiset.map_coe, ← Multiset.map_coe, Multiset.rel_map]
      exact Multiset.rel_refl_of_refl_on fun r _ => consistent_settled
  | removed name rs =>
    refine .inr ⟨flagsOf (v.outcome repairs (.removed name rs)) v.self, ?_,
      Multiset.rel_refl_of_refl_on fun _ _ => le_refl _⟩
    show flagsOf (if (v.removedWork repairs name rs).writes = [] then rs else rs.dropLast) v.self ≤
      (flagsOf rs v.self : Multiset Bool)
    split
    · exact le_refl _
    · exact (flagsOf_sublist (List.dropLast_sublist rs) _).subperm

end Viewpoint

/-! ### Proposals -/

/-- What a proposal of a member may make of the flags of an item. -/
structure Entitled (s : Snapshot) (m : MemberId) (item : String) (flags flags' : MemberId → Multiset Bool) :
    Prop where
  /-- Another member that exists keeps its flags. -/
  others : ∀ e ∈ s.members, e.value.id ≠ m → flags' e.value.id = flags e.value.id
  /-- A holder that does not exist may lose replicas, but the rest keep their flags. -/
  absent : ∀ x, x.IsValid → s.member? x = none → flags' x ≤ flags x
  /-- The member itself comes to hold an item that it did not hold, or it may lose replicas and become
  consistent in others. -/
  own : ((s.item? item).isSome = true ∧ flags m = 0 ∧ flags' m = {false}) ∨
    ∃ kept ≤ flags m, kept.Rel (· ≤ ·) (flags' m)

theorem Entitled.of_eq {s : Snapshot} {m : MemberId} {item : String} {flags flags' : MemberId → Multiset Bool}
    (h : ∀ x, flags' x = flags x) : Entitled s m item flags flags' where
  others := fun e _ _ => h e.value.id
  absent := fun x _ _ => le_of_eq (h x)
  own := .inr ⟨flags m, le_refl _, h m ▸ Multiset.rel_refl_of_refl_on fun _ _ => le_refl _⟩

namespace Proposal

variable {s : Snapshot} {m : MemberId} {b : Bounds} {p : Proposal} {entry : Entry Member}
  {ts : List (Nat × Planned)} {l : Layout} {revision : Int} {c : Contents}

/-- A proposal does to the contents of its snapshot what its member is entitled to. -/
theorem Made.entitled (hm : Made s m b p entry ts)
    (hs : Snapshot.ofEntries l revision (c.entriesUnder l.scope) = .ok s) (n : Int) {item : String}
    (hi : IsSegment item) :
    Entitled s m item (c.flags l item) ((c.write n p.transaction.writes).flags l item) := by
  have hfaithful := Snapshot.faithful_of_ofEntries hs
  obtain rfl := (Snapshot.ofEntries_eq_ok hs).1
  have heffect := hm.effect hfaithful n fun t ht => hm.shows hs ht
  by_cases hex : ∃ t ∈ ts, t.2.name = item
  case neg =>
    refine Entitled.of_eq fun x => Contents.flags_congr fun k hk => ?_
    exact heffect.get?_eq_of_not_mem (fun t ht => (hm.replicasOf hfaithful ht).segment) hi
      (fun t ht he => hex ⟨t, ht, he⟩) hk
  case pos =>
    obtain ⟨t, ht, rfl⟩ := hex
    have hbefore : ∀ {x : MemberId}, x.IsValid →
        c.flags s.layout t.2.name x = flagsOf t.2.replicas x := (heffect.before t ht).flags_eq
    have hafter : ∀ {x : MemberId}, x.IsValid → (c.write n p.transaction.writes).flags s.layout t.2.name x =
        flagsOf ((viewpoint s m).outcome t.1 t.2) x := (heffect.after t ht).flags_eq
    have horphan : ∀ x, (s.member? x).isSome = true →
        ∀ r ∈ t.2.replicas, r.holder = x → r.orphan = false := by
      rintro _ hx r hr rfl
      rw [hm.orphan_eq hfaithful ht hr]
      exact Option.isNone_eq_false_iff.2 hx
    have hfits := hm.fits hfaithful ht
    have hself := hm.isValid_self hfaithful
    refine ⟨fun e he hne => ?_, fun x hx hnone => ?_, ?_⟩
    · have hmember : (s.member? e.value.id).isSome = true := by
        rw [(Snapshot.member?_eq_some_iff hfaithful).2 ⟨he, rfl⟩]
        rfl
      have hvalid := Snapshot.isValid_of_member? hfaithful hmember
      rw [hbefore hvalid, hafter hvalid, Viewpoint.flagsOf_outcome_of_ne hne (horphan _ hmember) hfits]
    · rw [hbefore hx, hafter hx]
      refine (Viewpoint.flagsOf_outcome_sublist (v := viewpoint s m) fun he => ?_).subperm
      have hx' : x = m := he
      rw [hx', hm.member] at hnone
      exact nomatch hnone
    · rw [hbefore hself, hafter hself]
      rcases Viewpoint.flagsOf_outcome_self (v := viewpoint s m) t.1
        (horphan m (by rw [hm.member]; rfl)) hfits with ⟨hitem, hnone, hone⟩ | hkept
      · exact .inl ⟨Roster.isSome_item?_of_mem_planned hfaithful (hm.mem_planned ht) hitem,
          congrArg _ hnone, congrArg _ hone⟩
      · exact .inr hkept

/-- Whatever a member proposes, it writes to assignments only, makes no replica cease to be consistent, and
does to each item what it is entitled to. -/
theorem entitled_of_members (hs : Snapshot.ofEntries l revision (c.entriesUnder l.scope) = .ok s)
    {e : Entry Member} (he : e ∈ s.members) (b : Bounds) (n : Int) :
    ∃ p, require s e.value.id b = .ok p ∧
      (∀ w ∈ p.transaction.writes, w.key.startsWith l.assignmentsScope = true) ∧
      (c.account l n p.transaction.writes).cleared = 0 ∧
      ∀ item, IsSegment item → Entitled s e.value.id item (c.flags l item)
        ((c.write n p.transaction.writes).flags l item) := by
  have hfaithful := Snapshot.faithful_of_ofEntries hs
  obtain ⟨p, hp⟩ := exists_of_mem_members hfaithful he b
  obtain ⟨entry, ts, hm⟩ := made_of_ofSnapshot hp
  refine ⟨p, require_eq_ok_iff.2 hp, fun w hw => ?_, ?_, fun item hi => hm.entitled hs n hi⟩
  · exact hm.startsWith_assignmentsScope hs hw
  · have haccount := hm.account hfaithful n fun t ht => hm.shows hs ht
    rw [(Snapshot.ofEntries_eq_ok hs).1] at haccount
    rw [haccount]
    rfl

/-- An item that is wanted twice, held by two members and before them by one that does not exist. -/
def crowded : Contents :=
  KeyMap.ofList [("/r/members/a/m", ⟨Member.encode 1, 1, 1⟩), ("/r/members/b/m", ⟨Member.encode 1, 1, 1⟩),
    ("/r/items/job", ⟨Item.encode 2, 1, 1⟩), ("/r/assignments/job/c/m/0", ⟨Assignment.encode true, 1, 1⟩),
    ("/r/assignments/job/a/m/1", ⟨Assignment.encode true, 1, 1⟩),
    ("/r/assignments/job/b/m/2", ⟨Assignment.encode true, 1, 1⟩)]

/-- Nobody is to leave, and nobody is to come. -/
def crowdedPlan : Planned :=
  let stray : Replica := ⟨"/r/assignments/job/c/m/0", ⟨"job", ⟨"c", "m"⟩, 0, true⟩, true⟩
  let own : Replica := ⟨"/r/assignments/job/a/m/1", ⟨"job", ⟨"a", "m"⟩, 1, true⟩, false⟩
  let other : Replica := ⟨"/r/assignments/job/b/m/2", ⟨"job", ⟨"b", "m"⟩, 2, true⟩, false⟩
  .placed ⟨⟨⟨"job", 2⟩, 1, 1⟩, "/r/items/job"⟩ [stray, own, other] ⟨[own, other], [stray], [], [], []⟩

theorem writes_crowdedPlan (caretaker : MemberId) :
    ((Viewpoint.mk ⟨"/r"⟩ 1 ⟨"a", "m"⟩ caretaker).work 32 crowdedPlan).writes =
      [.delete "/r/assignments/job/c/m/0", .delete "/r/assignments/job/b/m/2",
        .put ((Layout.mk "/r").assignmentKey "job" ⟨"b", "m"⟩ 0) (Assignment.encode true)] := by
  simp [crowdedPlan, Viewpoint.work, Viewpoint.placedWork, Viewpoint.released, Viewpoint.own?,
    Viewpoint.repaired, Viewpoint.moves, Viewpoint.moveWrites, renumbering, Packing.movers, Packing.gaps,
    Viewpoint.guarded, Replica.isHeldBy, Replica.holder, Replica.slot, List.range, List.range.loop]

/-- The keeper of the item deletes the orphan and moves the replica of the other member to its slot. -/
theorem entitled_of_crowded :
    ∃ s p, Snapshot.ofEntries ⟨"/r"⟩ 1 (crowded.entriesUnder (Layout.mk "/r").scope) = .ok s ∧
      require s ⟨"a", "m"⟩ Bounds.standard = .ok p ∧
      p.transaction.writes = [.delete "/r/assignments/job/c/m/0", .delete "/r/assignments/job/b/m/2",
        .put ((Layout.mk "/r").assignmentKey "job" ⟨"b", "m"⟩ 0) (Assignment.encode true)] ∧
      (∀ w ∈ p.transaction.writes, w.key.startsWith (Layout.mk "/r").assignmentsScope = true) ∧
      (crowded.account ⟨"/r"⟩ 2 p.transaction.writes).cleared = 0 ∧
      Entitled s ⟨"a", "m"⟩ "job" (crowded.flags ⟨"/r"⟩ "job")
        ((crowded.write 2 p.transaction.writes).flags ⟨"/r"⟩ "job") := by
  have hfacts : (Snapshot.ofEntries ⟨"/r"⟩ 1 (crowded.entriesUnder (Layout.mk "/r").scope)).toOption.map
      (fun s => (s.members.map (·.value), (Roster.ofSnapshot s).seat? ⟨"a", "m"⟩,
        (Roster.ofSnapshot s).planned Bounds.standard)) =
      some ([⟨⟨"a", "m"⟩, 1⟩, ⟨⟨"b", "m"⟩, 1⟩],
        some ⟨⟨"a", "m"⟩, "/r/members/a/m", 1, 1, 1, 0⟩, [crowdedPlan]) := by
    simp only [crowded, Contents.entriesUnder, Roster.ofSnapshot, Roster.itemIds, Snapshot.members,
      Snapshot.items, Snapshot.assignments, Snapshot.view, Snapshot.under_eq]
    cbv
  obtain ⟨s, hs, hfacts⟩ := Option.map_eq_some_iff.1 hfacts
  simp only [Prod.mk.injEq] at hfacts
  obtain ⟨hmembers, hseat, hplanned⟩ := hfacts
  have hdecoded := toOption_eq_some_iff.1 hs
  obtain ⟨hlayout, hrevision, -⟩ := Snapshot.ofEntries_eq_ok hdecoded
  have hmem : (⟨⟨"a", "m"⟩, 1⟩ : Member) ∈ s.members.map (·.value) := by
    rw [hmembers]
    exact List.mem_cons_self
  obtain ⟨e, he, hvalue⟩ := List.mem_map.1 hmem
  have hid : e.value.id = ⟨"a", "m"⟩ := congrArg Member.id hvalue
  obtain ⟨p, hp, hscope, hcleared, hentitled⟩ := entitled_of_members hdecoded he Bounds.standard 2
  rw [hid] at hp hentitled
  have hwrites := (of_planned_singleton (require_eq_ok_iff.1 hp) hseat rfl hplanned).1
  rw [viewpoint, hlayout, hrevision] at hwrites
  exact ⟨s, p, hdecoded, hp, hwrites.trans (writes_crowdedPlan _), hscope, hcleared,
    hentitled "job" (by decide)⟩

end Proposal

end Allotment
