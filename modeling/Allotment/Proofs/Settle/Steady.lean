import Allotment.Proofs.Plan.Exclusive
import Allotment.Proofs.Plan.Shedding
import Allotment.Proofs.Settle.Shift

/-!
# What a member sheds while others commit

A member that commits what it proposed leads from one snapshot of the store to the next (`Proposal.Leads`).  What
another member holds stays with it, although it may move (`Leads.exists_slots`), so that its load is the same
(`Leads.liveLoad_eq`), and its replicas come no later among what it sheds unless one of its items has come to have
more replicas than it wants (`Leads.rank_le`).  Otherwise it goes on shedding what it was to shed
(`Leads.shed_stays`).  The condition is needed: a replica that is claimed for another item can overtake the move of
one whose replacement is there (`Leads.exists_overtaken`).
-/

namespace Allotment

/-- A replica moves down if no other has its slot. -/
theorem slot_lt_of_mem_renumbering {rs : List Replica} (hrs : rs.Nodup) {m : Replica × Nat}
    (h : m ∈ renumbering rs) (halone : ∀ q ∈ rs, q.slot = m.1.slot → q = m.1) : m.2 < m.1.slot := by
  refine Nat.lt_of_lt_of_le (lt_of_mem_renumbering h) (Nat.not_lt.1 fun hlow => ?_)
  have hmover : m.1 ∈ Packing.movers rs.length [] rs := by
    rw [← List.mem_reverse, ← map_fst_renumbering]
    exact List.mem_map_of_mem h
  have hslot : m.1.slot ∈ (Packing.settlers rs.length [] rs).map (·.slot) :=
    Packing.mem_slots_settlers_iff.2
      ⟨List.mem_map_of_mem (mem_of_mem_renumbering h).1, hlow, List.not_mem_nil⟩
  obtain ⟨q, hq, he⟩ := List.mem_map.1 hslot
  have hperm := Packing.movers_append_settlers_perm rs.length [] rs
  obtain rfl := halone q (hperm.mem_iff.1 (List.mem_append_right _ hq)) he
  exact (List.nodup_append.1 (hperm.nodup_iff.2 hrs)).2.2 _ hmover _ hq rfl

namespace Viewpoint

variable {v : Viewpoint} {repairs : Nat} {item : Entry Item} {rs : List Replica} {p : Placement}
  {m : MemberId} {r : Replica}

/-- No replica comes to a higher slot, if no other has its slot. -/
theorem slot_settled_le (hrs : rs.Nodup) (halone : ∀ q ∈ rs, q.slot = r.slot → q = r) :
    (v.settled repairs item rs p r).slot ≤ r.slot := by
  unfold settled
  cases hl : (v.moving repairs item rs p).lookup r with
  | none =>
    dsimp only
    split <;> exact Nat.le_refl _
  | some n =>
    obtain ⟨before, later, hmoving, -⟩ := List.lookup_eq_some_iff.1 hl
    have hmem : (r, n) ∈ v.moving repairs item rs p := by
      rw [hmoving]
      simp
    exact Nat.le_of_lt (slot_lt_of_mem_renumbering (nodup_spared hrs)
      ((moving_sublist v _ _ _ _).mem hmem) fun q hq => halone q (mem_spared_iff.1 hq).1)

/-- What others hold is not deleted. -/
theorem not_mem_deleted_of_ne (ho : r.orphan = false) (hne : r.holder ≠ v.self) :
    r ∉ v.deleted repairs item p := by
  intro hd
  have hanswers : v.AnswersFor (.placed item [] p) r := answersFor_of_mem_deleted hd
  rcases hanswers with hheld | ⟨horphan, -⟩
  · simp only [Replica.isHeldBy, Bool.and_eq_true, beq_iff_eq] at hheld
    exact hne hheld.2
  · rw [ho] at horphan
    exact absurd horphan Bool.false_ne_true

/-- What another member holds of an item is counted as before. -/
theorem countP_placedOutcome (v : Viewpoint) (repairs : Nat) (item : Entry Item) (p : Placement)
    (hne : m ≠ v.self) (hmember : ∀ r ∈ rs, r.holder = m → r.orphan = false) (P : Replica → Bool) :
    (v.placedOutcome repairs item rs p).countP (fun r => r.holder == m && P r) =
      rs.countP fun r => r.holder == m && P (v.settled repairs item rs p r) := by
  have hclaim : (if v.claims repairs item rs p then [v.claimed item rs] else []).countP
      (fun r => r.holder == m && P r) = 0 := by
    refine List.countP_eq_zero.2 fun r hr hheld => hne ?_
    split at hr
    next =>
      obtain rfl := List.mem_singleton.1 hr
      exact (eq_of_beq (Bool.and_eq_true_iff.1 hheld).1).symm
    next => exact nomatch hr
  unfold placedOutcome
  rw [List.countP_append, hclaim, Nat.zero_add, countP_map_settled]
  exact countP_spared_eq (fun r hr hheld => not_mem_deleted_of_ne (hmember r hr hheld) (hheld ▸ hne)) _

end Viewpoint

namespace Proposal

/-! ### One commit -/

/-- What a member proposes on a snapshot of the store is committed, and leads to the next snapshot. -/
structure Leads (l : Layout) (store store' : Store) (m : MemberId) (b : Bounds) (s s' : Snapshot) :
    Prop where
  before : Snapshot.ofEntries l store.revision (store.live.entriesUnder l.scope) = .ok s
  after : Snapshot.ofEntries l store'.revision (store'.live.entriesUnder l.scope) = .ok s'
  committed : ∃ p reply, ofSnapshot s m b = some p ∧
    store.commit p.transaction = .ok (store', reply) ∧ reply.succeeded = true

namespace Leads

variable {l : Layout} {store store' : Store} {p m : MemberId} {b : Bounds} {s s' : Snapshot}

theorem mirrors (h : Leads l store store' p b s s') : s.Mirrors store.live :=
  (Snapshot.ofEntries_entriesUnder_eq_ok_iff.1 h.before).2.2

theorem mirrors_after (h : Leads l store store' p b s s') : s'.Mirrors store'.live :=
  (Snapshot.ofEntries_entriesUnder_eq_ok_iff.1 h.after).2.2

theorem layout_eq (h : Leads l store store' p b s s') : s'.layout = s.layout :=
  (Snapshot.ofEntries_eq_ok h.after).1.trans (Snapshot.ofEntries_eq_ok h.before).1.symm

/-- The next snapshot differs by the outcome of some shares. -/
theorem exists_effect (h : Leads l store store' p b s s') : ∃ ts : List (Nat × Planned),
    (∀ t ∈ ts, t.2 ∈ (Roster.ofSnapshot s).planned b) ∧
      Effect s.layout (viewpoint s p) ts store.live store'.live := by
  obtain ⟨proposal, reply, hp, hc, hsucceeded⟩ := h.committed
  obtain ⟨entry, ts, hm⟩ := made_of_ofSnapshot hp
  refine ⟨ts, fun t ht => hm.mem_planned ht, ?_⟩
  rw [(Store.live_of_commit hc hsucceeded).2]
  exact hm.effect h.mirrors.faithful _ fun t ht => hm.shows h.before ht

theorem frame (h : Leads l store store' p b s s') (k : String) (_ : k.startsWith s.layout.scope = true)
    (hk : ∀ item, ¬ k.startsWith (s.layout.itemScope item) = true) :
    store'.live.get? k = store.live.get? k := by
  obtain ⟨ts, -, heffect⟩ := h.exists_effect
  exact heffect.elsewhere k fun t _ => hk _

theorem items_eq (h : Leads l store store' p b s s') : s'.items = s.items :=
  h.mirrors.items_eq h.mirrors_after h.layout_eq h.frame

theorem member?_eq (h : Leads l store store' p b s s') (m : MemberId) : s'.member? m = s.member? m :=
  h.mirrors.member?_eq h.mirrors_after h.layout_eq h.frame m

/-! ### What another member holds -/

/-- An item has what it had, or the outcome of a share. -/
theorem held_cases (h : Leads l store store' p b s s') {i : Entry Item} (hi : i ∈ s.items) :
    (s'.held i.value.id).Perm (s.held i.value.id) ∨
      ∃ repairs item place, (s'.held i.value.id).Perm (((viewpoint s p).placedOutcome repairs item
        (Roster.group s (s.assignments.map (Roster.replica s)) i.value.id).replicas place).map
          (·.assignment)) := by
  obtain ⟨ts, hplanned, heffect⟩ := h.exists_effect
  have hs := h.mirrors.faithful
  have hid : i.value.id ∈ Roster.itemIds s := Roster.mem_itemIds_iff.2 (.inl ⟨i, hi, rfl⟩)
  have hid' : i.value.id ∈ Roster.itemIds s' := Roster.mem_itemIds_iff.2 (.inl ⟨i, h.items_eq ▸ hi, rfl⟩)
  by_cases hshare : ∃ t ∈ ts, t.2.name = i.value.id
  · obtain ⟨⟨repairs, t⟩, ht, hname⟩ := hshare
    have hshows := heffect.after _ ht
    obtain ⟨g, hg, hof⟩ := Roster.of_mem_planned (hplanned _ ht)
    obtain ⟨-, hreplicas⟩ := Roster.replicas_of_mem_planned hs (hplanned _ ht)
    rw [hname] at hshows hreplicas
    rw [← hreplicas]
    have hheld := h.mirrors_after.held_perm_of_shows hid' (h.layout_eq ▸ hshows) fun r hr =>
      h.mirrors_after.slot_lt_of_shows (Roster.isSegment_of_mem_itemIds hs hid)
        (h.layout_eq.symm ▸ hshows) hr
    cases hof with
    | removed hw =>
      obtain ⟨-, hgroup⟩ := Roster.mem_groups_iff.1 hg
      rw [hgroup, show g.id = i.value.id from hname] at hw
      exact nomatch hw.symm.trans ((Snapshot.item?_eq_some_iff hs).2 ⟨hi, rfl⟩)
    | @placed item hw room hids => exact .inr ⟨repairs, item, _, hheld⟩
  · refine .inl (h.mirrors.held_perm h.mirrors_after h.layout_eq hid hid' fun k hk => ?_)
    exact heffect.get?_eq_of_not_mem
      (fun t ht => (Roster.replicasOf_of_mem_planned hs (hplanned t ht)).segment)
      (Roster.isSegment_of_mem_itemIds hs hid) (fun t ht he => hshare ⟨t, ht, he⟩) hk

section Other

variable {i : Entry Item} (h : Leads l store store' p b s s') (hne : m ≠ p)
  (hm : (s.member? m).isSome = true) (hi : i ∈ s.items)

include h hne hm hi

/-- What another member holds of an item stays with it, although it may move: down, if nothing else has its
slot. -/
theorem exists_slots : ∃ slot : Replica → Nat,
    (∀ P : Nat → Bool, (s'.held i.value.id).countP (fun a => a.holder == m && P a.slot) =
      (Roster.group s (s.assignments.map (Roster.replica s)) i.value.id).replicas.countP fun r =>
        r.holder == m && P (slot r)) ∧
    ∀ r ∈ (Roster.group s (s.assignments.map (Roster.replica s)) i.value.id).replicas,
      (∀ q ∈ (Roster.group s (s.assignments.map (Roster.replica s)) i.value.id).replicas,
        q.slot = r.slot → q = r) → slot r ≤ r.slot := by
  have hid : i.value.id ∈ Roster.itemIds s := Roster.mem_itemIds_iff.2 (.inl ⟨i, hi, rfl⟩)
  rcases h.held_cases hi with hheld | ⟨repairs, item, place, hheld⟩
  · refine ⟨Replica.slot, fun P => ?_, fun r _ _ => Nat.le_refl _⟩
    rw [hheld.countP_eq, ← (Roster.assignments_group_perm s i.value.id).countP_eq, List.countP_map]
    rfl
  · have hrs := (Roster.replicasOf_group h.mirrors.faithful hid).nodup_self
    refine ⟨fun r => ((viewpoint s p).settled repairs item _ place r).slot, fun P => ?_,
      fun r _ halone => Viewpoint.slot_settled_le hrs halone⟩
    rw [hheld.countP_eq, List.countP_map]
    refine (viewpoint s p).countP_placedOutcome repairs item place hne (fun r hr hholder => ?_)
      fun r => P r.slot
    rw [Roster.orphan_of_mem_group hr, hholder, Option.isNone_eq_false_iff]
    exact hm

/-- Another member's load does not change. -/
theorem countP_held_eq : (s'.held i.value.id).countP (·.holder == m) =
    (s.held i.value.id).countP (·.holder == m) := by
  obtain ⟨slot, hcount, -⟩ := h.exists_slots hne hm hi
  have hall := hcount fun _ => true
  simp only [Bool.and_true] at hall
  rw [hall, ← (Roster.assignments_group_perm s i.value.id).countP_eq, List.countP_map]
  rfl

theorem heldFrom_le (hapart : ∀ q ∈ s.assignments, q.value.item = i.value.id → q.value.holder = m →
      ∀ r ∈ s.assignments, r.value.item = i.value.id → r.value.slot = q.value.slot → r = q) (n : Nat) :
    s'.heldFrom m i.value.id n ≤ s.heldFrom m i.value.id n := by
  obtain ⟨slot, hcount, hslot⟩ := h.exists_slots hne hm hi
  unfold Snapshot.heldFrom
  rw [hcount fun k => decide (n ≤ k), ← (Roster.assignments_group_perm s i.value.id).countP_eq,
    List.countP_map]
  refine List.countP_mono_left fun r hr hheld => ?_
  obtain ⟨q, hq, rfl, hitem⟩ := Roster.mem_replicas_group_iff.1 hr
  rw [Bool.and_eq_true, beq_iff_eq, decide_eq_true_eq] at hheld
  have hle := hslot _ hr fun r' hr' he => by
    obtain ⟨q', hq', rfl, hitem'⟩ := Roster.mem_replicas_group_iff.1 hr'
    rw [hapart q hq hitem hheld.1 q' hq' hitem' he]
  rw [Function.comp_apply, Bool.and_eq_true, beq_iff_eq, decide_eq_true_eq]
  exact ⟨hheld.1, Nat.le_trans hheld.2 hle⟩

end Other

theorem liveLoad_eq (h : Leads l store store' p b s s') (hne : m ≠ p) (hm : (s.member? m).isSome = true) :
    s'.liveLoad m = s.liveLoad m := by
  unfold Snapshot.liveLoad
  rw [h.items_eq]
  exact congrArg List.sum (List.map_congr_left fun i hi => h.countP_held_eq hne hm hi)

/-- A replica that keeps its key goes no later than before, unless its holder has come to hold another item with
more replicas than are wanted. -/
theorem rank_le (h : Leads l store store' p b s s') {a a' : Assignment} (hholder : a'.holder = a.holder)
    (hitem : a'.item = a.item) (hslot : a'.slot = a.slot) (hne : a.holder ≠ p)
    (hm : (s.member? a.holder).isSome = true)
    (hstill : ∀ q ∈ s.assignments, q.value.holder = a.holder → s'.IsOver q.value.item →
      s.IsOver q.value.item)
    (hapart : ∀ q ∈ s.assignments, q.value.holder = a.holder → s'.IsOver q.value.item →
      ∀ r ∈ s.assignments, r.value.item = q.value.item → r.value.slot = q.value.slot → r = q) :
    s'.rank a' ≤ s.rank a := by
  have hbar : ∀ id, Snapshot.bar a' id = Snapshot.bar a id := fun id => by
    unfold Snapshot.bar
    rw [hitem, hslot]
  unfold Snapshot.rank
  rw [h.items_eq, hholder]
  refine List.sum_le_sum fun i hi => ?_
  rw [hbar]
  by_cases hover : s'.IsOver i.value.id
  · rw [if_pos hover]
    by_cases hheld : ∃ q ∈ s.assignments, q.value.item = i.value.id ∧ q.value.holder = a.holder
    · obtain ⟨q, hq, hqi, hqh⟩ := hheld
      rw [if_pos (hqi ▸ hstill q hq hqh (hqi.symm ▸ hover))]
      refine h.heldFrom_le hne hm hi (fun q hq hqi hqh r hr hri => ?_) _
      exact hapart q hq hqh (hqi.symm ▸ hover) r hr (hri.trans hqi.symm)
    · -- Its holder has nothing of the item, and receives nothing while another member commits.
      have hnone : (s.held i.value.id).countP (·.holder == a.holder) = 0 :=
        List.countP_eq_zero.2 fun q hq hqh => by
          obtain ⟨e, he, rfl, hei⟩ := Snapshot.mem_held_iff.1 hq
          exact hheld ⟨e, he, hei, eq_of_beq hqh⟩
      rw [← h.countP_held_eq hne hm hi] at hnone
      have hle : s'.heldFrom a.holder i.value.id (Snapshot.bar a i.value.id) ≤
          (s'.held i.value.id).countP (·.holder == a.holder) :=
        List.countP_mono_left fun q _ hq => (Bool.and_eq_true_iff.1 hq).1
      rw [hnone] at hle
      exact hle.trans (Nat.zero_le _)
  · rw [if_neg hover]
    exact Nat.zero_le _

/-- While another member commits, a member goes on shedding a replica of an item that has more than it wants, as
long as the item still does, no other item that the member holds has come to have more than it wants, and its
replicas of such items share their slots with no others. -/
theorem shed_stays (h : Leads l store store' p b s s') {a a' : Entry Assignment} (ha : a ∈ s.assignments)
    (ha' : a' ∈ s'.assignments) (hkey : a'.key = a.key) (hne : a.value.holder ≠ p)
    (hover : s.IsOver a.value.item) (hover' : s'.IsOver a.value.item)
    (hstill : ∀ q ∈ s.assignments, q.value.holder = a.value.holder → s'.IsOver q.value.item →
      s.IsOver q.value.item)
    (hapart : ∀ q ∈ s.assignments, q.value.holder = a.value.holder → s'.IsOver q.value.item →
      ∀ r ∈ s.assignments, r.value.item = q.value.item → r.value.slot = q.value.slot → r = q)
    (hshed : a.key ∈ (Roster.ofSnapshot s).shedding) : a.key ∈ (Roster.ofSnapshot s').shedding := by
  have hs := h.mirrors.faithful
  have hs' := h.mirrors_after.faithful
  obtain ⟨hitem, hholder, hslot⟩ : a'.value.item = a.value.item ∧ a'.value.holder = a.value.holder ∧
      a'.value.slot = a.value.slot := by
    have hparse := Snapshot.parse_of_mem_assignments hs' ha'
    rw [hkey, h.layout_eq, Snapshot.parse_of_mem_assignments hs ha] at hparse
    simpa [eq_comm] using hparse
  obtain ⟨m, hm, hrank⟩ := Snapshot.rank_le_of_mem_shedding hs ha hover
    (fun q hq _ hi hslot => hapart a ha rfl hover' q hq hi hslot) hshed
  have hsome : (s.member? a.value.holder).isSome = true := by rw [hm]; rfl
  have hle := h.rank_le hholder hitem hslot hne hsome hstill hapart
  rw [← hkey]
  refine Snapshot.mem_shedding_of_rank_le hs' ha' (hitem.symm ▸ hover') (m := m) ?_ ?_
  · rw [hholder, h.member?_eq, hm]
  · rw [hholder, h.liveLoad_eq hne hsome]
    exact Nat.le_trans hle hrank

/-! ### A move that is overtaken -/

/-- Two items, of which one has more replicas than it wants.  A member that holds both has to shed one of them, and
two other holders are draining. -/
def contest : Transaction :=
  ⟨[], [.put "/r/members/z/d" (Member.encode 0), .put "/r/members/z/e" (Member.encode 0),
    .put "/r/members/z/m" (Member.encode 1), .put "/r/members/z/p" (Member.encode 2),
    .put "/r/items/a" (Item.encode 1), .put "/r/items/b" (Item.encode 2),
    .put "/r/assignments/a/z/m/0" (Assignment.encode true),
    .put "/r/assignments/a/z/p/1" (Assignment.encode true),
    .put "/r/assignments/a/z/e/2" (Assignment.encode true),
    .put "/r/assignments/b/z/d/0" (Assignment.encode true),
    .put "/r/assignments/b/z/m/1" (Assignment.encode true)]⟩

/-- The snapshot of the two items. -/
def contested : Snapshot where
  layout := ⟨"/r"⟩
  revision := 1
  entries := ⟨[("/r/assignments/a/z/e/2", ⟨.assignment ⟨"a", ⟨"z", "e"⟩, 2, true⟩, 1, 1⟩),
    ("/r/assignments/a/z/m/0", ⟨.assignment ⟨"a", ⟨"z", "m"⟩, 0, true⟩, 1, 1⟩),
    ("/r/assignments/a/z/p/1", ⟨.assignment ⟨"a", ⟨"z", "p"⟩, 1, true⟩, 1, 1⟩),
    ("/r/assignments/b/z/d/0", ⟨.assignment ⟨"b", ⟨"z", "d"⟩, 0, true⟩, 1, 1⟩),
    ("/r/assignments/b/z/m/1", ⟨.assignment ⟨"b", ⟨"z", "m"⟩, 1, true⟩, 1, 1⟩),
    ("/r/items/a", ⟨.item ⟨"a", 1⟩, 1, 1⟩), ("/r/items/b", ⟨.item ⟨"b", 2⟩, 1, 1⟩),
    ("/r/members/z/d", ⟨.member ⟨⟨"z", "d"⟩, 0⟩, 1, 1⟩), ("/r/members/z/e", ⟨.member ⟨⟨"z", "e"⟩, 0⟩, 1, 1⟩),
    ("/r/members/z/m", ⟨.member ⟨⟨"z", "m"⟩, 1⟩, 1, 1⟩), ("/r/members/z/p", ⟨.member ⟨⟨"z", "p"⟩, 2⟩, 1, 1⟩)],
    by decide +kernel⟩

/-- The snapshot after another member has claimed a replica of the second item. -/
def overtaken : Snapshot where
  layout := ⟨"/r"⟩
  revision := 2
  entries := contested.entries.insert "/r/assignments/b/z/p/2" ⟨.assignment ⟨"b", ⟨"z", "p"⟩, 2, false⟩, 2, 2⟩

/-- A replica of one of the items. -/
def contestReplica (item id : String) (slot : Nat) : Replica :=
  ⟨(Layout.mk "/r").assignmentKey item ⟨"z", id⟩ slot, ⟨item, ⟨"z", id⟩, slot, true⟩, false⟩

/-- Two holders are to leave the first item. -/
def crowdedPlan : Planned :=
  let held := [contestReplica "a" "m" 0, contestReplica "a" "p" 1, contestReplica "a" "e" 2]
  .placed ⟨⟨⟨"a", 1⟩, 1, 1⟩, "/r/items/a"⟩ held
    ⟨held, [], [contestReplica "a" "m" 0, contestReplica "a" "e" 2], [], []⟩

/-- The draining holder is to leave the second item, and another member is to replace it. -/
def vacantPlan : Planned :=
  let held := [contestReplica "b" "d" 0, contestReplica "b" "m" 1]
  .placed ⟨⟨⟨"b", 2⟩, 1, 1⟩, "/r/items/b"⟩ held
    ⟨held, [], [contestReplica "b" "d" 0], [], [⟨"z", "p"⟩]⟩

/-- The member that is to replace it claims a replica. -/
def contestClaim : Proposal where
  revision := 1
  transaction := ⟨[.modified "/r/items/b" 1, .unchanged "/r/assignments/b/" 1, .modified "/r/members/z/p" 1],
    [.put "/r/assignments/b/z/p/2" (Assignment.encode false)]⟩
  tally := ⟨1, 0, 0, 0, 0⟩
  drained := false
  deferred := false

theorem work_crowdedPlan :
    (Viewpoint.mk ⟨"/r"⟩ 1 ⟨"z", "p"⟩ ⟨"z", "m"⟩).work 32 crowdedPlan = Work.none := by
  simp [crowdedPlan, contestReplica, Viewpoint.work, Viewpoint.placedWork, Viewpoint.released,
    Viewpoint.own?, Viewpoint.repaired, Viewpoint.moves, renumbering, Packing.movers, Packing.gaps,
    Viewpoint.guarded, Replica.isHeldBy, Replica.holder, Replica.slot, isPacked, List.range,
    List.range.loop]

theorem work_vacantPlan : (Viewpoint.mk ⟨"/r"⟩ 1 ⟨"z", "p"⟩ ⟨"z", "m"⟩).work 32 vacantPlan =
    ⟨[.modified "/r/items/b" 1, .unchanged "/r/assignments/b/" 1], contestClaim.transaction.writes,
      contestClaim.tally⟩ := by
  have hkey : (Layout.mk "/r").assignmentKey "b" ⟨"z", "p"⟩ 2 = "/r/assignments/b/z/p/2" := rfl
  simp [vacantPlan, contestClaim, contestReplica, Viewpoint.work, Viewpoint.placedWork,
    Viewpoint.released, Viewpoint.own?, Viewpoint.repaired, Viewpoint.moves, renumbering,
    Packing.movers, Packing.gaps, Viewpoint.guarded, Viewpoint.orphanGuards, Viewpoint.itemGuards,
    Replica.isHeldBy, Replica.holder, Replica.slot, isPacked, Layout.itemKey, Layout.itemScope, hkey,
    List.range, List.range.loop]

theorem ofSnapshot_contested :
    ofSnapshot contested ⟨"z", "p"⟩ Bounds.standard = some contestClaim := by
  have hfacts : (contested.member? ⟨"z", "p"⟩, (Roster.ofSnapshot contested).seat? ⟨"z", "p"⟩,
      (Roster.ofSnapshot contested).caretaker?, (Roster.ofSnapshot contested).planned Bounds.standard) =
      (some ⟨⟨⟨⟨"z", "p"⟩, 2⟩, 1, 1⟩, "/r/members/z/p"⟩,
        some ⟨⟨"z", "p"⟩, "/r/members/z/p", 2, 1, 1, 1⟩, some ⟨"z", "m"⟩, [crowdedPlan, vacantPlan]) := by
    simp only [contested, Roster.ofSnapshot, Roster.itemIds, Snapshot.members, Snapshot.items,
      Snapshot.assignments, Snapshot.view, Snapshot.under_eq]
    cbv
  simp only [Prod.mk.injEq] at hfacts
  obtain ⟨hm, hseat, hcaretaker, hplanned⟩ := hfacts
  unfold ofSnapshot works
  simp only [hm, hseat, hcaretaker, hplanned, Option.getD_some, show contested.layout = ⟨"/r"⟩ from rfl,
    show contested.revision = 1 from rfl, show Bounds.standard.repairs = 32 from rfl, Viewpoint.works,
    work_crowdedPlan]
  rw [show 32 - Work.none.tally.repaired = 32 from rfl, work_vacantPlan]
  rfl

/-- The claim leads from the one snapshot to the other. -/
theorem exists_leads_contested : ∃ store store',
    Leads ⟨"/r"⟩ store store' ⟨"z", "p"⟩ Bounds.standard contested overtaken := by
  have hrun : ((Store.empty.commit contest).toOption.any fun r =>
      (r.1.commit contestClaim.transaction).toOption.any fun r' =>
        decide ((Snapshot.ofEntries contested.layout contested.revision
            (r.1.live.entriesUnder contested.layout.scope)).toOption.map (·.entries.bindings) =
          some contested.entries.bindings) &&
        decide ((Snapshot.ofEntries overtaken.layout overtaken.revision
            (r'.1.live.entriesUnder overtaken.layout.scope)).toOption.map (·.entries.bindings) =
          some overtaken.entries.bindings) &&
        (r.1.revision == 1 && r'.1.revision == 2 && r'.2.succeeded)) = true := by
    decide +kernel
  obtain ⟨r, -, hrun⟩ := (Option.any_eq_true _ _).1 hrun
  obtain ⟨r', hc, hrun⟩ := (Option.any_eq_true _ _).1 hrun
  simp only [Bool.and_eq_true, decide_eq_true_eq, beq_iff_eq] at hrun
  obtain ⟨⟨hbefore, hafter⟩, ⟨hrevision, hrevision'⟩, hsucceeded⟩ := hrun
  refine ⟨r.1, r'.1, ?_, ?_, contestClaim, r'.2, ofSnapshot_contested, toOption_eq_some_iff.1 hc,
    hsucceeded⟩
  · rw [hrevision]
    exact @Snapshot.ofEntries_eq_ok_of_bindings contested _ hbefore
  · rw [hrevision']
    exact @Snapshot.ofEntries_eq_ok_of_bindings overtaken _ hafter

theorem isOver_contested : contested.IsOver "a" ∧ overtaken.IsOver "a" := by
  decide +kernel

/-- A draining member goes on shedding its replica of the first item. -/
theorem shed_stays_of_contest : ∃ store store',
    Leads ⟨"/r"⟩ store store' ⟨"z", "p"⟩ Bounds.standard contested overtaken ∧
      "/r/assignments/a/z/e/2" ∈ (Roster.ofSnapshot contested).shedding ∧
        "/r/assignments/a/z/e/2" ∈ (Roster.ofSnapshot overtaken).shedding := by
  obtain ⟨store, store', h⟩ := exists_leads_contested
  let a : Entry Assignment := ⟨⟨⟨"a", ⟨"z", "e"⟩, 2, true⟩, 1, 1⟩, "/r/assignments/a/z/e/2"⟩
  obtain ⟨hover, hover'⟩ := isOver_contested
  have ha : a ∈ contested.assignments := by decide +kernel
  have hm : contested.member? a.value.holder = some ⟨⟨⟨⟨"z", "e"⟩, 0⟩, 1, 1⟩, "/r/members/z/e"⟩ := by
    decide +kernel
  have hshed : a.key ∈ (Roster.ofSnapshot contested).shedding :=
    Snapshot.mem_shedding_of_rank_le h.mirrors.faithful ha hover hm (by decide +kernel)
  exact ⟨store, store', h, hshed, h.shed_stays ha (show a ∈ overtaken.assignments by decide +kernel) rfl
    (by decide) hover hover' (by decide +kernel) (by decide +kernel) hshed⟩

/-- The member that holds both items was to shed its replica of the first, and after the claim is to shed the one of
the second instead, although its limit and its load are the same. -/
theorem exists_overtaken : ∃ (store store' : Store) (a : Entry Assignment) (m : Entry Member),
    Leads ⟨"/r"⟩ store store' ⟨"z", "p"⟩ Bounds.standard contested overtaken ∧
      a ∈ contested.assignments ∧ a ∈ overtaken.assignments ∧ a.value.holder ≠ ⟨"z", "p"⟩ ∧
      contested.member? a.value.holder = some m ∧ overtaken.member? a.value.holder = some m ∧
      m.value.limit < contested.liveLoad a.value.holder ∧
      overtaken.liveLoad a.value.holder = contested.liveLoad a.value.holder ∧
      contested.IsOver a.value.item ∧ overtaken.IsOver a.value.item ∧
      a.key ∈ (Roster.ofSnapshot contested).shedding ∧ a.key ∉ (Roster.ofSnapshot overtaken).shedding := by
  obtain ⟨store, store', h⟩ := exists_leads_contested
  let a : Entry Assignment := ⟨⟨⟨"a", ⟨"z", "m"⟩, 0, true⟩, 1, 1⟩, "/r/assignments/a/z/m/0"⟩
  let m : Entry Member := ⟨⟨⟨⟨"z", "m"⟩, 1⟩, 1, 1⟩, "/r/members/z/m"⟩
  obtain ⟨hover, hover'⟩ := isOver_contested
  have ha : a ∈ contested.assignments := by decide +kernel
  have ha' : a ∈ overtaken.assignments := by decide +kernel
  have hm : contested.member? a.value.holder = some m := by decide +kernel
  have hm' := (h.member?_eq a.value.holder).trans hm
  have hload : contested.liveLoad a.value.holder = 2 := by decide +kernel
  have hload' := (h.liveLoad_eq (m := a.value.holder) (by decide) (by rw [hm]; rfl)).trans hload
  have hrank : contested.rank a.value = 1 := by decide +kernel
  have hrank' : overtaken.rank a.value = 2 := by decide +kernel
  refine ⟨store, store', a, m, h, ha, ha', by decide, hm, hm', ?_, hload'.trans hload.symm, hover, hover', ?_,
    fun hshed => ?_⟩
  · rw [hload]
    decide
  · refine Snapshot.mem_shedding_of_rank_le h.mirrors.faithful ha hover hm ?_
    rw [hrank, hload]
    decide
  · obtain ⟨m', hm'', hle⟩ := Snapshot.rank_le_of_mem_shedding h.mirrors_after.faithful ha' hover'
      (by decide +kernel) hshed
    obtain rfl := Option.some.inj (hm'.symm.trans hm'')
    rw [hrank', hload'] at hle
    exact absurd hle (by decide)

end Leads

end Proposal

end Allotment
