import Allotment.Proofs.Agreement
import Allotment.Proofs.Check
import Allotment.Proofs.Commit
import Allotment.Proofs.Settle.Share

/-!
# From one snapshot to a later one

Between two snapshots some items have come to show other replicas, and no other key under the root has
changed (`Snapshot.Shift`).  Then the members and the items are the same (`Shift.members_eq`,
`Shift.items_eq`), the items in question have the assignments that they show, and the other items those that
they had (`Shift.held_of_mem`, `Shift.held_of_not_mem`).  That is so where shares are carried out that were
planned for an orderly snapshot with the same members and items, although the plan may be old
(`Snapshot.Landing`): the contents can be read afterwards (`Landing.exists_shift`), and what was orderly stays
so (`Landing.orderly`).
-/

namespace Allotment

namespace Snapshot

theorem Mirrors.ofEntries_eq {s : Snapshot} {c : Contents} (h : s.Mirrors c) :
    ofEntries s.layout s.revision (c.entriesUnder s.layout.scope) = .ok s :=
  ofEntries_entriesUnder_eq_ok_iff.2 ⟨rfl, rfl, h⟩

/-- The assignments of an item are those of the replicas that it shows. -/
theorem Mirrors.held_perm_of_shows {s : Snapshot} {c : Contents} (h : s.Mirrors c) {id : String}
    (hid : id ∈ Roster.itemIds s) {rs : List Replica} (hshows : c.Shows s.layout id rs)
    (hslot : ∀ r ∈ rs, r.slot < Layout.slotLimit) : (s.held id).Perm (rs.map (·.assignment)) := by
  have hrs := Roster.replicasOf_group (faithful_of_ofEntries h.ofEntries_eq) hid
  have hgroup := (Roster.shows_group h.ofEntries_eq hid).assignments_perm hrs.segment
    fun r hr => hrs.slot_lt hr
  exact (Roster.assignments_group_perm s id).symm.trans
    (hgroup.trans (hshows.assignments_perm hrs.segment hslot).symm)

namespace Mirrors

variable {s s' : Snapshot} {c c' : Contents}

theorem faithful (h : s.Mirrors c) : s.IsFaithful :=
  faithful_of_ofEntries h.ofEntries_eq

theorem get?_eq (h : s.Mirrors c) (h' : s'.Mirrors c') (hl : s'.layout = s.layout) {k : String}
    (hk : k.startsWith s.layout.scope = true → c'.get? k = c.get? k) :
    s'.entries.get? k = s.entries.get? k := by
  by_cases hscope : k.startsWith s.layout.scope = true
  · exact (h'.inside k (hl ▸ hscope)).get?_eq ((h.inside k hscope).congr (hk hscope)) hl
  · rw [h.outside k hscope, h'.outside k (hl ▸ hscope)]

/-- An item in whose scope nothing has changed has the assignments that it had. -/
theorem held_perm (h : s.Mirrors c) (h' : s'.Mirrors c') (hl : s'.layout = s.layout) {id : String}
    (hid : id ∈ Roster.itemIds s) (hid' : id ∈ Roster.itemIds s')
    (hk : ∀ k, k.startsWith (s.layout.itemScope id) = true → c'.get? k = c.get? k) :
    (s'.held id).Perm (s.held id) := by
  have hrs := Roster.replicasOf_group h.faithful hid
  refine (h'.held_perm_of_shows hid' ?_ fun r hr => hrs.slot_lt hr).trans
    (Roster.assignments_group_perm s id)
  rw [hl]
  refine (Roster.shows_group h.ofEntries_eq hid).congr fun k hs => ?_
  unfold Contents.value?
  rw [hk k hs]

/-- What is shown to a snapshot has slots below the limit. -/
theorem slot_lt_of_shows (h : s.Mirrors c) {id : String} (hi : IsSegment id) {rs : List Replica}
    (hshows : c.Shows s.layout id rs) {r : Replica} (hr : r ∈ rs) : r.slot < Layout.slotLimit := by
  have hnamed := hshows.named r hr
  have hscope := Layout.startsWith_scope_of_itemScope hnamed.startsWith_itemScope
  obtain ⟨raw, hraw, -⟩ := Option.map_eq_some_iff.1 (hshows.value r hr)
  obtain ⟨v, -, hd⟩ := (agreesAt_some hraw).1 (h.inside r.key hscope)
  obtain ⟨_, -, hparse, -⟩ := Resource.decode_eq_ok_iff.1 hd
  exact ((hnamed.parse_eq_ok_iff hi).1 hparse).2

section Frame

variable (h : s.Mirrors c) (h' : s'.Mirrors c') (hl : s'.layout = s.layout)
  (hk : ∀ k, k.startsWith s.layout.scope = true →
    (∀ item, ¬ k.startsWith (s.layout.itemScope item) = true) → c'.get? k = c.get? k)

include h h' hl hk

/-! ### Where only assignments have changed -/

theorem members_eq : s'.members = s.members := by
  unfold members
  rw [hl]
  refine view_congr _ fun k hmem => h.get?_eq h' hl fun hscope => hk k hscope fun item => ?_
  exact Layout.not_startsWith_itemScope_of_membersScope item hmem

theorem items_eq : s'.items = s.items := by
  unfold items
  rw [hl]
  refine view_congr _ fun k hmem => h.get?_eq h' hl fun hscope => hk k hscope fun item => ?_
  exact Layout.not_startsWith_itemScope_of_itemsScope item hmem

theorem member?_eq (id : MemberId) : s'.member? id = s.member? id := by
  unfold member? Snapshot.get?
  rw [hl, h.get?_eq h' hl fun hscope => hk _ hscope fun item =>
    s.layout.not_memberKey_startsWith_itemScope id item]

theorem item?_eq (id : String) : s'.item? id = s.item? id := by
  unfold item? Snapshot.get?
  rw [hl, h.get?_eq h' hl fun hscope => hk _ hscope fun item =>
    s.layout.not_itemKey_startsWith_itemScope item id]

end Frame

end Mirrors

/-- Some items have come to show other replicas, and no other key under the root has changed. -/
structure Shift (c c' : Contents) (shown : List (String × List Replica)) (s s' : Snapshot) : Prop where
  before : s.Mirrors c
  after : s'.Mirrors c'
  layout_eq : s'.layout = s.layout
  shows : ∀ t ∈ shown, c'.Shows s.layout t.1 t.2
  frame : ∀ k, k.startsWith s.layout.scope = true →
    (∀ t ∈ shown, ¬ k.startsWith (s.layout.itemScope t.1) = true) → c'.get? k = c.get? k
  named : ∀ t ∈ shown, t.1 ∈ s.items.map (·.value.id)
  slots : ∀ t ∈ shown, ∀ r ∈ t.2, r.slot < Layout.slotLimit

/-- What some items show can be read, and so there is a snapshot afterwards. -/
theorem exists_shift {c c' : Contents} {s : Snapshot} (shown : List (String × List Replica))
    (revision : Int) (before : s.Mirrors c) (shows : ∀ t ∈ shown, c'.Shows s.layout t.1 t.2)
    (frame : ∀ k, k.startsWith s.layout.scope = true →
      (∀ t ∈ shown, ¬ k.startsWith (s.layout.itemScope t.1) = true) → c'.get? k = c.get? k)
    (named : ∀ t ∈ shown, t.1 ∈ s.items.map (·.value.id))
    (slots : ∀ t ∈ shown, ∀ r ∈ t.2, r.slot < Layout.slotLimit) :
    ∃ s', ofEntries s.layout revision (c'.entriesUnder s.layout.scope) = .ok s' ∧
      Shift c c' shown s s' := by
  have hread : ∀ e ∈ c'.entriesUnder s.layout.scope, ∃ d, Resource.decode s.layout e = .ok d := by
    intro e he
    obtain ⟨hget, hscope⟩ := Contents.mem_entriesUnder_iff.1 he
    -- a key is that of a replica that is shown, or it is as it was
    by_cases hshown : ∃ t ∈ shown, e.key.startsWith (s.layout.itemScope t.1) = true
    · obtain ⟨t, ht, hk⟩ := hshown
      have hsome : (c'.value? e.key).isSome = true := by
        unfold Contents.value?
        rw [hget]
        rfl
      obtain ⟨r, hr, hkey⟩ := List.mem_map.1 ((shows t ht).only e.key hk hsome)
      obtain ⟨i, hi, hid⟩ := List.mem_map.1 (named t ht)
      have hsegment : IsSegment t.1 :=
        hid ▸ (parse_of_mem_items (faithful_of_ofEntries before.ofEntries_eq) hi).2
      have hvalue := (shows t ht).value r hr
      rw [hkey] at hvalue
      unfold Contents.value? at hvalue
      rw [hget] at hvalue
      exact Resource.exists_decode_of_parse
        (hkey ▸ (((shows t ht).named r hr).parse_eq_ok_iff hsegment).2 ⟨rfl, slots t ht r hr⟩)
        (Option.some.inj hvalue)
    · have hsame := frame e.key hscope fun t ht hk => hshown ⟨t, ht, hk⟩
      obtain ⟨v, -, hd⟩ := (agreesAt_some (hsame ▸ hget)).1 (before.inside e.key hscope)
      exact ⟨_, hd⟩
  obtain ⟨s', hs'⟩ := exists_ofEntries revision hread
  obtain ⟨hl, -, hafter⟩ := ofEntries_entriesUnder_eq_ok_iff.1 hs'
  exact ⟨s', hs', before, hafter, hl, shows, frame, named, slots⟩

namespace Shift

variable {c c' : Contents} {shown : List (String × List Replica)} {s s' : Snapshot}

theorem faithful (h : Shift c c' shown s s') : s.IsFaithful :=
  h.before.faithful

/-! ### What stays -/

theorem get?_eq_of_get?_eq (h : Shift c c' shown s s') {k : String}
    (hk : k.startsWith s.layout.scope = true → c'.get? k = c.get? k) :
    s'.entries.get? k = s.entries.get? k :=
  h.before.get?_eq h.after h.layout_eq hk

theorem get?_of_not_itemScope (h : Shift c c' shown s s') (k : String)
    (hscope : k.startsWith s.layout.scope = true)
    (hk : ∀ item, ¬ k.startsWith (s.layout.itemScope item) = true) : c'.get? k = c.get? k :=
  h.frame k hscope fun t _ => hk t.1

theorem members_eq (h : Shift c c' shown s s') : s'.members = s.members :=
  h.before.members_eq h.after h.layout_eq h.get?_of_not_itemScope

theorem items_eq (h : Shift c c' shown s s') : s'.items = s.items :=
  h.before.items_eq h.after h.layout_eq h.get?_of_not_itemScope

theorem member?_eq (h : Shift c c' shown s s') (id : MemberId) : s'.member? id = s.member? id :=
  h.before.member?_eq h.after h.layout_eq h.get?_of_not_itemScope id

theorem item?_eq (h : Shift c c' shown s s') (id : String) : s'.item? id = s.item? id :=
  h.before.item?_eq h.after h.layout_eq h.get?_of_not_itemScope id

theorem demand_eq (h : Shift c c' shown s s') (item : Item) : s'.demand item = s.demand item := by
  unfold demand openMembers
  rw [h.members_eq]

theorem isAmple (h : Shift c c' shown s s') (hs : s.IsAmple) : s'.IsAmple := by
  unfold IsAmple
  rw [h.members_eq, h.items_eq]
  exact hs

/-! ### What the items show -/

theorem mem_itemIds (h : Shift c c' shown s s') {id : String} (hid : id ∈ s.items.map (·.value.id)) :
    id ∈ Roster.itemIds s ∧ id ∈ Roster.itemIds s' := by
  obtain ⟨i, hi, rfl⟩ := List.mem_map.1 hid
  exact ⟨Roster.mem_itemIds_iff.2 (.inl ⟨i, hi, rfl⟩),
    Roster.mem_itemIds_iff.2 (.inl ⟨i, h.items_eq ▸ hi, rfl⟩)⟩

theorem isSegment (h : Shift c c' shown s s') {id : String} (hid : id ∈ s.items.map (·.value.id)) :
    IsSegment id :=
  Roster.isSegment_of_mem_itemIds h.faithful (h.mem_itemIds hid).1

theorem held_of_mem (h : Shift c c' shown s s') {t : String × List Replica} (ht : t ∈ shown) :
    (s'.held t.1).Perm (t.2.map (·.assignment)) :=
  h.after.held_perm_of_shows (h.mem_itemIds (h.named t ht)).2 (h.layout_eq ▸ h.shows t ht) (h.slots t ht)

/-- The other items show what they showed before. -/
theorem held_of_not_mem (h : Shift c c' shown s s') {id : String} (hid : id ∈ s.items.map (·.value.id))
    (hne : ∀ t ∈ shown, t.1 ≠ id) : (s'.held id).Perm (s.held id) := by
  obtain ⟨hids, hids'⟩ := h.mem_itemIds hid
  refine h.before.held_perm h.after h.layout_eq hids hids' fun k hk => ?_
  refine h.frame k (Layout.startsWith_scope_of_itemScope hk) fun t ht hk' => hne t ht ?_
  exact Layout.eq_of_startsWith_itemScope (h.isSegment (h.named t ht)) (h.isSegment hid) hk' hk

/-- No assignment is of an item that does not exist, if none was before. -/
theorem item_of_mem_assignments (h : Shift c c' shown s s')
    (hs : ∀ a ∈ s.assignments, (s.item? a.value.item).isSome = true) {a : Entry Assignment}
    (ha : a ∈ s'.assignments) : a.value.item ∈ s.items.map (·.value.id) := by
  refine Decidable.byContradiction fun hnone => ?_
  have hfaithful := faithful_of_ofEntries h.after.ofEntries_eq
  have hparse := parse_of_mem_assignments hfaithful ha
  rw [h.layout_eq] at hparse
  have hentry := (mem_assignments_iff hfaithful).1 ha
  rw [h.get?_eq_of_get?_eq fun hscope => h.frame a.key hscope fun t ht hk => hnone ?_] at hentry
  · obtain ⟨i, hi⟩ := Option.isSome_iff_exists.1 (hs a ((mem_assignments_iff h.faithful).2 hentry))
    obtain ⟨hmem, hid⟩ := (item?_eq_some_iff h.faithful).1 hi
    exact hnone (List.mem_map.2 ⟨i, hmem, hid⟩)
  · rw [(Layout.startsWith_itemScope_iff hparse (h.isSegment (h.named t ht))).1 hk]
    exact h.named t ht

/-- What is true of the assignments of every item before, and of all that is shown, is true afterwards. -/
theorem held_induct (h : Shift c c' shown s s')
    (hs : ∀ a ∈ s.assignments, (s.item? a.value.item).isSome = true)
    {motive : List Assignment → Prop}
    (hperm : ∀ as as' : List Assignment, as'.Perm as → motive as → motive as') (hnil : motive [])
    (hheld : ∀ id, motive (s.held id)) (hshown : ∀ t ∈ shown, motive (t.2.map (·.assignment)))
    (id : String) : motive (s'.held id) := by
  by_cases hid : id ∈ s.items.map (·.value.id)
  · by_cases htask : ∃ t ∈ shown, t.1 = id
    · obtain ⟨t, ht, rfl⟩ := htask
      exact hperm _ _ (h.held_of_mem ht) (hshown t ht)
    · exact hperm _ _ (h.held_of_not_mem hid fun t ht he => htask ⟨t, ht, he⟩) (hheld id)
  · rw [held_eq_nil fun hheld => ?_]
    · exact hnil
    obtain ⟨e, he, rfl⟩ := mem_heldItems_iff.1 hheld
    exact hid (h.item_of_mem_assignments hs he)

/-- A snapshot stays orderly if what is shown is in order. -/
theorem orderly (h : Shift c c' shown s s') (hs : s.IsOrderly)
    (hmember : ∀ t ∈ shown, ∀ r ∈ t.2, (s.member? r.holder).isSome = true)
    (hdistinct : ∀ t ∈ shown, (t.2.map (·.holder)).Nodup)
    (hdense : ∀ t ∈ shown, (t.2.map (·.slot)).Perm (List.range t.2.length)) : s'.IsOrderly where
  faithful := faithful_of_ofEntries h.after.ofEntries_eq
  items := fun a ha => by
    obtain ⟨i, hi, hid⟩ := List.mem_map.1 (h.item_of_mem_assignments hs.items ha)
    rw [h.item?_eq, ← hid, (item?_eq_some_iff hs.faithful).2 ⟨hi, rfl⟩]
    rfl
  holders := fun a ha => by
    have hall : ∀ a' ∈ s'.held a.value.item, (s.member? a'.holder).isSome = true := by
      refine h.held_induct hs.items (motive := fun as => ∀ a' ∈ as, (s.member? a'.holder).isSome = true)
        (fun _ _ hp hall a' ha' => hall a' (hp.mem_iff.1 ha')) (fun _ ha' => nomatch ha')
        (fun id a' ha' => ?_) (fun t ht a' ha' => ?_) _
      · obtain ⟨e, he, rfl, -⟩ := mem_held_iff.1 ha'
        exact hs.holders e he
      · obtain ⟨r, hr, rfl⟩ := List.mem_map.1 ha'
        exact hmember t ht r hr
    rw [h.member?_eq]
    exact hall _ (mem_held_iff.2 ⟨a, ha, rfl, rfl⟩)
  distinct := by
    refine h.held_induct hs.items (motive := fun as => (as.map (·.holder)).Nodup)
      (fun _ _ hp hall => (hp.map (·.holder)).nodup_iff.2 hall) List.nodup_nil hs.distinct
      fun t ht => ?_
    rw [List.map_map]
    exact hdistinct t ht
  dense := by
    refine h.held_induct hs.items (motive := fun as => (as.map (·.slot)).Perm (List.range as.length))
      (fun _ _ hp hall => (hp.map _).trans (hp.length_eq ▸ hall)) (List.Perm.refl _) hs.dense
      fun t ht => ?_
    rw [List.map_map, List.length_map]
    exact hdense t ht

end Shift

/-! ### Shares that are carried out -/

/-- Shares that were planned for an orderly snapshot are carried out on contents that may have changed
since, but for the members and the items. -/
structure Landing (q : Snapshot) (v : Viewpoint) (ts : List (Nat × Planned)) (c c' : Contents)
    (s : Snapshot) : Prop where
  before : s.Mirrors c
  effect : Effect s.layout v ts c c'
  spot : ∀ t ∈ ts, ∃ g item room, Spot q g item room ∧
    t.2 = .placed item g.replicas (placement q g item room)
  members : q.members = s.members
  items : q.items = s.items
  length_le : ∀ t ∈ ts, (v.outcome t.1 t.2).length ≤ Layout.slotLimit

namespace Landing

variable {q : Snapshot} {v : Viewpoint} {ts : List (Nat × Planned)} {c c' : Contents} {s s' : Snapshot}

/-- The items of the shares with their outcomes. -/
def shown (v : Viewpoint) (ts : List (Nat × Planned)) : List (String × List Replica) :=
  ts.map fun t => (t.2.name, v.outcome t.1 t.2)

theorem mem_shown {t : Nat × Planned} (ht : t ∈ ts) : (t.2.name, v.outcome t.1 t.2) ∈ shown v ts :=
  List.mem_map_of_mem (f := fun t : Nat × Planned => (t.2.name, v.outcome t.1 t.2)) ht

theorem exists_item (h : Landing q v ts c c' s) {t : Nat × Planned} (ht : t ∈ ts) :
    ∃ i ∈ s.items, i.value.id = t.2.name ∧ t.2.item? = some i.value := by
  obtain ⟨g, item, room, hspot, he⟩ := h.spot t ht
  rw [he]
  exact ⟨item, h.items ▸ (Roster.id_of_wanted hspot.orderly.faithful hspot.group hspot.wanted).1, rfl, rfl⟩

/-- In an outcome every holder is a member, nobody holds the item twice and the slots are dense. -/
theorem outcome_orderly (h : Landing q v ts c c' s) {t : Nat × Planned} (ht : t ∈ ts) :
    (∀ r ∈ v.outcome t.1 t.2, ∃ e ∈ s.members, e.value.id = r.holder) ∧
      ((v.outcome t.1 t.2).map (·.holder)).Nodup ∧
      ((v.outcome t.1 t.2).map (·.slot)).Perm (List.range (v.outcome t.1 t.2).length) := by
  obtain ⟨g, item, room, hspot, he⟩ := h.spot t ht
  rw [he, ← h.members]
  exact ⟨fun r hr => hspot.exists_member_of_mem_placedOutcome hr, hspot.nodup_holders_placedOutcome v t.1,
    hspot.slots_placedOutcome_perm v t.1⟩

theorem shows (h : Landing q v ts c c' s) :
    ∀ t ∈ shown v ts, c'.Shows s.layout t.1 t.2 :=
  List.forall_mem_map.2 h.effect.after

theorem frame (h : Landing q v ts c c' s) {k : String}
    (hk : ∀ t ∈ shown v ts, ¬ k.startsWith (s.layout.itemScope t.1) = true) : c'.get? k = c.get? k :=
  h.effect.elsewhere k fun t ht => hk (t.2.name, v.outcome t.1 t.2) (mem_shown ht)

theorem named (h : Landing q v ts c c' s) : ∀ t ∈ shown v ts, t.1 ∈ s.items.map (·.value.id) :=
  List.forall_mem_map.2 fun t ht => by
    obtain ⟨i, hi, hid, -⟩ := h.exists_item ht
    exact List.mem_map.2 ⟨i, hi, hid⟩

theorem slots (h : Landing q v ts c c' s) : ∀ t ∈ shown v ts, ∀ r ∈ t.2, r.slot < Layout.slotLimit :=
  List.forall_mem_map.2 fun t ht r hr => by
    have hslot := (h.outcome_orderly ht).2.2.mem_iff.1 (List.mem_map_of_mem hr)
    exact Nat.lt_of_lt_of_le (List.mem_range.1 hslot) (h.length_le t ht)

theorem shift (h : Landing q v ts c c' s) (hafter : s'.Mirrors c') (hl : s'.layout = s.layout) :
    Shift c c' (shown v ts) s s' :=
  ⟨h.before, hafter, hl, h.shows, fun _ _ hk => h.frame hk, h.named, h.slots⟩

theorem exists_shift (h : Landing q v ts c c' s) (revision : Int) :
    ∃ s', ofEntries s.layout revision (c'.entriesUnder s.layout.scope) = .ok s' ∧
      Shift c c' (shown v ts) s s' :=
  Snapshot.exists_shift _ revision h.before h.shows (fun _ _ hk => h.frame hk) h.named h.slots

/-- What was orderly stays so. -/
theorem orderly (h : Landing q v ts c c' s) (hs : s.IsOrderly) (hshift : Shift c c' (shown v ts) s s') :
    s'.IsOrderly := by
  refine hshift.orderly hs (List.forall_mem_map.2 fun t ht r hr => ?_)
    (List.forall_mem_map.2 fun t ht => (h.outcome_orderly ht).2.1)
    (List.forall_mem_map.2 fun t ht => (h.outcome_orderly ht).2.2)
  obtain ⟨e, hmem, hid⟩ := (h.outcome_orderly ht).1 r hr
  exact Option.isSome_iff_exists.2 ⟨e, (member?_eq_some_iff hs.faithful).2 ⟨hmem, hid⟩⟩

end Landing

end Snapshot

end Allotment
