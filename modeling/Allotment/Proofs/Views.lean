import Allotment.Proofs.Cache.Apply
import Mathlib.Data.List.Nodup

/-!
# The views of a snapshot

A snapshot that has been read and then kept current is faithful (`Snapshot.IsFaithful.applyAll`).  So what is
of one kind lies under the scope of the kind, and each view is the snapshot with everything of another kind left
out (`members_eq`, `items_eq`, `assignments_eq`).  Hence every entry is in one of the views, once
(`partition_perm`), the assignments of an item are those that name it (`itemAssignments_eq`), and a member
or an item is found wherever it is (`map_member?_eq_some_iff`, `map_item?_eq_some_iff`).
-/

namespace Allotment

/-- An entry of one kind among entries of all kinds. -/
def Entry.lift {α : Type} (kind : α → Resource) (e : Entry α) : Entry Resource :=
  e.withValue (kind e.value)

/-- Where in a keyspace a resource is stored, by its kind. -/
def Resource.subtree (l : Layout) : Resource → String
  | .member _ => l.membersScope
  | .item _ => l.itemsScope
  | .assignment _ => l.assignmentsScope

namespace Snapshot

variable {s s' : Snapshot} {l : Layout} {revision expected : Int} {es : List (Entry Bytes)} {rs : List Response}
  {r : Response} {e : Change} {m m' : KeyMap (Stamped Resource)} {d : Entry Resource} {item : String}

/-! ### Keeping current -/

theorem IsFaithful.applyChange (h : IsFaithful { s with entries := m })
    (he : s.applyChange expected m e = .ok m') : IsFaithful { s with entries := m' } := by
  obtain ⟨-, ⟨stored, d, rfl, hd, rfl⟩ | ⟨k', r, rfl, rfl⟩⟩ := applyChange_eq_ok_iff.1 he
  · obtain ⟨resource, rfl, hparse, -⟩ := Resource.decode_eq_ok_iff.1 hd
    intro k v hv
    have hcases := (KeyMap.get?_insert _ _ _ _).symm.trans hv
    split at hcases
    next hk =>
      obtain rfl := Option.some.inj hcases
      rw [hk]
      exact hparse
    next => exact h k v hcases
  · intro k v hv
    have hcases := (KeyMap.get?_erase _ _ _).symm.trans hv
    split at hcases
    next => exact nomatch hcases
    next => exact h k v hcases

theorem IsFaithful.foldlM_applyChange {es : List Change} (h : IsFaithful { s with entries := m })
    (he : es.foldlM (s.applyChange expected) m = .ok m') : IsFaithful { s with entries := m' } := by
  induction es generalizing m with
  | nil =>
    obtain rfl := Except.ok.inj he
    exact h
  | cons e es ih =>
    rw [List.foldlM_cons] at he
    cases hm : s.applyChange expected m e with
    | error fault => rw [hm] at he; exact nomatch he
    | ok m₁ =>
      rw [hm] at he
      exact ih (h.applyChange hm) he

theorem IsFaithful.apply (h : s.IsFaithful) (hs : s.apply r = .ok s') : s'.IsFaithful := by
  obtain ⟨-, entries, hfold, rfl⟩ := apply_eq_ok_iff.1 hs
  exact h.foldlM_applyChange hfold

/-- Changes that are not refused keep a snapshot faithful. -/
theorem IsFaithful.applyAll (h : s.IsFaithful) (hs : s.applyAll rs = .ok s') : s'.IsFaithful := by
  induction rs generalizing s with
  | nil =>
    obtain rfl := Except.ok.inj hs
    exact h
  | cons r rs ih =>
    cases hr : s.apply r with
    | error fault =>
      unfold Snapshot.applyAll at hs
      rw [List.foldlM_cons, hr] at hs
      exact nomatch hs
    | ok s₁ => exact ih (h.apply hr) (applyAll_cons hr rs ▸ hs)

/-! ### Views and entries -/

theorem mem_toList_iff : d ∈ s.toList ↔ s.entries.get? d.key = some d.toStamped := by
  rw [KeyMap.get?_eq_some_iff, toList, List.mem_map]
  constructor
  · rintro ⟨b, hb, rfl⟩
    exact hb
  · exact fun h => ⟨_, h, rfl⟩

theorem view_eq_filterMap {α : Type} (s : Snapshot) (scope : String) (kind : Resource → Option α) :
    s.view scope kind = s.toList.filterMap fun d => if d.key.startsWith scope then pick? kind d else none := by
  unfold view toList
  rw [KeyMap.under_eq_filter, List.filterMap_map, List.filterMap_map, List.filterMap_filter]
  rfl

theorem IsFaithful.parse (hs : s.IsFaithful) (hd : d ∈ s.toList) :
    s.layout.parse d.key = .ok d.value.identity :=
  hs _ _ (mem_toList_iff.1 hd)

/-- Every entry lies in the subtree of its kind. -/
theorem IsFaithful.startsWith_subtree (hs : s.IsFaithful) (hd : d ∈ s.toList) :
    d.key.startsWith (d.value.subtree s.layout) = true := by
  have hparse := hs.parse hd
  cases hv : d.value with
  | member m =>
    rw [hv] at hparse
    rw [(Layout.parse_eq_member_iff.1 hparse).1]
    exact Layout.startsWith_memberKey _ _
  | item i =>
    rw [hv] at hparse
    rw [(Layout.parse_eq_item_iff.1 hparse).1]
    exact Layout.startsWith_itemKey _ _
  | assignment a =>
    rw [hv] at hparse
    exact Layout.startsWith_assignmentsScope_of_parse hparse

/-- The view of a kind in its subtree leaves out nothing of that kind. -/
theorem IsFaithful.view_eq {α : Type} (hs : s.IsFaithful) {scope : String} {kind : Resource → Option α}
    (h : ∀ v a, kind v = some a → v.subtree s.layout = scope) :
    s.view scope kind = s.toList.filterMap (pick? kind) := by
  rw [view_eq_filterMap]
  refine List.filterMap_congr fun d hd => ?_
  cases hkind : kind d.value with
  | none => rw [pick?, hkind]; exact ite_self _
  | some a => rw [← h _ a hkind, if_pos (hs.startsWith_subtree hd)]

theorem members_eq (hs : s.IsFaithful) : s.members = s.toList.filterMap (pick? Resource.member?) :=
  hs.view_eq fun v a h => by cases v <;> cases h; rfl

theorem items_eq (hs : s.IsFaithful) : s.items = s.toList.filterMap (pick? Resource.item?) :=
  hs.view_eq fun v a h => by cases v <;> cases h; rfl

theorem assignments_eq (hs : s.IsFaithful) :
    s.assignments = s.toList.filterMap (pick? Resource.assignment?) :=
  hs.view_eq fun v a h => by cases v <;> cases h; rfl

/-- The assignments under the scope of an item are those that name it. -/
theorem itemAssignments_eq (hs : s.IsFaithful) (hi : IsSegment item) :
    s.itemAssignments item = s.assignments.filter (·.value.item == item) := by
  rw [assignments_eq hs, List.filter_filterMap, itemAssignments, view_eq_filterMap]
  refine List.filterMap_congr fun d hd => ?_
  have hparse := hs.parse hd
  cases hv : d.value with
  | member m => simp [pick?, hv, Resource.assignment?]
  | item i => simp [pick?, hv, Resource.assignment?]
  | assignment a =>
    rw [hv] at hparse
    have hpick : pick? Resource.assignment? d = some (d.withValue a) := by
      rw [pick?, hv]
      rfl
    have hscope := Layout.startsWith_itemScope_iff hparse hi
    rw [hpick, Option.filter_some]
    simp only [hscope, Entry.withValue, beq_iff_eq]

/-! ### Partition -/

/-- Entries of all kinds, told apart by kind. -/
theorem perm_of_kinds (ds : List (Entry Resource)) :
    ((ds.filterMap (pick? Resource.member?)).map (Entry.lift .member) ++
      (ds.filterMap (pick? Resource.item?)).map (Entry.lift .item) ++
        (ds.filterMap (pick? Resource.assignment?)).map (Entry.lift .assignment)).Perm ds := by
  induction ds with
  | nil => exact .nil
  | cons d ds ih =>
    obtain ⟨⟨v, created, modified⟩, key⟩ := d
    cases v with
    | member m => exact ih.cons _
    | item i =>
      refine .trans ?_ (ih.cons _)
      exact List.Perm.append_right _ List.perm_middle
    | assignment a => exact .trans List.perm_middle (ih.cons _)

/-- Every entry is in one of the views, once. -/
theorem partition_perm (hs : s.IsFaithful) :
    (s.members.map (Entry.lift .member) ++ s.items.map (Entry.lift .item) ++
      s.assignments.map (Entry.lift .assignment)).Perm s.toList := by
  rw [members_eq hs, items_eq hs, assignments_eq hs]
  exact perm_of_kinds s.toList

theorem toList_ascending (s : Snapshot) : (s.toList.map (·.key)).Pairwise (· < ·) := by
  rw [toList, List.map_map]
  exact List.pairwise_map.2 s.entries.ascending

/-! ### Finding by identity -/

theorem map_member?_eq_some_iff (hs : s.IsFaithful) {id : MemberId} :
    (s.member? id).map (Entry.lift .member) = some d ↔ d ∈ s.toList ∧ d.value.identity = .member id := by
  rw [Option.map_eq_some_iff, mem_toList_iff]
  constructor
  · rintro ⟨e, he, rfl⟩
    obtain ⟨hmem, rfl⟩ := (member?_eq_some_iff hs).1 he
    exact ⟨(mem_members_iff hs).1 hmem, rfl⟩
  · obtain ⟨⟨v, created, modified⟩, key⟩ := d
    rintro ⟨hd, hid⟩
    cases v with
    | member m =>
      exact ⟨⟨⟨m, created, modified⟩, key⟩,
        (member?_eq_some_iff hs).2 ⟨(mem_members_iff hs).2 hd, Identity.member.inj hid⟩, rfl⟩
    | item i => exact nomatch hid
    | assignment a => exact nomatch hid

theorem map_item?_eq_some_iff (hs : s.IsFaithful) {id : String} :
    (s.item? id).map (Entry.lift .item) = some d ↔ d ∈ s.toList ∧ d.value.identity = .item id := by
  rw [Option.map_eq_some_iff, mem_toList_iff]
  constructor
  · rintro ⟨e, he, rfl⟩
    obtain ⟨hmem, rfl⟩ := (item?_eq_some_iff hs).1 he
    exact ⟨(mem_items_iff hs).1 hmem, rfl⟩
  · obtain ⟨⟨v, created, modified⟩, key⟩ := d
    rintro ⟨hd, hid⟩
    cases v with
    | member m => exact nomatch hid
    | item i =>
      exact ⟨⟨⟨i, created, modified⟩, key⟩,
        (item?_eq_some_iff hs).2 ⟨(mem_items_iff hs).2 hd, Identity.item.inj hid⟩, rfl⟩
    | assignment a => exact nomatch hid

/-! ### The views together -/

/-- The views of a snapshot are in key order and divide its entries among them.  The assignments of an item are
those that name it, and asking for a member or an item gives the entry of that identity, if there is one. -/
structure IsPartitioned (s : Snapshot) : Prop where
  members_ascending : (s.members.map (·.key)).Pairwise (· < ·)
  items_ascending : (s.items.map (·.key)).Pairwise (· < ·)
  assignments_ascending : (s.assignments.map (·.key)).Pairwise (· < ·)
  members_items : (s.members.map (·.key)).Disjoint (s.items.map (·.key))
  members_assignments : (s.members.map (·.key)).Disjoint (s.assignments.map (·.key))
  items_assignments : (s.items.map (·.key)).Disjoint (s.assignments.map (·.key))
  perm : (s.members.map (Entry.lift .member) ++ s.items.map (Entry.lift .item) ++
    s.assignments.map (Entry.lift .assignment)).Perm s.toList
  nodup : (s.toList.map (·.key)).Nodup
  itemAssignments : ∀ item, IsSegment item →
    s.itemAssignments item = s.assignments.filter (·.value.item == item)
  member : ∀ id d, (s.member? id).map (Entry.lift .member) = some d ↔
    d ∈ s.toList ∧ d.value.identity = .member id
  item : ∀ id d, (s.item? id).map (Entry.lift .item) = some d ↔
    d ∈ s.toList ∧ d.value.identity = .item id

theorem IsFaithful.isPartitioned (hs : s.IsFaithful) : s.IsPartitioned := by
  have hperm := partition_perm hs
  have hnodup : (s.toList.map (·.key)).Nodup := s.toList_ascending.imp String.ne_of_lt
  have hkeys : (s.members.map (·.key) ++ s.items.map (·.key) ++ s.assignments.map (·.key)).Nodup := by
    have hmap := (hperm.map (·.key)).nodup_iff.2 hnodup
    rw [List.map_append, List.map_append, List.map_map, List.map_map, List.map_map] at hmap
    exact hmap
  obtain ⟨hleft, -, hassignments⟩ := List.nodup_append'.1 hkeys
  obtain ⟨hmembers, hitems⟩ := List.disjoint_append_left.1 hassignments
  exact {
    members_ascending := s.view_ascending _ _
    items_ascending := s.view_ascending _ _
    assignments_ascending := s.view_ascending _ _
    members_items := List.disjoint_of_nodup_append hleft
    members_assignments := hmembers
    items_assignments := hitems
    perm := hperm
    nodup := hnodup
    itemAssignments := fun _ hi => itemAssignments_eq hs hi
    member := fun _ _ => map_member?_eq_some_iff hs
    item := fun _ _ => map_item?_eq_some_iff hs }

/-- Whatever a snapshot has been read from and has been given since, its views are an exact partition of it. -/
theorem partitioned_of_applyAll {s₀ : Snapshot} (hread : ofEntries l revision es = .ok s₀)
    (hkept : s₀.applyAll rs = .ok s) : s.IsPartitioned :=
  ((faithful_of_ofEntries hread).applyAll hkept).isPartitioned

/-- Names that go on from one another, below and above the separator. -/
def neighbours : List (Entry Bytes) :=
  [⟨⟨Item.encode 1, 1, 1⟩, "/r/items/i1"⟩, ⟨⟨Item.encode 1, 1, 1⟩, "/r/items/i1-"⟩,
    ⟨⟨Member.encode 4, 1, 1⟩, "/r/members/z/m"⟩, ⟨⟨Member.encode 4, 1, 1⟩, "/r/members/z-/m"⟩,
    ⟨⟨Assignment.encode true, 1, 1⟩, "/r/assignments/i1/z/m/0"⟩,
    ⟨⟨Assignment.encode true, 1, 1⟩, "/r/assignments/i1-/z/m/0"⟩,
    ⟨⟨Assignment.encode true, 1, 1⟩, "/r/assignments/i10/z/m/0"⟩]

/-- Another replica comes, and the members are replaced by one more neighbour. -/
def turnover : List Response :=
  [⟨2, [.put ⟨⟨Assignment.encode false, 2, 2⟩, "/r/assignments/i1/z-/m/+1"⟩, .delete "/r/members/z/m" 2]⟩,
    ⟨3, [.put ⟨⟨Member.encode 0, 3, 3⟩, "/r/members/z/m!"⟩]⟩]

/-- The views of neighbours keep them apart. -/
theorem partitioned_of_turnover :
    ∃ s₀ s, ofEntries ⟨"/r"⟩ 1 neighbours = .ok s₀ ∧ s₀.applyAll turnover = .ok s ∧ s.IsPartitioned ∧
      (s.itemAssignments "i1").map (·.key) = ["/r/assignments/i1/z-/m/+1", "/r/assignments/i1/z/m/0"] ∧
      s.member? ⟨"z", "m"⟩ = none ∧ (s.member? ⟨"z", "m!"⟩).isSome = true := by
  have hfacts : (ofEntries ⟨"/r"⟩ 1 neighbours).toOption.any (fun s₀ => (s₀.applyAll turnover).toOption.any
      fun s => decide ((s.itemAssignments "i1").map (·.key) =
          ["/r/assignments/i1/z-/m/+1", "/r/assignments/i1/z/m/0"]) &&
        decide (s.member? ⟨"z", "m"⟩ = none) && (s.member? ⟨"z", "m!"⟩).isSome) = true := by
    decide +kernel
  obtain ⟨s₀, hread, hrest⟩ := (Option.any_eq_true _ _).1 hfacts
  obtain ⟨s, hkept, hfacts⟩ := (Option.any_eq_true _ _).1 hrest
  simp only [Bool.and_eq_true, decide_eq_true_eq] at hfacts
  have hread := toOption_eq_some_iff.1 hread
  have hkept := toOption_eq_some_iff.1 hkept
  exact ⟨s₀, s, hread, hkept, partitioned_of_applyAll hread hkept, hfacts.1.1, hfacts.1.2, hfacts.2⟩

end Snapshot

end Allotment
