import Allotment.Proofs.Agreement
import Allotment.Proofs.Attribute
import Mathlib.Data.List.Nodup

/-!
# Keyspaces read back

The members, items and assignments of an inventory can be stored side by side: their names are segments, their
numbers can be read, and no two of a kind have the same identity (`Inventory`).  A valid identity is read back
from its key (`Layout.parse_keyOf`), and so is a resource from its key and its value
(`Resource.decode_encode`).  Hence different resources have different keys, so that in whatever order they
are read, each ends up under its own (`Inventory.shows_of_perm`), and the views of the snapshot hold exactly the
inventory (`Inventory.exists_snapshot`).
-/

namespace Allotment

/-! ### Keys -/

instance (m : MemberId) : Decidable m.IsValid :=
  inferInstanceAs (Decidable (_ ∧ _))

/-- All names are segments, and a slot is below the limit. -/
def Identity.IsValid : Identity → Prop
  | .member m => m.IsValid
  | .item id => IsSegment id
  | .assignment wanted holder slot => IsSegment wanted ∧ holder.IsValid ∧ slot < Layout.slotLimit

namespace Layout

/-- The key of an identity. -/
def keyOf (l : Layout) : Identity → String
  | .member m => l.memberKey m
  | .item id => l.itemKey id
  | .assignment item holder slot => l.assignmentKey item holder slot

/-- A valid identity is read back from its key. -/
theorem parse_keyOf (l : Layout) {i : Identity} (h : i.IsValid) : l.parse (l.keyOf i) = .ok i := by
  cases i with
  | member m => exact parse_eq_member_iff.2 ⟨rfl, h⟩
  | item id => exact parse_eq_item_iff.2 ⟨rfl, h⟩
  | assignment item holder slot => exact (parse_assignmentKey_eq_ok_iff h.1 h.2.1).2 ⟨rfl, h.2.2⟩

theorem keyOf_injective {l : Layout} {i i' : Identity} (h : i.IsValid) (h' : i'.IsValid)
    (he : l.keyOf i = l.keyOf i') : i = i' := by
  have hparse := l.parse_keyOf h
  rw [he, l.parse_keyOf h'] at hparse
  exact (Except.ok.inj hparse).symm

end Layout

/-! ### Values -/

namespace Resource

/-- The value of a resource. -/
def encode : Resource → Bytes
  | .member m => Member.encode m.limit
  | .item i => Item.encode i.replication
  | .assignment a => Assignment.encode a.consistent

/-- The number that the value of a resource carries can be read. -/
def IsReadable : Resource → Prop
  | .member m => m.limit < attributeLimit
  | .item i => i.replication < attributeLimit
  | .assignment _ => True

theorem decodeAttribute_write (key : String) {n : Nat} (hn : n < attributeLimit) :
    decodeAttribute key (Attribute.write n) = .ok n := by
  have hlt : n < Attribute.signBit := Nat.lt_trans hn (by decide)
  unfold decodeAttribute
  rw [Attribute.read_write hlt]
  exact if_pos hn

theorem ofIdentity_encode (key : String) {r : Resource} (h : r.IsReadable) :
    ofIdentity key r.encode r.identity = .ok r := by
  cases r with
  | member m => exact congrArg (Except.map fun n => member ⟨m.id, n⟩) (decodeAttribute_write key h)
  | item i => exact congrArg (Except.map fun n => item ⟨i.id, n⟩) (decodeAttribute_write key h)
  | assignment a =>
    exact congrArg (Except.map fun c => assignment ⟨a.item, a.holder, a.slot, c⟩)
      (decodeConsistent_eq_ok_iff.2 rfl)

/-- A resource is read back from its key and its value. -/
theorem decode_encode {l : Layout} {r : Resource} (hid : r.identity.IsValid) (h : r.IsReadable)
    {e : Entry Bytes} (hkey : e.key = l.keyOf r.identity) (hvalue : e.value = r.encode) :
    decode l e = .ok (e.withValue r) :=
  decode_eq_ok_iff.2 ⟨r, rfl, hkey ▸ l.parse_keyOf hid, hvalue ▸ ofIdentity_encode e.key h⟩

end Resource

/-! ### Inventories -/

/-- Members, items and assignments that can be stored side by side. -/
structure Inventory where
  members : List Member
  items : List Item
  assignments : List Assignment
  distinctMembers : (members.map (·.id)).Nodup
  distinctItems : (items.map (·.id)).Nodup
  distinctAssignments : (assignments.map fun a => (a.item, a.holder, a.slot)).Nodup
  validMembers : ∀ m ∈ members, m.id.IsValid ∧ m.limit < attributeLimit
  validItems : ∀ i ∈ items, IsSegment i.id ∧ i.replication < attributeLimit
  validAssignments : ∀ a ∈ assignments,
    IsSegment a.item ∧ a.holder.IsValid ∧ a.slot < Layout.slotLimit

namespace Inventory

/-- What the inventory is stored as. -/
def bindings (v : Inventory) (l : Layout) : List (String × Bytes) :=
  (v.members.map fun m => (l.memberKey m.id, Member.encode m.limit)) ++
    (v.items.map fun i => (l.itemKey i.id, Item.encode i.replication)) ++
      v.assignments.map fun a => (l.assignmentKey a.item a.holder a.slot, Assignment.encode a.consistent)

/-- All that is in the inventory. -/
def resources (v : Inventory) : List Resource :=
  v.members.map .member ++ v.items.map .item ++ v.assignments.map .assignment

variable {v : Inventory} {l : Layout} {r r' : Resource}

theorem bindings_eq (v : Inventory) (l : Layout) :
    v.bindings l = v.resources.map fun r => (l.keyOf r.identity, r.encode) := by
  unfold bindings resources
  simp only [List.map_append, List.map_map]
  rfl

theorem member_mem_resources {m : Member} : .member m ∈ v.resources ↔ m ∈ v.members := by
  simp [resources]

theorem item_mem_resources {i : Item} : .item i ∈ v.resources ↔ i ∈ v.items := by
  simp [resources]

theorem assignment_mem_resources {a : Assignment} : .assignment a ∈ v.resources ↔ a ∈ v.assignments := by
  simp [resources]

theorem valid_of_mem (h : r ∈ v.resources) : r.identity.IsValid ∧ r.IsReadable := by
  cases r with
  | member m => exact v.validMembers m (member_mem_resources.1 h)
  | item i => exact v.validItems i (item_mem_resources.1 h)
  | assignment a => exact ⟨v.validAssignments a (assignment_mem_resources.1 h), trivial⟩

theorem eq_of_identity (h : r ∈ v.resources) (h' : r' ∈ v.resources) (he : r.identity = r'.identity) :
    r = r' := by
  cases r with
  | member m =>
    cases r' with
    | member m' =>
      exact congrArg _ (List.inj_on_of_nodup_map v.distinctMembers (member_mem_resources.1 h)
        (member_mem_resources.1 h') (Identity.member.inj he))
    | item i => exact nomatch he
    | assignment a => exact nomatch he
  | item i =>
    cases r' with
    | member m => exact nomatch he
    | item i' =>
      exact congrArg _ (List.inj_on_of_nodup_map v.distinctItems (item_mem_resources.1 h)
        (item_mem_resources.1 h') (Identity.item.inj he))
    | assignment a => exact nomatch he
  | assignment a =>
    cases r' with
    | member m => exact nomatch he
    | item i => exact nomatch he
    | assignment a' =>
      obtain ⟨hitem, hholder, hslot⟩ := Identity.assignment.inj he
      exact congrArg _ (List.inj_on_of_nodup_map v.distinctAssignments (assignment_mem_resources.1 h)
        (assignment_mem_resources.1 h') (by rw [hitem, hholder, hslot]))

/-- The key of a resource is the key of no other. -/
theorem eq_of_keyOf (h : r ∈ v.resources) (h' : r' ∈ v.resources)
    (he : l.keyOf r.identity = l.keyOf r'.identity) : r = r' :=
  eq_of_identity h h' (Layout.keyOf_injective (valid_of_mem h).1 (valid_of_mem h').1 he)

/-! ### Snapshots -/

/-- The entries of a snapshot are the resources of an inventory, each under its key. -/
structure Shows (v : Inventory) (s : Snapshot) : Prop where
  of_get? : ∀ {k w}, s.entries.get? k = some w →
    w.value ∈ v.resources ∧ k = s.layout.keyOf w.value.identity
  exists_get? : ∀ r ∈ v.resources, ∃ w, s.entries.get? (s.layout.keyOf r.identity) = some w ∧ w.value = r

variable {s : Snapshot} {revision : Int} {es : List (Entry Bytes)}

theorem exists_of_mem (hes : (es.map fun e => (e.key, e.value)).Perm (v.bindings l)) {e : Entry Bytes}
    (he : e ∈ es) : ∃ r ∈ v.resources, e.key = l.keyOf r.identity ∧
      Resource.decode l e = .ok (e.withValue r) := by
  have hmem := hes.mem_iff.1 (List.mem_map_of_mem he)
  rw [bindings_eq] at hmem
  obtain ⟨r, hr, heq⟩ := List.mem_map.1 hmem
  obtain ⟨hkey, hvalue⟩ := Prod.mk.inj heq
  obtain ⟨hid, hreadable⟩ := valid_of_mem hr
  exact ⟨r, hr, hkey.symm, Resource.decode_encode hid hreadable hkey.symm hvalue.symm⟩

/-- Whatever the order in which an inventory is read, its snapshot shows it. -/
theorem shows_of_perm (hes : (es.map fun e => (e.key, e.value)).Perm (v.bindings l))
    (hs : Snapshot.ofEntries l revision es = .ok s) : v.Shows s := by
  obtain ⟨rfl, -, hf⟩ := Snapshot.ofEntries_eq_ok hs
  have hof : ∀ {k w}, s.entries.get? k = some w →
      w.value ∈ v.resources ∧ k = s.layout.keyOf w.value.identity := by
    intro k w hw
    rcases Snapshot.foldlM_addEntry_eq_ok hf k with ⟨-, hnone⟩ | ⟨e, w', hlast, hd, hw'⟩
    · rw [hw] at hnone
      exact nomatch hnone
    · obtain rfl : w = w' := Option.some.inj (hw.symm.trans hw')
      obtain ⟨he, rfl⟩ := mem_of_lastOn hlast
      obtain ⟨r, hr, hkey, hd'⟩ := exists_of_mem hes he
      obtain rfl : w.value = r :=
        congrArg (fun d : Entry Resource => d.value) (Except.ok.inj (hd.symm.trans hd'))
      exact ⟨hr, hkey⟩
  refine ⟨hof, fun r hr => ?_⟩
  have hmem : (s.layout.keyOf r.identity, r.encode) ∈ v.bindings s.layout := by
    rw [bindings_eq]
    exact List.mem_map_of_mem hr
  obtain ⟨e, he, heq⟩ := List.mem_map.1 (hes.mem_iff.2 hmem)
  rcases Snapshot.foldlM_addEntry_eq_ok hf (s.layout.keyOf r.identity) with ⟨hlast, -⟩ | ⟨-, w, -, -, hw⟩
  · exact absurd (Prod.mk.inj heq).1 (lastOn_eq_none_iff.1 hlast e he)
  · obtain ⟨hw', hkey⟩ := hof hw
    exact ⟨w, hw, (eq_of_keyOf hr hw' hkey).symm⟩

/-- A view of the resources of one kind holds those of the inventory. -/
theorem Shows.perm_view {α : Type} (h : v.Shows s) (kind : α → Resource) {as : List α} (hnodup : as.Nodup)
    (hmem : ∀ {a}, kind a ∈ v.resources ↔ a ∈ as) {view : List (Entry α)}
    (hkeys : (view.map (·.key)).Nodup) (hview : ∀ {e : Entry α},
      e ∈ view ↔ s.entries.get? e.key = some ⟨kind e.value, e.created, e.modified⟩) :
    (view.map fun e => (e.key, e.value)).Perm
      (as.map fun a => (s.layout.keyOf (kind a).identity, a)) := by
  have hleft : (view.map fun e => (e.key, e.value)).Nodup :=
    .of_map Prod.fst (by rwa [List.map_map])
  have hright : (as.map fun a => (s.layout.keyOf (kind a).identity, a)).Nodup :=
    hnodup.map fun a a' he => (Prod.mk.inj he).2
  refine (List.perm_ext_iff_of_nodup hleft hright).2 fun (k, a) => ?_
  constructor
  · intro hka
    obtain ⟨e, he, heq⟩ := List.mem_map.1 hka
    obtain ⟨rfl, rfl⟩ := Prod.mk.inj heq
    obtain ⟨hr, hkey⟩ := h.of_get? (hview.1 he)
    exact List.mem_map.2 ⟨e.value, hmem.1 hr, by rw [hkey]⟩
  · intro hka
    obtain ⟨a', ha, heq⟩ := List.mem_map.1 hka
    obtain ⟨rfl, rfl⟩ := Prod.mk.inj heq
    obtain ⟨⟨value, created, modified⟩, hw, rfl⟩ := h.exists_get? (kind a') (hmem.2 ha)
    exact List.mem_map.2 ⟨⟨⟨a', created, modified⟩, _⟩, hview.2 hw, rfl⟩

/-- An inventory is read back from what it is stored as, whatever the order and the stamps: the members, the
items and the assignments of the snapshot are those of the inventory, each once. -/
theorem exists_snapshot (v : Inventory) (l : Layout) (revision : Int) {es : List (Entry Bytes)}
    (hes : (es.map fun e => (e.key, e.value)).Perm (v.bindings l)) :
    ∃ s, Snapshot.ofEntries l revision es = .ok s ∧
      (s.members.map fun e => (e.key, e.value)).Perm (v.members.map fun m => (l.memberKey m.id, m)) ∧
      (s.items.map fun e => (e.key, e.value)).Perm (v.items.map fun i => (l.itemKey i.id, i)) ∧
      (s.assignments.map fun e => (e.key, e.value)).Perm
        (v.assignments.map fun a => (l.assignmentKey a.item a.holder a.slot, a)) := by
  obtain ⟨s, hs⟩ := Snapshot.exists_ofEntries revision fun e he => by
    obtain ⟨r, -, -, hd⟩ := exists_of_mem hes he
    exact ⟨_, hd⟩
  have hshows := shows_of_perm hes hs
  have hfaithful := Snapshot.faithful_of_ofEntries hs
  obtain ⟨rfl, -, -⟩ := Snapshot.ofEntries_eq_ok hs
  refine ⟨s, hs, ?_, ?_, ?_⟩
  · exact hshows.perm_view .member (.of_map _ v.distinctMembers) member_mem_resources
      (s.nodup_view _ _) (Snapshot.mem_members_iff hfaithful)
  · exact hshows.perm_view .item (.of_map _ v.distinctItems) item_mem_resources
      (s.nodup_view _ _) (Snapshot.mem_items_iff hfaithful)
  · exact hshows.perm_view .assignment (.of_map _ v.distinctAssignments) assignment_mem_resources
      (s.nodup_view _ _) (Snapshot.mem_assignments_iff hfaithful)

/-- Names that are those of subtrees, or that sort before the separator, and the largest numbers. -/
def oddments : Inventory where
  members := [⟨⟨"!", "members"⟩, 0⟩, ⟨⟨"items", "-é"⟩, 4294967295⟩]
  items := [⟨"assignments", 3⟩, ⟨"!", 0⟩]
  assignments := [⟨"assignments", ⟨"!", "members"⟩, 4294967295, true⟩, ⟨"left", ⟨".", "gone"⟩, 0, false⟩]
  distinctMembers := by decide
  distinctItems := by decide
  distinctAssignments := by decide
  validMembers := by decide
  validItems := by decide
  validAssignments := by decide

/-- They are read back in reverse. -/
theorem exists_snapshot_of_oddments :
    ∃ es : List (Entry Bytes), (es.map fun e => (e.key, e.value)) = (oddments.bindings ⟨"/r"⟩).reverse ∧
      ∃ s, Snapshot.ofEntries ⟨"/r"⟩ 7 es = .ok s ∧ (s.members.map (·.value)).Perm oddments.members ∧
        (s.items.map (·.value)).Perm oddments.items ∧
          (s.assignments.map (·.value)).Perm oddments.assignments := by
  have hes : (((oddments.bindings ⟨"/r"⟩).reverse.map fun b => (⟨⟨b.2, 1, 7⟩, b.1⟩ : Entry Bytes)).map
      fun e => (e.key, e.value)) = (oddments.bindings ⟨"/r"⟩).reverse := by
    rw [List.map_map]
    exact List.map_id _
  obtain ⟨s, hs, hmembers, hitems, hassignments⟩ :=
    exists_snapshot oddments ⟨"/r"⟩ 7 (hes ▸ List.reverse_perm _)
  have hmembers := hmembers.map Prod.snd
  have hitems := hitems.map Prod.snd
  have hassignments := hassignments.map Prod.snd
  simp only [List.map_map] at hmembers hitems hassignments
  exact ⟨_, hes, s, hs, hmembers, hitems, hassignments⟩

end Inventory

end Allotment
