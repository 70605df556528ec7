import Allotment.Plan.Roster
import Allotment.Proofs.Keys
import Allotment.Proofs.Store.Changes
import Mathlib.Data.List.Perm.Subperm

/-!
# Assignments as keys

A holding is what an assignment key stands for.  `Contents.slots` are the slots of an item and
`Contents.load` is the number of assignment keys of a member, both read off the keys of a store and not
off any snapshot.  They change only with the keys: `slots_perm_of_keys` and `load_le_of_keys`.  An item
shows some replicas in the contents if its scope holds exactly their keys (`Contents.Shows`), and then
its slots and its part of every load are those of the replicas (`Shows.slots_perm`, `Shows.load_eq`).
-/

namespace Allotment

/-- What an assignment key stands for. -/
structure Holding where
  item : String
  holder : MemberId
  slot : Nat
  deriving DecidableEq, Repr

/-- The holding of a key, if it is an assignment key. -/
def Layout.holding? (l : Layout) (key : String) : Option Holding :=
  match l.parse key with
  | .ok (.assignment item holder slot) => some ⟨item, holder, slot⟩
  | _ => none

theorem Layout.holding?_eq_some_iff {l : Layout} {key : String} {h : Holding} :
    l.holding? key = some h ↔ l.parse key = .ok (.assignment h.item h.holder h.slot) := by
  unfold holding?
  cases h
  constructor
  · intro he
    split at he
    next hp =>
      obtain ⟨rfl, rfl, rfl⟩ := Holding.mk.inj (Option.some.inj he)
      exact hp
    next => exact nomatch he
  · intro hp
    rw [hp]

/-! ### Keys -/

namespace Contents

/-- The live keys. -/
def keys (c : Contents) : List String :=
  c.bindings.map (·.1)

theorem mem_keys_iff {c : Contents} {k : String} : k ∈ c.keys ↔ (c.value? k).isSome := by
  rw [isSome_value?, Option.isSome_iff_exists]
  simp [keys, KeyMap.get?_eq_some_iff]

/-- A key that is there after some writes was there before, or it is put. -/
theorem mem_keys_of_mem_keys_write {c : Contents} {n : Int} {ws : List Write} {k : String}
    (h : k ∈ (c.write n ws).keys) : k ∈ c.keys ∨ ∃ v, .put k v ∈ ws := by
  rw [mem_keys_iff, value?_write] at h
  cases hlast : lastOn Write.key ws k with
  | none =>
    rw [hlast] at h
    exact .inl (mem_keys_iff.2 h)
  | some w =>
    obtain ⟨hw, rfl⟩ := mem_of_lastOn hlast
    rw [hlast] at h
    cases w with
    | put k v => exact .inr ⟨v, hw⟩
    | delete k => exact nomatch h

theorem nodup_keys (c : Contents) : c.keys.Nodup := by
  refine List.Pairwise.imp ?_ (List.pairwise_map.2 c.ascending)
  rintro a _ h rfl
  exact String.lt_irrefl _ h

theorem filter_keys_perm {c c' : Contents} (p : String → Bool)
    (h : ∀ k, p k = true → (c.value? k).isSome = (c'.value? k).isSome) :
    (c.keys.filter p).Perm (c'.keys.filter p) := by
  rw [List.perm_ext_iff_of_nodup (c.nodup_keys.filter p) (c'.nodup_keys.filter p)]
  intro k
  rw [List.mem_filter, List.mem_filter, mem_keys_iff, mem_keys_iff]
  exact and_congr_left fun hp => by rw [h k hp]

/-- The slots of an item, one for each of its assignment keys. -/
def slots (l : Layout) (c : Contents) (item : String) : List Nat :=
  ((c.keys.filterMap l.holding?).filter (·.item == item)).map (·.slot)

/-- The number of assignment keys of a member. -/
def load (l : Layout) (c : Contents) (m : MemberId) : Nat :=
  (c.keys.filterMap l.holding?).countP (·.holder == m)

/-- The assignment that a key stands for. -/
def assignment? (l : Layout) (c : Contents) (k : String) : Option Assignment :=
  (l.holding? k).bind fun a => (c.value? k).map fun value =>
    ⟨a.item, a.holder, a.slot, value == Assignment.consistentValue⟩

/-- Some key stands for a replica of the item on the member, whatever its slot. -/
def Holds (l : Layout) (c : Contents) (item : String) (m : MemberId) : Prop :=
  ∃ k ∈ c.keys, k.startsWith (l.holdingScope item m) = true

/-- Some key stands for a consistent replica of the item on the member, whatever its slot. -/
def HoldsConsistent (l : Layout) (c : Contents) (item : String) (m : MemberId) : Prop :=
  ∃ k, k.startsWith (l.holdingScope item m) = true ∧ c.value? k = some Assignment.consistentValue

variable {l : Layout} {c c' : Contents}

theorem slots_eq (l : Layout) (c : Contents) {item : String} (hi : IsSegment item) :
    c.slots l item =
      (((c.keys.filter (·.startsWith (l.itemScope item))).filterMap l.holding?).map (·.slot)) := by
  unfold slots
  rw [List.filter_filterMap, List.filterMap_filter]
  congr 2
  funext k
  cases hk : l.holding? k with
  | none => simp
  | some h =>
    have hs := Layout.startsWith_itemScope_iff (Layout.holding?_eq_some_iff.1 hk) hi
    by_cases he : h.item = item <;> simp [hs, he, Option.filter]

theorem slots_eq_nil (l : Layout) (c : Contents) {item : String} (hi : ¬ IsSegment item) :
    c.slots l item = [] := by
  unfold slots
  rw [List.map_eq_nil_iff, List.filter_eq_nil_iff]
  intro h hmem he
  obtain ⟨k, -, hk⟩ := List.mem_filterMap.1 hmem
  obtain ⟨-, -, hseg, -⟩ := Layout.parse_eq_assignment_iff.1 (Layout.holding?_eq_some_iff.1 hk)
  exact hi (eq_of_beq he ▸ hseg)

/-- The slots of an item depend on the keys in its scope only. -/
theorem slots_perm_of_keys {item : String}
    (h : ∀ k, (l.holding? k).isSome = true → k.startsWith (l.itemScope item) = true →
      (c.value? k).isSome = (c'.value? k).isSome) :
    (c.slots l item).Perm (c'.slots l item) := by
  by_cases hi : IsSegment item
  · rw [slots_eq l c hi, slots_eq l c' hi]
    have hkey : ∀ c : Contents, (c.keys.filter (·.startsWith (l.itemScope item))).filterMap l.holding? =
        (c.keys.filter fun k => (l.holding? k).isSome && k.startsWith (l.itemScope item)).filterMap
          l.holding? := by
      intro c
      rw [List.filterMap_filter, List.filterMap_filter]
      congr 1
      funext k
      cases l.holding? k <;> simp
    rw [hkey c, hkey c']
    refine ((filter_keys_perm _ fun k hk => ?_).filterMap _).map _
    rw [Bool.and_eq_true] at hk
    exact h k hk.1 hk.2
  · rw [slots_eq_nil l c hi, slots_eq_nil l c' hi]

theorem load_eq (l : Layout) (c : Contents) (m : MemberId) :
    c.load l m = c.keys.countP fun k => (l.holding? k).any (·.holder == m) := by
  unfold load
  rw [List.countP_filterMap]
  congr 1
  funext k
  cases l.holding? k <;> simp

/-- A load grows only with new assignment keys. -/
theorem load_le_of_keys (m : MemberId)
    (h : ∀ k, (l.holding? k).isSome = true → (c'.value? k).isSome = true →
      (c.value? k).isSome = true) : c'.load l m ≤ c.load l m := by
  rw [load_eq, load_eq, List.countP_eq_length_filter, List.countP_eq_length_filter]
  refine (List.Nodup.subperm (c'.nodup_keys.filter _) fun k hk => ?_).length_le
  obtain ⟨hmem, hm⟩ := List.mem_filter.1 hk
  refine List.mem_filter.2 ⟨mem_keys_iff.2 (h k ?_ (mem_keys_iff.1 hmem)), hm⟩
  cases hh : l.holding? k with
  | none => rw [hh] at hm; exact nomatch hm
  | some _ => rfl

end Contents

/-! ### Named replicas -/

/-- The key of a replica tells its item and its holder, and also its slot if that is below the limit. -/
structure Replica.IsNamed (l : Layout) (item : String) (r : Replica) : Prop where
  item_eq : r.assignment.item = item
  holder : r.holder.IsValid
  key : ∃ t, r.key = l.holdingScope item r.holder ++ t ∧ IsSegment t ∧
    (Numeral.read Layout.slotLimit t.toList = .ok r.slot ∨ t = Numeral.text r.slot)

namespace Replica.IsNamed

variable {l : Layout} {item : String} {r : Replica}

theorem of_parse (hi : r.assignment.item = item)
    (h : l.parse r.key = .ok (.assignment item r.holder r.slot)) : r.IsNamed l item := by
  obtain ⟨t, hk, -, hm, ht, hn⟩ := Layout.parse_eq_assignment_iff.1 h
  exact ⟨hi, hm, t, hk, ht, .inl hn⟩

theorem of_assignmentKey (hi : r.assignment.item = item) (hm : r.holder.IsValid)
    (h : r.key = l.assignmentKey item r.holder r.slot) : r.IsNamed l item := by
  refine ⟨hi, hm, _, ?_, isSegment_numeral r.slot, .inr rfl⟩
  rw [h, Layout.assignmentKey_eq]
  rfl

theorem startsWith (h : r.IsNamed l item) : r.key.startsWith (l.holdingScope item r.holder) := by
  obtain ⟨t, hk, -⟩ := h.key
  rw [String.startsWith_string_iff, hk, String.toList_append]
  exact List.prefix_append _ _

/-- The key of a replica lies under its own holder only. -/
theorem startsWith_holdingScope_iff (h : r.IsNamed l item) {m : MemberId} (hm : m.IsValid) :
    r.key.startsWith (l.holdingScope item m) ↔ r.holder = m := by
  constructor
  · intro hs
    obtain ⟨t, hk, -⟩ := h.key
    have hkey : r.key.toList = l.root.toList ++ "/assignments/".toList ++ (item.toList ++ '/' ::
        (r.holder.zone.toList ++ '/' :: (r.holder.id.toList ++ '/' :: t.toList))) := by
      rw [hk]
      simp [Layout.holdingScope, Layout.itemScope]
    rw [String.startsWith_string_iff, hkey, Layout.toList_holdingScope,
      List.prefix_append_right_inj] at hs
    obtain ⟨u, hu⟩ := hs
    simp only [List.append_assoc, List.cons_append, List.append_cancel_left_eq, List.cons.injEq,
      true_and] at hu
    have hprefix : (m.zone.toList ++ '/' :: (m.id.toList ++ '/' :: u)) <+:
        (r.holder.zone.toList ++ '/' :: (r.holder.id.toList ++ '/' :: t.toList)) := by
      rw [← hu]
      simp
    obtain ⟨hz, hrest⟩ := (Layout.prefix_segment_iff hm.1.2 h.holder.1.2).1 hprefix
    obtain ⟨hi, -⟩ := (Layout.prefix_segment_iff hm.2.2 h.holder.2.2).1 hrest
    exact MemberId.eq_of_toList hz.symm hi.symm
  · rintro rfl
    exact h.startsWith

theorem startsWith_itemScope (h : r.IsNamed l item) : r.key.startsWith (l.itemScope item) := by
  obtain ⟨t, hk, -⟩ := h.key
  rw [String.startsWith_string_iff, hk]
  simp [Layout.holdingScope]

theorem parse_eq_ok_iff (hi : IsSegment item) (h : r.IsNamed l item) {identity : Identity} :
    l.parse r.key = .ok identity ↔
      identity = .assignment item r.holder r.slot ∧ r.slot < Layout.slotLimit := by
  obtain ⟨t, hk, ht, hn | rfl⟩ := h.key
  · have hp : l.parse r.key = .ok (.assignment item r.holder r.slot) :=
      Layout.parse_eq_assignment_iff.2 ⟨t, hk, hi, h.holder, ht, hn⟩
    rw [hp, Except.ok.injEq, and_iff_left (Numeral.lt_of_read hn), eq_comm]
  · have hk' : r.key = l.assignmentKey item r.holder r.slot := by
      rw [hk, Layout.assignmentKey_eq]
      rfl
    rw [hk']
    exact Layout.parse_assignmentKey_eq_ok_iff hi h.holder

theorem holding?_eq (hi : IsSegment item) (h : r.IsNamed l item) :
    l.holding? r.key = if r.slot < Layout.slotLimit then some ⟨item, r.holder, r.slot⟩ else none := by
  split
  next hs =>
    rw [Layout.holding?_eq_some_iff]
    exact (h.parse_eq_ok_iff hi).2 ⟨rfl, hs⟩
  next hs =>
    cases hk : l.holding? r.key with
    | none => rfl
    | some a =>
      have hp := Layout.holding?_eq_some_iff.1 hk
      exact absurd ((h.parse_eq_ok_iff hi).1 hp).2 hs

/-- A replica that is named after its slot shares its key with no replica of another slot. -/
theorem slot_eq_of_key (hi : IsSegment item) {r' : Replica} (h : r.IsNamed l item)
    (h' : r'.IsNamed l item) (hk' : r'.key = l.assignmentKey item r'.holder r'.slot)
    (hk : r.key = r'.key) : r.slot = r'.slot := by
  by_cases hs : r.slot < Layout.slotLimit
  · have hp := (h.parse_eq_ok_iff hi).2 ⟨rfl, hs⟩
    rw [hk, h'.parse_eq_ok_iff hi] at hp
    exact (Identity.assignment.inj hp.1).2.2
  · obtain ⟨t, ht, -, hn | rfl⟩ := h.key
    · exact absurd (Numeral.lt_of_read hn) hs
    · have hspell : l.spell ["assignments", item, r.holder.zone, r.holder.id, Numeral.text r.slot] =
          l.spell ["assignments", item, r'.holder.zone, r'.holder.id, Numeral.text r'.slot] := by
        rw [Layout.spell_assignment, Layout.spell_assignment, ← Layout.assignmentKey_eq,
          ← Layout.assignmentKey_eq, ← hk', ← hk, ht, Layout.assignmentKey_eq]
        rfl
      have hseg : ∀ r : Replica, r.holder.IsValid →
          ∀ t ∈ ["assignments", item, r.holder.zone, r.holder.id, Numeral.text r.slot],
            '/' ∉ t.toList := by
        intro r hr
        simpa [hi.2, hr.1.2, hr.2.2] using (isSegment_numeral r.slot).2
      have hsegs := (Layout.segments?_eq_some_iff.2 ⟨rfl, by simp, hseg r h.holder⟩).symm.trans
        (Layout.segments?_eq_some_iff.2 ⟨hspell, by simp, hseg r' h'.holder⟩)
      have htext : Numeral.text r.slot = Numeral.text r'.slot := by
        simp only [Option.some.injEq, List.cons.injEq] at hsegs
        exact hsegs.2.2.2.2.1
      exact Numeral.text_injective htext

end Replica.IsNamed

/-! ### Shown replicas -/

/-- The scope of an item holds exactly the keys of some replicas. -/
structure Contents.Shows (l : Layout) (item : String) (c : Contents) (rs : List Replica) : Prop where
  nodup : (rs.map (·.key)).Nodup
  named : ∀ r ∈ rs, r.IsNamed l item
  value : ∀ r ∈ rs, c.value? r.key = some (Assignment.encode r.assignment.consistent)
  only : ∀ k, k.startsWith (l.itemScope item) = true → (c.value? k).isSome = true →
    k ∈ rs.map (·.key)

namespace Contents.Shows

variable {l : Layout} {item : String} {c c' : Contents} {rs rs' : List Replica}

theorem perm (h : Shows l item c rs) (hp : rs.Perm rs') : Shows l item c rs' where
  nodup := (hp.map _).nodup_iff.1 h.nodup
  named := fun r hr => h.named r (hp.mem_iff.2 hr)
  value := fun r hr => h.value r (hp.mem_iff.2 hr)
  only := fun k hk hv => (hp.map _).mem_iff.1 (h.only k hk hv)

/-- The key of a slot that no replica has is not there. -/
theorem value?_eq_none (h : Shows l item c rs) (hi : IsSegment item) {r : Replica} (hr : r.IsNamed l item)
    (hk : r.key = l.assignmentKey item r.holder r.slot) (hfresh : ∀ q ∈ rs, q.slot ≠ r.slot) :
    c.value? r.key = none := by
  cases hv : c.value? r.key with
  | none => rfl
  | some v =>
    obtain ⟨q, hq, he⟩ := List.mem_map.1 (h.only r.key hr.startsWith_itemScope (by rw [hv]; rfl))
    exact absurd ((h.named q hq).slot_eq_of_key hi hr hk he) (hfresh q hq)

/-- What an item shows depends on the values in its scope only. -/
theorem congr (h : Shows l item c rs)
    (he : ∀ k, k.startsWith (l.itemScope item) = true → c'.value? k = c.value? k) :
    Shows l item c' rs where
  nodup := h.nodup
  named := h.named
  value := fun r hr => by
    rw [he _ (h.named r hr).startsWith_itemScope]
    exact h.value r hr
  only := fun k hk hv => h.only k hk (by rwa [← he k hk])

theorem keys_perm (h : Shows l item c rs) :
    (c.keys.filter (·.startsWith (l.itemScope item))).Perm (rs.map (·.key)) := by
  rw [List.perm_ext_iff_of_nodup (c.nodup_keys.filter _) h.nodup]
  intro k
  rw [List.mem_filter, mem_keys_iff]
  constructor
  · rintro ⟨hv, hk⟩
    exact h.only k hk hv
  · intro hk
    obtain ⟨r, hr, rfl⟩ := List.mem_map.1 hk
    rw [h.value r hr]
    exact ⟨rfl, (h.named r hr).startsWith_itemScope⟩

/-- The replicas that an item shows are determined by the contents, if all their slots are below the
limit. -/
theorem assignments_perm (hi : IsSegment item) (h : Shows l item c rs)
    (hslot : ∀ r ∈ rs, r.slot < Layout.slotLimit) :
    (rs.map (·.assignment)).Perm
      ((c.keys.filter (·.startsWith (l.itemScope item))).filterMap (c.assignment? l)) := by
  refine List.Perm.trans (List.Perm.of_eq ?_) (h.keys_perm.filterMap _).symm
  rw [List.filterMap_map, ← List.filterMap_eq_map]
  refine List.filterMap_congr fun r hr => ?_
  have hnamed := h.named r hr
  show some r.assignment = c.assignment? l r.key
  unfold Contents.assignment?
  rw [hnamed.holding?_eq hi, if_pos (hslot r hr), h.value r hr, Option.bind_some, Option.map_some]
  refine congrArg some ?_
  obtain ⟨key, ⟨item', holder, slot, consistent⟩, orphan⟩ := r
  obtain rfl : item' = item := hnamed.item_eq
  cases consistent <;> rfl

/-- The slots of an item are those of its replicas, as far as they are below the limit. -/
theorem slots_perm (hi : IsSegment item) (h : Shows l item c rs) :
    (c.slots l item).Perm ((rs.map (·.slot)).filter fun n => decide (n < Layout.slotLimit)) := by
  rw [slots_eq l c hi]
  refine ((h.keys_perm.filterMap _).map _).trans (List.Perm.of_eq ?_)
  rw [List.filterMap_map, List.map_filterMap, List.filter_map, ← List.filterMap_eq_map,
    List.filterMap_filter]
  refine List.filterMap_congr fun r hr => ?_
  rw [Function.comp_apply, (h.named r hr).holding?_eq hi]
  by_cases hs : r.slot < Layout.slotLimit <;> simp [hs]

/-- A load is what the member holds of the replicas and what it holds elsewhere. -/
theorem load_eq (hi : IsSegment item) (h : Shows l item c rs) (m : MemberId) :
    c.load l m = rs.countP (fun r => decide (r.slot < Layout.slotLimit) && r.holder == m) +
      (c.keys.filter fun k => !k.startsWith (l.itemScope item)).countP
        fun k => (l.holding? k).any (·.holder == m) := by
  have hsplit := List.filter_append_perm (fun k => k.startsWith (l.itemScope item)) c.keys
  rw [Contents.load_eq, ← hsplit.countP_eq, List.countP_append, h.keys_perm.countP_eq, List.countP_map]
  congr 1
  refine List.countP_congr fun r hr => ?_
  rw [Function.comp_apply, (h.named r hr).holding?_eq hi]
  by_cases hs : r.slot < Layout.slotLimit <;> simp [hs]

/-- A member holds a replica of an item exactly if one of those shown is its own. -/
theorem holds_iff (h : Shows l item c rs) {m : MemberId} (hm : m.IsValid) :
    c.Holds l item m ↔ ∃ r ∈ rs, r.holder = m := by
  constructor
  · rintro ⟨k, hk, hs⟩
    have hscope := Layout.startsWith_itemScope_of_holdingScope hs
    obtain ⟨r, hr, rfl⟩ := List.mem_map.1 (h.only k hscope (mem_keys_iff.1 hk))
    exact ⟨r, hr, ((h.named r hr).startsWith_holdingScope_iff hm).1 hs⟩
  · rintro ⟨r, hr, rfl⟩
    refine ⟨r.key, mem_keys_iff.2 ?_, (h.named r hr).startsWith⟩
    rw [h.value r hr]
    rfl

theorem holdsConsistent (h : Shows l item c rs) {r : Replica} (hr : r ∈ rs)
    (hc : r.assignment.consistent = true) : c.HoldsConsistent l item r.holder := by
  refine ⟨r.key, (h.named r hr).startsWith, ?_⟩
  rw [h.value r hr, hc]
  rfl

end Contents.Shows

end Allotment
