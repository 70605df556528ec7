import Allotment.Proofs.Keys
import Allotment.Proofs.Store.Changes
import Allotment.Snapshot

/-!
# What a snapshot shows

A snapshot that has been decoded is faithful: every entry stands under a key of what it is
(`Snapshot.faithful_of_ofEntries`).  In a faithful snapshot the views hold exactly the entries of their
kind (`mem_members_iff`, `mem_items_iff`, `mem_assignments_iff`), and a member or an item is found by
its identity (`member?_eq_some_iff`, `item?_eq_some_iff`).  The snapshot of some contents has an entry
for each key under the scope of the layout (`get?_of_ofEntries_entriesUnder`).
-/

namespace Allotment

/-! ### Decoding -/

theorem toOption_eq_some_iff {ε α : Type} {x : Except ε α} {a : α} :
    x.toOption = some a ↔ x = .ok a := by
  cases x <;> simp [Except.toOption]

namespace Resource

/-- What the key of a resource stands for. -/
def identity : Resource → Identity
  | .member m => .member m.id
  | .item i => .item i.id
  | .assignment a => .assignment a.item a.holder a.slot

theorem decodeConsistent_eq_ok_iff {key : String} {value : Bytes} {c : Bool} :
    decodeConsistent key value = .ok c ↔ value = Assignment.encode c := by
  have hne : ([] : Bytes) ≠ Assignment.consistentValue := by decide
  unfold decodeConsistent Assignment.encode
  cases c
  · by_cases h : value = Assignment.consistentValue
    · simp [h, hne.symm]
    · by_cases h' : value = []
      · simp [h', hne]
      · simp [h, h']
  · by_cases h : value = Assignment.consistentValue
    · simp [h]
    · by_cases h' : value = []
      · simp [h', hne]
      · simp [h, h']

/-- The value is compared as a whole, to evaluate the decoding of closed values. -/
theorem decodeConsistent_eq (key : String) (value : Bytes) : decodeConsistent key value =
    bif decide (value = Assignment.consistentValue) then .ok true
    else bif decide (value = []) then .ok false else .error (.value key .unknownAssignment) := by
  unfold decodeConsistent
  simp only [Bool.cond_decide]

/-- A decoded resource has the identity of its key. -/
theorem identity_of_ofIdentity {key : String} {value : Bytes} {i : Identity} {r : Resource}
    (h : ofIdentity key value i = .ok r) : r.identity = i := by
  cases i with
  | member id =>
    simp only [ofIdentity] at h
    cases hd : decodeAttribute key value <;> rw [hd] at h <;> cases h
    rfl
  | item id =>
    simp only [ofIdentity] at h
    cases hd : decodeAttribute key value <;> rw [hd] at h <;> cases h
    rfl
  | assignment item holder slot =>
    simp only [ofIdentity] at h
    cases hd : decodeConsistent key value <;> rw [hd] at h <;> cases h
    rfl

theorem decode_eq_ok_iff {l : Layout} {e : Entry Bytes} {d : Entry Resource} :
    decode l e = .ok d ↔
      ∃ r, d = e.withValue r ∧ l.parse e.key = .ok r.identity ∧
        ofIdentity e.key e.value r.identity = .ok r := by
  unfold decode
  constructor
  · intro h
    cases hp : l.parse e.key with
    | error fault => rw [hp] at h; exact nomatch h
    | ok i =>
      rw [hp] at h
      cases hr : ofIdentity e.key e.value i with
      | error fault => simp only [hr] at h; exact nomatch h
      | ok r =>
        simp only [hr] at h
        obtain rfl := identity_of_ofIdentity hr
        exact ⟨r, (Except.ok.inj h).symm, rfl, hr⟩
  · rintro ⟨r, rfl, hp, hr⟩
    simp only [hp, hr]
    rfl

/-- The value of a decoded assignment is written back as it was read. -/
theorem value_of_decode_assignment {l : Layout} {e : Entry Bytes} {d : Entry Resource}
    {a : Assignment} (h : decode l e = .ok d) (ha : d.value = .assignment a) :
    e.value = Assignment.encode a.consistent := by
  obtain ⟨r, rfl, -, hr⟩ := decode_eq_ok_iff.1 h
  obtain rfl : r = .assignment a := ha
  simp only [ofIdentity, identity] at hr
  cases hd : decodeConsistent e.key e.value with
  | error fault => rw [hd] at hr; exact nomatch hr
  | ok c =>
    rw [hd] at hr
    obtain rfl : c = a.consistent :=
      congrArg Assignment.consistent (assignment.inj (Except.ok.inj hr))
    exact decodeConsistent_eq_ok_iff.1 hd

/-- The replication of a decoded item is a number that an attribute can carry. -/
theorem replication_lt_of_decode {l : Layout} {e : Entry Bytes} {d : Entry Resource} {i : Item}
    (h : decode l e = .ok d) (hi : d.value = .item i) : i.replication < attributeLimit := by
  obtain ⟨r, rfl, -, hr⟩ := decode_eq_ok_iff.1 h
  obtain rfl : r = .item i := hi
  simp only [ofIdentity, identity] at hr
  cases hd : decodeAttribute e.key e.value with
  | error fault => rw [hd] at hr; exact nomatch hr
  | ok n =>
    rw [hd] at hr
    obtain rfl : n = i.replication := congrArg Item.replication (item.inj (Except.ok.inj hr))
    unfold decodeAttribute at hd
    split at hd
    next => exact nomatch hd
    next => exact nomatch hd
    next =>
      split at hd
      next hlt => exact Except.ok.inj hd ▸ hlt
      next => exact nomatch hd

theorem exists_decode_of_parse {l : Layout} {e : Entry Bytes} {item : String}
    {holder : MemberId} {slot : Nat} {consistent : Bool}
    (hp : l.parse e.key = .ok (.assignment item holder slot))
    (hv : e.value = Assignment.encode consistent) : ∃ d, decode l e = .ok d := by
  refine ⟨_, decode_eq_ok_iff.2 ⟨.assignment ⟨item, holder, slot, consistent⟩, rfl, hp, ?_⟩⟩
  simp only [ofIdentity, identity, decodeConsistent_eq_ok_iff.2 hv]
  rfl

end Resource

namespace Snapshot

/-! ### Entries -/

theorem foldlM_addEntry_eq_ok {l : Layout} {es : List (Entry Bytes)}
    {m m' : KeyMap (Stamped Resource)} (h : es.foldlM (addEntry l) m = .ok m') (k : String) :
    (lastOn Entry.key es k = none ∧ m'.get? k = m.get? k) ∨
      ∃ e v, lastOn Entry.key es k = some e ∧ Resource.decode l e = .ok ⟨v, k⟩ ∧
        m'.get? k = some v := by
  induction es generalizing m with
  | nil =>
    left
    exact ⟨rfl, by rw [Except.ok.inj h]⟩
  | cons e es ih =>
    rw [List.foldlM_cons] at h
    cases hd : Resource.decode l e with
    | error fault =>
      simp only [addEntry, hd] at h
      exact nomatch h
    | ok d =>
      have hkey : d.key = e.key := by
        obtain ⟨r, rfl, -⟩ := Resource.decode_eq_ok_iff.1 hd
        rfl
      simp only [addEntry, hd] at h
      rcases ih h with ⟨hn, hg⟩ | ⟨e', v, hl, hv⟩
      · rw [KeyMap.get?_insert] at hg
        by_cases hk : e.key = k
        · right
          subst hk
          refine ⟨e, d.toStamped, ?_, ?_, ?_⟩
          · rw [lastOn_cons, hn, if_pos rfl]
            rfl
          · rw [hd, ← hkey]
          · rw [hg, if_pos hkey.symm]
        · left
          refine ⟨?_, ?_⟩
          · rw [lastOn_cons, hn, if_neg hk]
            rfl
          · rw [hg, if_neg fun he => hk (hkey.symm.trans he.symm)]
      · right
        refine ⟨e', v, ?_, hv⟩
        rw [lastOn_cons, hl]
        rfl

/-- One entry is read after the other, to evaluate the snapshot of closed entries. -/
theorem ofEntries_eq (l : Layout) (revision : Int) (es : List (Entry Bytes)) : ofEntries l revision es =
    (es.foldlM (fun m e => (Resource.decode l e).map fun d => m.insert d.key d.toStamped)
      KeyMap.empty).map (⟨l, revision, ·⟩) :=
  rfl

theorem ofEntries_eq_ok {l : Layout} {revision : Int} {es : List (Entry Bytes)} {s : Snapshot}
    (h : ofEntries l revision es = .ok s) :
    s.layout = l ∧ s.revision = revision ∧
      es.foldlM (addEntry l) KeyMap.empty = .ok s.entries := by
  unfold ofEntries at h
  cases hf : es.foldlM (addEntry l) KeyMap.empty with
  | error fault => rw [hf] at h; exact nomatch h
  | ok entries =>
    rw [hf] at h
    obtain rfl := Except.ok.inj h
    exact ⟨rfl, rfl, rfl⟩

/-- To know a snapshot it is enough to know its bindings. -/
theorem ofEntries_eq_ok_of_bindings {s : Snapshot} {es : List (Entry Bytes)}
    (h : (ofEntries s.layout s.revision es).toOption.map (·.entries.bindings) =
      some s.entries.bindings) : ofEntries s.layout s.revision es = .ok s := by
  obtain ⟨t, ht, he⟩ := Option.map_eq_some_iff.1 h
  have ht := toOption_eq_some_iff.1 ht
  obtain ⟨hl, hr, -⟩ := ofEntries_eq_ok ht
  obtain ⟨l, r, ⟨bindings, h⟩⟩ := s
  obtain ⟨l', r', ⟨bindings', h'⟩⟩ := t
  obtain rfl : bindings' = bindings := he
  obtain rfl : l' = l := hl
  obtain rfl : r' = r := hr
  exact ht

/-- Every entry stands under a key of what it is. -/
def IsFaithful (s : Snapshot) : Prop :=
  ∀ k v, s.entries.get? k = some v → s.layout.parse k = .ok v.value.identity

theorem faithful_of_ofEntries {l : Layout} {revision : Int} {es : List (Entry Bytes)} {s : Snapshot}
    (h : ofEntries l revision es = .ok s) : s.IsFaithful := by
  obtain ⟨hl, -, hf⟩ := ofEntries_eq_ok h
  intro k v hv
  rcases foldlM_addEntry_eq_ok hf k with ⟨-, hg⟩ | ⟨e, w, -, hd, hg⟩
  · rw [hg] at hv
    exact nomatch hv
  · obtain rfl : w = v := Option.some.inj (hg.symm.trans hv)
    obtain ⟨r, he, hp, -⟩ := Resource.decode_eq_ok_iff.1 hd
    have hk : k = e.key := congrArg Entry.key he
    have hr : w.value = r := congrArg (fun x : Entry Resource => x.value) he
    rw [hl, hk, hr, hp]

theorem lastOn_entriesUnder (c : Contents) (scope k : String) :
    lastOn Entry.key (c.entriesUnder scope) k =
      if k.startsWith scope then (c.get? k).map (⟨·, k⟩) else none := by
  cases hl : lastOn Entry.key (c.entriesUnder scope) k with
  | some e =>
    obtain ⟨he, rfl⟩ := mem_of_lastOn hl
    obtain ⟨hg, hs⟩ := Contents.mem_entriesUnder_iff.1 he
    rw [if_pos hs, hg]
    rfl
  | none =>
    rw [lastOn_eq_none_iff] at hl
    split
    next hs =>
      cases hg : c.get? k with
      | none => rfl
      | some v => exact absurd rfl (hl ⟨v, k⟩ (Contents.mem_entriesUnder_iff.2 ⟨hg, hs⟩))
    next => rfl

/-- The snapshot of some contents has one decoded entry for each key under the scope. -/
theorem get?_of_ofEntries_entriesUnder {l : Layout} {revision : Int} {c : Contents} {s : Snapshot}
    (h : ofEntries l revision (c.entriesUnder l.scope) = .ok s) (k : String) :
    (k.startsWith l.scope = true →
      (c.get? k = none ∧ s.entries.get? k = none) ∨
      ∃ raw v, c.get? k = some raw ∧ s.entries.get? k = some v ∧
        Resource.decode l ⟨raw, k⟩ = .ok ⟨v, k⟩) ∧
    (¬ k.startsWith l.scope = true → s.entries.get? k = none) := by
  obtain ⟨-, -, hf⟩ := ofEntries_eq_ok h
  have hcases := foldlM_addEntry_eq_ok hf k
  rw [lastOn_entriesUnder] at hcases
  constructor
  · intro hs
    rw [if_pos hs] at hcases
    rcases hcases with ⟨hn, hg⟩ | ⟨e, v, he, hd, hg⟩
    · left
      exact ⟨by simpa using hn, hg⟩
    · right
      obtain ⟨raw, hraw, rfl⟩ := Option.map_eq_some_iff.1 he
      exact ⟨raw, v, hraw, hg, hd⟩
  · intro hs
    rw [if_neg hs] at hcases
    rcases hcases with ⟨-, hg⟩ | ⟨e, v, he, -⟩
    · exact hg
    · exact nomatch he

/-- What a snapshot has under a key stands in the contents, with the same stamp. -/
theorem exists_raw_of_get? {l : Layout} {revision : Int} {c : Contents} {s : Snapshot}
    (h : ofEntries l revision (c.entriesUnder l.scope) = .ok s) {k : String} {v : Stamped Resource}
    (hk : s.entries.get? k = some v) :
    ∃ raw, c.get? k = some raw ∧ raw.modified = v.modified ∧
      Resource.decode l ⟨raw, k⟩ = .ok ⟨v, k⟩ := by
  have hcases := get?_of_ofEntries_entriesUnder h k
  by_cases hs : k.startsWith l.scope = true
  · rcases hcases.1 hs with ⟨-, hn⟩ | ⟨raw, w, hraw, hw, hd⟩
    · rw [hn] at hk
      exact nomatch hk
    · obtain rfl := Option.some.inj (hw.symm.trans hk)
      obtain ⟨r, he, -⟩ := Resource.decode_eq_ok_iff.1 hd
      have hstamp : w.modified = raw.modified := congrArg (fun e : Entry Resource => e.modified) he
      exact ⟨raw, hraw, hstamp.symm, hd⟩
  · rw [hcases.2 hs] at hk
    exact nomatch hk

/-- What the contents have under a key of the scope stands in their snapshot. -/
theorem exists_get?_of_raw {l : Layout} {revision : Int} {c : Contents} {s : Snapshot}
    (h : ofEntries l revision (c.entriesUnder l.scope) = .ok s) {k : String}
    (hk : k.startsWith l.scope = true) {raw : Stamped Bytes} (hraw : c.get? k = some raw) :
    ∃ v, s.entries.get? k = some v ∧ Resource.decode l ⟨raw, k⟩ = .ok ⟨v, k⟩ := by
  rcases (get?_of_ofEntries_entriesUnder h k).1 hk with ⟨hn, -⟩ | ⟨raw', v, hraw', hv, hd⟩
  · exact nomatch hn.symm.trans hraw
  · obtain rfl := Option.some.inj (hraw'.symm.trans hraw)
    exact ⟨v, hv, hd⟩

/-! ### Views -/

theorem startsWith_eq (key scope : String) :
    key.startsWith scope = scope.toList.isPrefixOf key.toList := by
  rw [Bool.eq_iff_iff, String.startsWith_string_iff, List.isPrefixOf_iff_prefix]

/-- Scopes compared letter by letter, to evaluate views of closed keys. -/
theorem under_eq {α : Type} (m : KeyMap α) (scope : String) :
    m.under scope = m.bindings.filter fun b => scope.toList.isPrefixOf b.1.toList := by
  rw [KeyMap.under_eq_filter]
  simp only [startsWith_eq]

theorem mem_view_iff {α : Type} {s : Snapshot} {scope : String} {kind : Resource → Option α}
    {e : Entry α} :
    e ∈ s.view scope kind ↔
      ∃ v, s.entries.get? e.key = some v ∧ e.key.startsWith scope = true ∧
        kind v.value = some e.value ∧ v.created = e.created ∧ v.modified = e.modified := by
  simp only [view, List.mem_filterMap, List.mem_map, pick?]
  constructor
  · rintro ⟨d, ⟨b, hb, rfl⟩, hd⟩
    obtain ⟨a, ha, rfl⟩ := Option.map_eq_some_iff.1 hd
    obtain ⟨hg, hs⟩ := KeyMap.mem_under_iff.1 hb
    exact ⟨b.2, hg, hs, ha, rfl, rfl⟩
  · rintro ⟨v, hg, hs, ha, hc, hm⟩
    refine ⟨⟨v, e.key⟩, ⟨(e.key, v), KeyMap.mem_under_iff.2 ⟨hg, hs⟩, rfl⟩, ?_⟩
    rw [Option.map_eq_some_iff]
    refine ⟨e.value, ha, ?_⟩
    simp only [Entry.withValue, hc, hm]

theorem view_congr {α : Type} {s s' : Snapshot} {scope : String} (kind : Resource → Option α)
    (h : ∀ k, k.startsWith scope = true → s.entries.get? k = s'.entries.get? k) :
    s.view scope kind = s'.view scope kind := by
  unfold view
  rw [KeyMap.under_congr h]

/-- A view is in key order. -/
theorem view_ascending {α : Type} (s : Snapshot) (scope : String) (kind : Resource → Option α) :
    ((s.view scope kind).map (·.key)).Pairwise (· < ·) := by
  have hunder : ((s.entries.under scope).map (·.1)).Pairwise (· < ·) :=
    List.pairwise_map.2 (s.entries.ascending.sublist (s.entries.under_sublist scope))
  have hsub : ((s.view scope kind).map (·.key)).Sublist ((s.entries.under scope).map (·.1)) := by
    unfold view
    induction s.entries.under scope with
    | nil => exact List.Sublist.refl []
    | cons b bs ih =>
      rw [List.map_cons, List.filterMap_cons]
      unfold pick?
      cases kind (Entry.ofBinding b).value with
      | none => exact ih.cons _
      | some a => exact ih.cons_cons _
  exact hunder.sublist hsub

/-- A view holds each key once. -/
theorem nodup_view {α : Type} (s : Snapshot) (scope : String) (kind : Resource → Option α) :
    ((s.view scope kind).map (·.key)).Nodup :=
  (s.view_ascending scope kind).imp String.ne_of_lt

variable {s : Snapshot}

theorem mem_members_iff (hs : s.IsFaithful) {e : Entry Member} :
    e ∈ s.members ↔ s.entries.get? e.key = some ⟨.member e.value, e.created, e.modified⟩ := by
  unfold members
  rw [mem_view_iff]
  constructor
  · rintro ⟨⟨r, c, m⟩, hg, -, hr, rfl, rfl⟩
    cases r <;> cases hr
    exact hg
  · intro hg
    refine ⟨_, hg, ?_, rfl, rfl, rfl⟩
    obtain ⟨hk, -⟩ := Layout.parse_eq_member_iff.1 (hs _ _ hg)
    rw [hk]
    exact Layout.startsWith_memberKey _ _

theorem mem_items_iff (hs : s.IsFaithful) {e : Entry Item} :
    e ∈ s.items ↔ s.entries.get? e.key = some ⟨.item e.value, e.created, e.modified⟩ := by
  unfold items
  rw [mem_view_iff]
  constructor
  · rintro ⟨⟨r, c, m⟩, hg, -, hr, rfl, rfl⟩
    cases r <;> cases hr
    exact hg
  · intro hg
    refine ⟨_, hg, ?_, rfl, rfl, rfl⟩
    obtain ⟨hk, -⟩ := Layout.parse_eq_item_iff.1 (hs _ _ hg)
    rw [hk]
    exact Layout.startsWith_itemKey _ _

theorem mem_assignments_iff (hs : s.IsFaithful) {e : Entry Assignment} :
    e ∈ s.assignments ↔ s.entries.get? e.key = some ⟨.assignment e.value, e.created, e.modified⟩ := by
  unfold assignments
  rw [mem_view_iff]
  constructor
  · rintro ⟨⟨r, c, m⟩, hg, -, hr, rfl, rfl⟩
    cases r <;> cases hr
    exact hg
  · intro hg
    exact ⟨_, hg, Layout.startsWith_assignmentsScope_of_parse (hs _ _ hg), rfl, rfl, rfl⟩

theorem parse_of_mem_members (hs : s.IsFaithful) {e : Entry Member} (he : e ∈ s.members) :
    e.key = s.layout.memberKey e.value.id ∧ e.value.id.IsValid :=
  Layout.parse_eq_member_iff.1 (hs _ _ ((mem_members_iff hs).1 he))

theorem parse_of_mem_items (hs : s.IsFaithful) {e : Entry Item} (he : e ∈ s.items) :
    e.key = s.layout.itemKey e.value.id ∧ IsSegment e.value.id :=
  Layout.parse_eq_item_iff.1 (hs _ _ ((mem_items_iff hs).1 he))

theorem parse_of_mem_assignments (hs : s.IsFaithful) {e : Entry Assignment}
    (he : e ∈ s.assignments) :
    s.layout.parse e.key = .ok (.assignment e.value.item e.value.holder e.value.slot) :=
  hs _ _ ((mem_assignments_iff hs).1 he)

/-! ### Finding by identity -/

theorem member?_eq_some_iff (hs : s.IsFaithful) {m : MemberId} {e : Entry Member} :
    s.member? m = some e ↔ e ∈ s.members ∧ e.value.id = m := by
  rw [mem_members_iff hs]
  simp only [member?, get?, Option.bind_eq_some_iff, Option.map_eq_some_iff, pick?]
  constructor
  · rintro ⟨d, ⟨v, hv, rfl⟩, a, ha, rfl⟩
    have hp := hs _ _ hv
    obtain ⟨r, c, t⟩ := v
    cases r <;> cases ha
    obtain ⟨hk, hvalid⟩ := Layout.parse_eq_member_iff.1 hp
    exact ⟨hv, (Layout.memberKey_injective hvalid hk).symm⟩
  · rintro ⟨hg, rfl⟩
    obtain ⟨hk, -⟩ := Layout.parse_eq_member_iff.1 (hs _ _ hg)
    rw [hk] at hg
    exact ⟨_, ⟨_, hg, rfl⟩, e.value, rfl, by rw [← hk]; rfl⟩

/-- A member that is found stands under its own key. -/
theorem get?_memberKey_of_member? (hs : s.IsFaithful) {m : MemberId} {e : Entry Member}
    (h : s.member? m = some e) : e.key = s.layout.memberKey m ∧
      s.entries.get? (s.layout.memberKey m) = some ⟨.member e.value, e.created, e.modified⟩ := by
  obtain ⟨hmem, rfl⟩ := (member?_eq_some_iff hs).1 h
  have hkey := (parse_of_mem_members hs hmem).1
  exact ⟨hkey, hkey ▸ (mem_members_iff hs).1 hmem⟩

theorem isValid_of_member? (hs : s.IsFaithful) {m : MemberId} (h : (s.member? m).isSome = true) :
    m.IsValid := by
  obtain ⟨e, he⟩ := Option.isSome_iff_exists.1 h
  obtain ⟨hmem, rfl⟩ := (member?_eq_some_iff hs).1 he
  exact (parse_of_mem_members hs hmem).2

theorem item?_eq_some_iff (hs : s.IsFaithful) {i : String} {e : Entry Item} :
    s.item? i = some e ↔ e ∈ s.items ∧ e.value.id = i := by
  rw [mem_items_iff hs]
  simp only [item?, get?, Option.bind_eq_some_iff, Option.map_eq_some_iff, pick?]
  constructor
  · rintro ⟨d, ⟨v, hv, rfl⟩, a, ha, rfl⟩
    have hp := hs _ _ hv
    obtain ⟨r, c, t⟩ := v
    cases r <;> cases ha
    obtain ⟨hk, -⟩ := Layout.parse_eq_item_iff.1 hp
    exact ⟨hv, (Layout.itemKey_injective hk).symm⟩
  · rintro ⟨hg, rfl⟩
    obtain ⟨hk, -⟩ := Layout.parse_eq_item_iff.1 (hs _ _ hg)
    rw [hk] at hg
    exact ⟨_, ⟨_, hg, rfl⟩, e.value, rfl, by rw [← hk]; rfl⟩

theorem eq_of_mem_members (hs : s.IsFaithful) {e e' : Entry Member} (he : e ∈ s.members)
    (he' : e' ∈ s.members) (h : e.value.id = e'.value.id) : e = e' :=
  Option.some.inj (((member?_eq_some_iff hs).2 ⟨he, h⟩).symm.trans
    ((member?_eq_some_iff hs).2 ⟨he', rfl⟩))

theorem eq_of_mem_items (hs : s.IsFaithful) {e e' : Entry Item} (he : e ∈ s.items)
    (he' : e' ∈ s.items) (h : e.value.id = e'.value.id) : e = e' :=
  Option.some.inj (((item?_eq_some_iff hs).2 ⟨he, h⟩).symm.trans
    ((item?_eq_some_iff hs).2 ⟨he', rfl⟩))

end Snapshot

end Allotment
