import Allotment.Plan.Placement
import Allotment.Proofs.Plan.Spread

/-!
# What a placement takes from its item

Live and broken replicas part those of an item (`live_append_broken_perm`).  The live ones have
distinct holders that exist, and every existing holder has one of them (`exists_mem_liveOf`).  Each group
of a roster is planned for once, in some room (`Planned.Of`, `Roster.names_planned`), and all plans together
promise a member no more than its limit leaves (`Roster.countP_promises_planned_le`).
-/

namespace Allotment

/-! ### Live and broken replicas -/

namespace Placement

variable {seen : List MemberId} {rs : List Replica}

theorem live_append_broken_perm (seen : List MemberId) (rs : List Replica) :
    (liveOf seen rs ++ brokenOf seen rs).Perm rs := by
  induction rs generalizing seen with
  | nil => exact List.Perm.refl []
  | cons r rs ih =>
    simp only [liveOf, brokenOf]
    split
    · exact List.perm_middle.trans ((ih seen).cons r)
    · exact (ih _).cons r

theorem mem_of_mem_liveOf {r : Replica} (h : r ∈ liveOf seen rs) : r ∈ rs :=
  (live_append_broken_perm seen rs).mem_iff.1 (List.mem_append_left _ h)

theorem mem_of_mem_brokenOf {r : Replica} (h : r ∈ brokenOf seen rs) : r ∈ rs :=
  (live_append_broken_perm seen rs).mem_iff.1 (List.mem_append_right _ h)

/-- A live replica has an existing holder that has not been seen before. -/
theorem holder_of_mem_liveOf {r : Replica} (h : r ∈ liveOf seen rs) :
    r.orphan = false ∧ r.holder ∉ seen := by
  induction rs generalizing seen with
  | nil => exact nomatch h
  | cons q rs ih =>
    simp only [liveOf, Bool.or_eq_true, List.contains_eq_mem, decide_eq_true_eq] at h
    split at h
    next => exact ih h
    next hq =>
      rcases List.mem_cons.1 h with rfl | h
      · exact ⟨by simpa using fun ho => hq (.inl ho), fun hs => hq (.inr hs)⟩
      · obtain ⟨ho, hs⟩ := ih h
        exact ⟨ho, fun hm => hs (List.mem_cons_of_mem _ hm)⟩

theorem nodup_holders_liveOf (seen : List MemberId) (rs : List Replica) :
    ((liveOf seen rs).map (·.holder)).Nodup := by
  induction rs generalizing seen with
  | nil => exact List.nodup_nil
  | cons r rs ih =>
    simp only [liveOf]
    split
    · exact ih seen
    · rw [List.map_cons, List.nodup_cons]
      refine ⟨fun hm => ?_, ih _⟩
      obtain ⟨q, hq, he⟩ := List.mem_map.1 hm
      exact (holder_of_mem_liveOf hq).2 (he ▸ List.mem_cons_self)

/-- Every existing holder that has not been seen before has a live replica. -/
theorem exists_mem_liveOf {r : Replica} (h : r ∈ rs) (ho : r.orphan = false)
    (hs : r.holder ∉ seen) : ∃ q ∈ liveOf seen rs, q.holder = r.holder := by
  induction rs generalizing seen with
  | nil => exact nomatch h
  | cons q rs ih =>
    simp only [liveOf, Bool.or_eq_true, List.contains_eq_mem, decide_eq_true_eq]
    split
    next hq =>
      rcases List.mem_cons.1 h with rfl | h
      · rcases hq with hq | hq
        · exact nomatch ho.symm.trans hq
        · exact absurd hq hs
      · exact ih h hs
    next hq =>
      by_cases he : r.holder = q.holder
      · exact ⟨q, List.mem_cons_self, he.symm⟩
      · rcases List.mem_cons.1 h with rfl | h
        · exact absurd rfl he
        · have hs' : r.holder ∉ q.holder :: seen := by
            rw [List.mem_cons, not_or]
            exact ⟨he, hs⟩
          obtain ⟨p, hp, hpe⟩ := ih h hs'
          exact ⟨p, List.mem_cons_of_mem _ hp, hpe⟩

theorem not_mem_brokenOf_of_mem_liveOf (hrs : rs.Nodup) {r : Replica} (h : r ∈ liveOf seen rs) :
    r ∉ brokenOf seen rs := by
  have hnodup := (live_append_broken_perm seen rs).nodup_iff.2 hrs
  exact fun hb => (List.nodup_append.1 hnodup).2.2 r h r hb rfl

theorem eq_of_holder {r q : Replica} (hr : r ∈ liveOf seen rs) (hq : q ∈ liveOf seen rs)
    (h : r.holder = q.holder) : r = q :=
  List.inj_on_of_nodup_map (nodup_holders_liveOf seen rs) hr hq h

theorem mem_kept_iff {p : Placement} {r : Replica} :
    r ∈ p.kept ↔ r ∈ p.live ∧ r ∉ p.leaving ∧ r ∉ p.excess := by
  simp [kept, staying, and_comm]

end Placement

/-! ### One item -/

theorem filter_not_contains_append (l : List Replica) (p : Replica → Bool) (d : List Replica) :
    (l.filter fun r => !(l.filter p ++ d).contains r) =
      (l.filter fun r => !p r).filter fun r => !d.contains r := by
  rw [List.filter_filter]
  refine List.filter_congr fun r hr => ?_
  have hmem : (l.filter p ++ d).contains r = (p r || d.contains r) := by
    rw [Bool.eq_iff_iff]
    simp [hr]
  rw [hmem, Bool.not_or, Bool.and_comm]

namespace Room

variable (shedding : List String) (wanted : Nat) (rs : List Replica) (room : Room)

@[simp]
theorem live_place : (room.place shedding wanted rs).1.live = Placement.liveOf [] rs :=
  rfl

/-- The existing holders among some replicas. -/
def holdersOf (rs : List Replica) : List MemberId :=
  (rs.filter fun r => !r.orphan).map (·.holder)

/-- The live replicas that are not shed. -/
def unshed (shedding : List String) (rs : List Replica) : List Replica :=
  (Placement.liveOf [] rs).filter fun r => !shedding.contains r.key

theorem zoneMove?_eq_some {holders : List MemberId} {staying : List Replica} {r : Replica}
    (h : room.zoneMove? holders wanted staying = some r) :
    r ∈ staying ∧ Spread.hasOpenZone room.seats holders staying = true := by
  unfold zoneMove? at h
  split at h
  next => exact nomatch h
  next =>
    obtain ⟨hr, -, hzone⟩ := Spread.zoneMove?_eq_some h
    exact ⟨hr, hzone⟩

theorem leaving_place : (room.place shedding wanted rs).1.leaving =
    (Placement.liveOf [] rs).filter (fun r => shedding.contains r.key) ++
      (room.zoneMove? (holdersOf rs) wanted (unshed shedding rs)).toList :=
  rfl

/-- What stays is what is neither shed nor moved to another zone. -/
theorem staying_place : (room.place shedding wanted rs).1.staying =
    (unshed shedding rs).filter fun r =>
      !(room.zoneMove? (holdersOf rs) wanted (unshed shedding rs)).toList.contains r := by
  exact filter_not_contains_append (Placement.liveOf [] rs) _ _

theorem excess_place : (room.place shedding wanted rs).1.excess =
    Spread.excess ((room.place shedding wanted rs).1.staying.length - wanted)
      (room.place shedding wanted rs).1.staying := by
  rw [staying_place]
  rfl

theorem receivers_place : (room.place shedding wanted rs).1.receivers =
    (Spread.receivers (wanted - (room.place shedding wanted rs).1.staying.length)
      ((room.place shedding wanted rs).1.staying.map (·.zone)) (holdersOf rs) room.seats).1 := by
  rw [staying_place]
  rfl

theorem seats_place : (room.place shedding wanted rs).2.seats =
    (Spread.receivers (wanted - (room.place shedding wanted rs).1.staying.length)
      ((room.place shedding wanted rs).1.staying.map (·.zone)) (holdersOf rs) room.seats).2 := by
  rw [staying_place]
  rfl

theorem zoneMoves_place : (room.place shedding wanted rs).2.zoneMoves = room.zoneMoves -
    (room.zoneMove? (holdersOf rs) wanted (unshed shedding rs)).toList.length :=
  rfl

theorem ids_place :
    (room.place shedding wanted rs).2.seats.map (·.id) = room.seats.map (·.id) :=
  Spread.ids_receivers _ _ _ _

variable {shedding wanted rs room}

/-- A receiver holds no replica of the item. -/
theorem not_mem_holders_of_mem_receivers (hids : (room.seats.map (·.id)).Nodup) {m : MemberId}
    (h : m ∈ (room.place shedding wanted rs).1.receivers) {r : Replica} (hr : r ∈ rs)
    (ho : r.orphan = false) : r.holder ≠ m := by
  rintro rfl
  have hnot := ((Spread.receivers_spec _ _ _ hids _).1 h).1
  exact hnot (List.mem_map_of_mem (List.mem_filter.2 ⟨hr, by simp [ho]⟩))

/-- What an item takes from a member it also promises the member. -/
theorem spareOf_place (shedding : List String) (wanted : Nat) (rs : List Replica)
    (hids : (room.seats.map (·.id)).Nodup) (m : MemberId) :
    Spread.spareOf (room.place shedding wanted rs).2.seats m +
        (if m ∈ (room.place shedding wanted rs).1.receivers then 1 else 0) =
      Spread.spareOf room.seats m := by
  obtain ⟨hin, hout⟩ := Spread.receivers_spec (wanted - _) _ _ hids m
  split
  next h => exact (hin h).2
  next h => exact hout h

end Room

/-- A placement parts the replicas of its item, and none of its receivers holds one of them. -/
structure Placement.Fits (p : Placement) (rs : List Replica) : Prop where
  live : p.live = Placement.liveOf [] rs
  broken : p.broken = Placement.brokenOf [] rs
  receivers : ∀ m ∈ p.receivers, ∀ r ∈ rs, r.orphan = false → r.holder ≠ m

theorem Room.fits_place (shedding : List String) (wanted : Nat) (rs : List Replica) {room : Room}
    (hids : (room.seats.map (·.id)).Nodup) : (room.place shedding wanted rs).1.Fits rs :=
  ⟨rfl, rfl, fun _ hm _ hr ho => Room.not_mem_holders_of_mem_receivers hids hm hr ho⟩

/-! ### All items -/

namespace Planned

/-- The item that is planned for. -/
def name : Planned → String
  | .placed item _ _ => item.value.id
  | .removed item _ => item

/-- The replicas that are planned for. -/
def replicas : Planned → List Replica
  | .placed _ replicas _ => replicas
  | .removed _ replicas => replicas

/-- The item, if it exists. -/
def item? : Planned → Option Item
  | .placed item _ _ => some item.value
  | .removed _ _ => none

/-- When the item was last changed, or zero if it does not exist. -/
def modified : Planned → Int
  | .placed item _ _ => item.modified
  | .removed _ _ => 0

/-- The members that are promised a replica. -/
def promises : Planned → List MemberId
  | .placed _ _ placement => placement.receivers
  | .removed _ _ => []

/-- What is planned for a group in some room with given seats. -/
inductive Of (shedding : List String) (ids : List MemberId) (g : Group) : Planned → Prop
  | removed (hw : g.wanted = none) : Of shedding ids g (.removed g.id g.replicas)
  | placed {item : Entry Item} (hw : g.wanted = some item) (room : Room)
      (hids : room.seats.map (·.id) = ids) :
      Of shedding ids g
        (.placed item g.replicas (room.place shedding item.value.replication g.replicas).1)

/-- If the item exists, its placement fits its replicas. -/
def Fits : Planned → Prop
  | .placed _ replicas placement => placement.Fits replicas
  | .removed _ _ => True

theorem Of.fits {shedding : List String} {ids : List MemberId} {g : Group} {t : Planned}
    (h : Of shedding ids g t) (hids : ids.Nodup) : t.Fits := by
  cases h with
  | removed hw => trivial
  | placed hw room hroom => exact Room.fits_place _ _ _ (hroom ▸ hids)

end Planned

namespace Room

variable {shedding : List String}

theorem of_mem_placeAll {room : Room} {gs : List Group} {t : Planned}
    (h : t ∈ placeAll shedding room gs) :
    ∃ g ∈ gs, Planned.Of shedding (room.seats.map (·.id)) g t := by
  induction gs generalizing room with
  | nil => exact nomatch h
  | cons g gs ih =>
    simp only [placeAll] at h
    split at h
    next hw =>
      rcases List.mem_cons.1 h with rfl | h
      · exact ⟨g, List.mem_cons_self, .removed hw⟩
      · obtain ⟨g', hg', ht⟩ := ih h
        exact ⟨g', List.mem_cons_of_mem _ hg', ht⟩
    next item hw =>
      rcases List.mem_cons.1 h with rfl | h
      · exact ⟨g, List.mem_cons_self, .placed hw room rfl⟩
      · obtain ⟨g', hg', ht⟩ := ih h
        rw [ids_place] at ht
        exact ⟨g', List.mem_cons_of_mem _ hg', ht⟩

theorem exists_of_mem (shedding : List String) (room : Room) {gs : List Group} {g : Group}
    (hg : g ∈ gs) :
    ∃ t ∈ placeAll shedding room gs, Planned.Of shedding (room.seats.map (·.id)) g t := by
  induction gs generalizing room with
  | nil => exact nomatch hg
  | cons g' gs ih =>
    simp only [placeAll]
    split
    next hw =>
      rcases List.mem_cons.1 hg with rfl | hg
      · exact ⟨_, List.mem_cons_self, .removed hw⟩
      · obtain ⟨t, ht, hof⟩ := ih room hg
        exact ⟨t, List.mem_cons_of_mem _ ht, hof⟩
    next item hw =>
      rcases List.mem_cons.1 hg with rfl | hg
      · exact ⟨_, List.mem_cons_self, .placed hw room rfl⟩
      · obtain ⟨t, ht, hof⟩ := ih _ hg
        rw [ids_place] at hof
        exact ⟨t, List.mem_cons_of_mem _ ht, hof⟩

theorem names_placeAll (room : Room) {gs : List Group}
    (h : ∀ g ∈ gs, ∀ item, g.wanted = some item → item.value.id = g.id) :
    (placeAll shedding room gs).map Planned.name = gs.map (·.id) := by
  induction gs generalizing room with
  | nil => rfl
  | cons g gs ih =>
    have ih' := fun room => ih room fun g' hg' => h g' (List.mem_cons_of_mem _ hg')
    simp only [placeAll]
    split
    next => rw [List.map_cons, List.map_cons, ih']; rfl
    next item hw =>
      rw [List.map_cons, List.map_cons, ih', ← h g List.mem_cons_self item hw]
      rfl

/-- All items together promise a member no more than it has to spare. -/
theorem countP_promises_placeAll_le (m : MemberId) (room : Room) {gs : List Group}
    (hids : (room.seats.map (·.id)).Nodup) :
    (placeAll shedding room gs).countP (fun t => decide (m ∈ t.promises)) ≤
      Spread.spareOf room.seats m := by
  induction gs generalizing room with
  | nil => exact Nat.zero_le _
  | cons g gs ih =>
    simp only [placeAll]
    split
    next =>
      rw [List.countP_cons_of_neg (by simp [Planned.promises])]
      exact ih room hids
    next item _ =>
      have hspare := spareOf_place shedding item.value.replication g.replicas hids m
      have hrest := ih (room.place shedding item.value.replication g.replicas).2 (by rwa [ids_place])
      have hcons : ∀ (t : Planned) (ts : List Planned),
          (t :: ts).countP (fun t => decide (m ∈ t.promises)) =
            ts.countP (fun t => decide (m ∈ t.promises)) + if m ∈ t.promises then 1 else 0 := by
        intro t ts
        simp [List.countP_cons]
      rw [hcons]
      show _ + (if m ∈ (room.place _ _ _).1.receivers then 1 else 0) ≤ _
      omega

end Room

namespace Roster

variable {s : Snapshot} {b : Bounds}

theorem of_mem_planned {r : Roster} {t : Planned} (h : t ∈ r.planned b) :
    ∃ g ∈ r.groups, Planned.Of r.shedding (r.seats.map (·.id)) g t :=
  Room.of_mem_placeAll h

theorem exists_planned {r : Roster} {g : Group} (hg : g ∈ r.groups) (b : Bounds) :
    ∃ t ∈ r.planned b, Planned.Of r.shedding (r.seats.map (·.id)) g t :=
  Room.exists_of_mem r.shedding ⟨r.seats, b.repairs⟩ hg

theorem fits_of_mem_planned (hs : s.IsFaithful) {t : Planned} (h : t ∈ (ofSnapshot s).planned b) :
    t.Fits := by
  obtain ⟨g, -, ht⟩ := of_mem_planned h
  exact ht.fits (nodup_ids_seats hs)

theorem id_of_wanted (hs : s.IsFaithful) {g : Group} (hg : g ∈ (ofSnapshot s).groups)
    {item : Entry Item} (hw : g.wanted = some item) : item ∈ s.items ∧ item.value.id = g.id := by
  obtain ⟨-, he⟩ := mem_groups_iff.1 hg
  rw [he] at hw
  exact (Snapshot.item?_eq_some_iff hs).1 hw

/-- Every group is planned for once, in the order of the names. -/
theorem names_planned (hs : s.IsFaithful) (b : Bounds) :
    ((ofSnapshot s).planned b).map Planned.name = itemIds s := by
  unfold planned
  rw [Room.names_placeAll _ fun g hg item hw => (id_of_wanted hs hg hw).2]
  simp only [ofSnapshot, List.map_map]
  exact List.map_id _

theorem nodup_names_planned (hs : s.IsFaithful) (b : Bounds) :
    (((ofSnapshot s).planned b).map Planned.name).Nodup := by
  rw [names_planned hs]
  exact nodup_itemIds s

/-- What is planned is planned for the replicas of an item of the roster. -/
theorem replicas_of_mem_planned (hs : s.IsFaithful) {t : Planned}
    (h : t ∈ (ofSnapshot s).planned b) :
    t.name ∈ itemIds s ∧ t.replicas = (group s (s.assignments.map (replica s)) t.name).replicas := by
  obtain ⟨g, hg, ht⟩ := of_mem_planned h
  obtain ⟨hid, he⟩ := mem_groups_iff.1 hg
  cases ht with
  | removed hw => exact ⟨hid, congrArg Group.replicas he⟩
  | @placed item hw room hids =>
    show item.value.id ∈ _ ∧ g.replicas = (group s _ item.value.id).replicas
    rw [(id_of_wanted hs hg hw).2]
    exact ⟨hid, congrArg Group.replicas he⟩

theorem replicasOf_of_mem_planned (hs : s.IsFaithful) {t : Planned}
    (h : t ∈ (ofSnapshot s).planned b) : ReplicasOf s.layout t.name t.replicas := by
  obtain ⟨hid, he⟩ := replicas_of_mem_planned hs h
  rw [he]
  exact replicasOf_group hs hid

/-- A replica that is planned for is an orphan if its holder does not exist. -/
theorem orphan_of_mem_planned (hs : s.IsFaithful) {t : Planned} (h : t ∈ (ofSnapshot s).planned b)
    {r : Replica} (hr : r ∈ t.replicas) : r.orphan = (s.member? r.holder).isNone := by
  rw [(replicas_of_mem_planned hs h).2] at hr
  exact orphan_of_mem_group hr

theorem isSome_item?_of_mem_planned (hs : s.IsFaithful) {t : Planned} (h : t ∈ (ofSnapshot s).planned b)
    (hitem : t.item?.isSome = true) : (s.item? t.name).isSome = true := by
  obtain ⟨g, hg, ht⟩ := of_mem_planned h
  cases ht with
  | removed hw => exact nomatch hitem
  | @placed item hw room hids =>
    exact Option.isSome_of_eq_some
      ((Snapshot.item?_eq_some_iff hs).2 ⟨(id_of_wanted hs hg hw).1, rfl⟩)

/-- All plans together promise a member no more than its limit leaves. -/
theorem countP_promises_planned_le (hs : s.IsFaithful) (b : Bounds) {e : Entry Member}
    (he : e ∈ s.members) :
    ((ofSnapshot s).planned b).countP (fun t => decide (e.value.id ∈ t.promises)) ≤
      e.value.limit - (s.assignments.map (·.value)).countP (·.holder == e.value.id) := by
  have hids := nodup_ids_seats hs
  have hseat := Spread.spareOf_of_mem hids (mem_seats_iff.2 ⟨e, he, rfl⟩)
  refine Nat.le_trans (Room.countP_promises_placeAll_le _ _ hids) (Nat.le_of_eq hseat)

end Roster

end Allotment
