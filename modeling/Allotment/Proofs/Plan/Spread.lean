import Allotment.Plan.Spread
import Allotment.Proofs.Plan.Roster
import Mathlib.Data.List.Perm.Basic

/-!
# What the choices of a plan yield

`choose?` picks an element of its list, and the best one if it compares by what is good
(`best_of_choose?`).  `Spread.excess` drops as many replicas as it is asked to, as far as there are any
(`length_excess`), and takes a zone its only replica only if enough zones are left
(`zone_of_mem_excess`).  `Spread.receivers` picks members with room that hold no replica, and leaves each of
them with one place less (`receivers_spec`); the first of them is in a zone with as few replicas as can be
(`of_head?_receivers`).  `Spread.zoneMove?` moves a replica out of a zone with several, and gives up only if
the replicas lie in distinct zones or no other zone can be reached (`of_zoneMove?_eq_none`).
-/

namespace Allotment

/-! ### Choosing -/

section Choose

variable {α : Type} {beats : α → α → Bool}

theorem foldl_choice_mem (l : List α) (a : α) :
    l.foldl (fun m x => if beats x m then x else m) a ∈ a :: l := by
  induction l generalizing a with
  | nil => simp
  | cons b l ih =>
    rw [List.foldl_cons]
    split
    · exact List.mem_cons_of_mem _ (ih b)
    · rcases List.mem_cons.1 (ih a) with h | h
      · rw [h]
        exact List.mem_cons_self
      · exact List.mem_cons_of_mem _ (List.mem_cons_of_mem _ h)

theorem mem_of_choose? {l : List α} {a : α} (h : choose? beats l = some a) : a ∈ l := by
  cases l with
  | nil => exact nomatch h
  | cons b l =>
    obtain rfl := Option.some.inj h
    exact foldl_choice_mem l b

theorem choose?_eq_none_iff {l : List α} : choose? beats l = none ↔ l = [] := by
  cases l <;> simp [choose?]

/-- If whoever beats another is at least as good, and whoever does not beat it is at most as good, then the
element that is left is at least as good as all. -/
theorem best_foldl_choice (good : α → α → Prop) (hrefl : ∀ x, good x x)
    (htrans : ∀ x y z, good x y → good y z → good x z)
    (hwin : ∀ x m, beats x m = true → good x m) (hlose : ∀ x m, beats x m = false → good m x)
    (l : List α) (a : α) :
    ∀ x ∈ a :: l, good (l.foldl (fun m x => if beats x m then x else m) a) x := by
  induction l generalizing a with
  | nil => simpa using hrefl a
  | cons b l ih =>
    intro x hx
    rw [List.foldl_cons]
    have hnext : good (if beats b a then b else a) a ∧ good (if beats b a then b else a) b := by
      cases hb : beats b a with
      | true => exact ⟨hwin b a hb, hrefl b⟩
      | false => exact ⟨hrefl a, hlose b a hb⟩
    have hbest := ih (if beats b a then b else a)
    rcases List.mem_cons.1 hx with rfl | hx
    · exact htrans _ _ _ (hbest _ List.mem_cons_self) hnext.1
    · rcases List.mem_cons.1 hx with rfl | hx
      · exact htrans _ _ _ (hbest _ List.mem_cons_self) hnext.2
      · exact hbest x (List.mem_cons_of_mem _ hx)

theorem best_of_choose? (good : α → α → Prop) (hrefl : ∀ x, good x x)
    (htrans : ∀ x y z, good x y → good y z → good x z)
    (hwin : ∀ x m, beats x m = true → good x m) (hlose : ∀ x m, beats x m = false → good m x)
    {l : List α} {a : α} (h : choose? beats l = some a) : ∀ x ∈ l, good a x := by
  cases l with
  | nil => exact nomatch h
  | cons b l =>
    obtain rfl := Option.some.inj h
    exact best_foldl_choice good hrefl htrans hwin hlose l b

variable [BEq α] [LawfulBEq α]

theorem replace_perm {l : List α} {a z : α} (h : a ∈ l) : (a :: l.replace a z).Perm (z :: l) := by
  induction l with
  | nil => exact nomatch h
  | cons b l ih =>
    rw [List.replace_cons]
    split
    next he =>
      rw [eq_of_beq he]
      exact List.Perm.swap _ _ _
    next he =>
      have hne : a ≠ b := fun e => by simp [e] at he
      have hmem : a ∈ l := (List.mem_cons.1 h).resolve_left hne
      exact (List.Perm.swap _ _ _).trans (((ih hmem).cons b).trans (List.Perm.swap _ _ _))

/-- Removing an element leaves the others. -/
theorem cons_eraseBySwap_perm {l : List α} {a : α} (h : a ∈ l) : (a :: eraseBySwap l a).Perm l := by
  unfold eraseBySwap
  obtain ⟨init, z, rfl⟩ := List.eq_nil_or_concat l |>.resolve_left fun he => by simp [he] at h
  rw [List.concat_eq_append, List.getLast?_append_of_ne_nil _ (by simp)]
  simp only [List.getLast?_singleton, List.dropLast_concat]
  by_cases hmem : a ∈ init
  · exact (replace_perm hmem).trans (List.perm_append_singleton z init).symm
  · have haz : a = z := by
      rw [List.concat_eq_append] at h
      rcases List.mem_append.1 h with h | h
      · exact absurd h hmem
      · exact List.mem_singleton.1 h
    rw [List.replace_of_not_mem (by simpa using hmem), haz]
    exact (List.perm_append_singleton z init).symm

/-- Whoever is drawn first, and then whoever is drawn from the others, are drawn once each. -/
theorem exists_draw_cons {n : Nat} {l taken : List α} {a : α} (ha : a ∈ l)
    (h : ∃ rest, (taken ++ rest).Perm (eraseBySwap l a) ∧ taken.length = min n (eraseBySwap l a).length) :
    ∃ rest, (a :: taken ++ rest).Perm l ∧ (a :: taken).length = min (n + 1) l.length := by
  obtain ⟨rest, hrest, htaken⟩ := h
  have hperm := cons_eraseBySwap_perm ha
  have hlength := hperm.length_eq
  refine ⟨rest, (hrest.cons a).trans hperm, ?_⟩
  simp only [List.length_cons] at hlength ⊢
  omega

end Choose

namespace Spread

/-! ### Excess -/

/-- The dropped replicas are some of those given, each dropped once. -/
theorem excess_perm (n : Nat) (rs : List Replica) :
    ∃ rest, (excess n rs ++ rest).Perm rs ∧ (excess n rs).length = min n rs.length := by
  induction n generalizing rs with
  | zero => exact ⟨rs, List.Perm.refl rs, by simp [excess]⟩
  | succ n ih =>
    unfold excess
    split
    next hn =>
      rw [choose?_eq_none_iff] at hn
      subst hn
      exact ⟨[], List.Perm.refl [], by simp⟩
    next r hr => exact exists_draw_cons (mem_of_choose? hr) (ih (eraseBySwap rs r))

theorem length_excess (n : Nat) (rs : List Replica) : (excess n rs).length = min n rs.length :=
  (excess_perm n rs).choose_spec.2

theorem mem_of_mem_excess {n : Nat} {rs : List Replica} {r : Replica} (h : r ∈ excess n rs) :
    r ∈ rs := by
  obtain ⟨rest, hperm, -⟩ := excess_perm n rs
  exact hperm.mem_iff.1 (List.mem_append_left _ h)

theorem nodup_excess {n : Nat} {rs : List Replica} (h : rs.Nodup) : (excess n rs).Nodup := by
  obtain ⟨rest, hperm, -⟩ := excess_perm n rs
  exact (List.nodup_append.1 (hperm.nodup_iff.2 h)).1

/-- The zones of replicas are apart if none of them holds two. -/
theorem nodup_zones {rs : List Replica} (h : ∀ r ∈ rs, inZone rs r.zone ≤ 1) :
    (rs.map (·.zone)).Nodup := by
  rw [List.nodup_iff_count_le_one]
  intro z
  by_cases hz : z ∈ rs.map (·.zone)
  · obtain ⟨r, hr, rfl⟩ := List.mem_map.1 hz
    rw [List.count_eq_countP, List.countP_map]
    exact h r hr
  · rw [List.count_eq_zero.2 hz]
    exact Nat.zero_le 1

/-- In a zone with two replicas there is another one. -/
theorem exists_ne_of_two_le_inZone {rs : List Replica} (hrs : rs.Nodup) {r : Replica}
    (h : 2 ≤ inZone rs r.zone) : ∃ q ∈ rs, q ≠ r ∧ q.zone = r.zone := by
  refine Decidable.byContradiction fun hnone => ?_
  have honly : ∀ q ∈ rs.filter (·.zone == r.zone), q ∈ [r] := by
    intro q hq
    obtain ⟨hmem, hz⟩ := List.mem_filter.1 hq
    refine List.mem_singleton.2 (Decidable.byContradiction fun hne => hnone ?_)
    exact ⟨q, hmem, hne, eq_of_beq hz⟩
  have hlength := ((hrs.filter _).subperm honly).length_le
  rw [← List.countP_eq_length_filter] at hlength
  have htwo : 2 ≤ rs.countP (·.zone == r.zone) := h
  have hone : rs.countP (·.zone == r.zone) ≤ 1 := hlength
  omega

/-- No zone is more crowded than that of the replica that goes first. -/
theorem inZone_le_of_choose? {rs : List Replica} {r q : Replica}
    (h : choose? (goesBefore rs) rs = some r) (hq : q ∈ rs) : inZone rs q.zone ≤ inZone rs r.zone :=
  best_of_choose? (fun a b => inZone rs b.zone ≤ inZone rs a.zone)
    (fun _ => Nat.le_refl _) (fun _ _ _ hxy hyz => Nat.le_trans hyz hxy)
    (fun x m hb => by
      simp only [goesBefore, Bool.or_eq_true, decide_eq_true_eq, Bool.and_eq_true, beq_iff_eq] at hb
      omega)
    (fun x m hb => by
      simp only [goesBefore, Bool.or_eq_false_iff, decide_eq_false_iff_not] at hb
      omega) h q hq

/-- A dropped replica shares its zone, or enough of the others lie in zones apart. -/
theorem zone_of_mem_excess {n : Nat} {rs : List Replica} (hrs : rs.Nodup) {r : Replica}
    (hr : r ∈ excess n rs) :
    (∃ q ∈ rs, q ≠ r ∧ q.zone = r.zone) ∨
      ∃ qs : List Replica, (∀ q ∈ qs, q ∈ rs) ∧ (qs.map (·.zone)).Nodup ∧
        rs.length < qs.length + n := by
  induction n generalizing rs with
  | zero => exact nomatch hr
  | succ n ih =>
    unfold excess at hr
    split at hr
    next => exact nomatch hr
    next x hx =>
      have hperm := cons_eraseBySwap_perm (mem_of_choose? hx)
      rcases List.mem_cons.1 hr with rfl | hr
      · by_cases htwo : 2 ≤ inZone rs r.zone
        · exact .inl (exists_ne_of_two_le_inZone hrs htwo)
        · refine .inr ⟨rs, fun _ hq => hq, nodup_zones fun q hq => ?_, by omega⟩
          have hle := inZone_le_of_choose? hx hq
          omega
      · have hnodup := hperm.nodup_iff.2 hrs
        have hlength := hperm.length_eq
        rw [List.length_cons] at hlength
        rcases ih (List.nodup_cons.1 hnodup).2 hr with ⟨q, hq, hne, hz⟩ | ⟨qs, hqs, hzones, hlt⟩
        · exact .inl ⟨q, hperm.mem_iff.1 (List.mem_cons_of_mem _ hq), hne, hz⟩
        · refine .inr ⟨qs, fun q hq => ?_, hzones, by omega⟩
          exact hperm.mem_iff.1 (List.mem_cons_of_mem _ (hqs q hq))

/-! ### Receivers -/

/-- What a member may still take. -/
def spareOf (seats : List Seat) (m : MemberId) : Nat :=
  ((seats.find? fun s => s.id == m).map (·.spare)).getD 0

theorem spareOf_cons (s : Seat) (seats : List Seat) (m : MemberId) :
    spareOf (s :: seats) m = if s.id = m then s.spare else spareOf seats m := by
  unfold spareOf
  rw [List.find?_cons]
  by_cases h : s.id = m
  · simp [h]
  · simp [beq_false_of_ne h, h]

theorem spareOf_of_mem {seats : List Seat} (h : (seats.map (·.id)).Nodup) {s : Seat}
    (hs : s ∈ seats) : spareOf seats s.id = s.spare := by
  induction seats with
  | nil => exact nomatch hs
  | cons t seats ih =>
    rw [List.map_cons, List.nodup_cons] at h
    rw [spareOf_cons]
    rcases List.mem_cons.1 hs with rfl | hs
    · rw [if_pos rfl]
    · have hne : t.id ≠ s.id := fun e => h.1 (e ▸ List.mem_map_of_mem hs)
      rw [if_neg hne, ih h.2 hs]

theorem exists_seat_of_spareOf_pos {seats : List Seat} {m : MemberId} (h : 0 < spareOf seats m) :
    ∃ s ∈ seats, s.id = m ∧ 0 < s.spare := by
  unfold spareOf at h
  cases hf : seats.find? fun s => s.id == m with
  | none =>
    rw [hf] at h
    exact absurd h (Nat.lt_irrefl 0)
  | some s =>
    rw [hf] at h
    exact ⟨s, List.mem_of_find?_eq_some hf, by simpa using List.find?_some hf, h⟩

theorem ids_occupy (seats : List Seat) (m : MemberId) :
    (occupy seats m).map (·.id) = seats.map (·.id) := by
  unfold occupy
  rw [List.map_map]
  apply List.map_congr_left
  intro s _
  simp only [Function.comp]
  split <;> rfl

theorem spareOf_occupy (seats : List Seat) (m m' : MemberId) :
    spareOf (occupy seats m') m = if m' = m then spareOf seats m - 1 else spareOf seats m := by
  induction seats with
  | nil => simp [occupy, spareOf]
  | cons s seats ih =>
    have hcons : occupy (s :: seats) m' =
        (if s.id == m' then { s with spare := s.spare - 1 } else s) :: occupy seats m' := rfl
    rw [hcons, spareOf_cons, spareOf_cons, ih]
    by_cases hs : s.id = m'
    · subst hs
      by_cases hm : s.id = m <;> simp [hm]
    · simp only [beq_false_of_ne hs, Bool.false_eq_true, ↓reduceIte]
      by_cases hm : s.id = m
      · have hne : ¬ m' = m := fun e => hs (hm.trans e.symm)
        simp [hm, hne]
      · simp [hm]

theorem ids_receivers (need : Nat) (zones : List String) (holders : List MemberId)
    (seats : List Seat) :
    (receivers need zones holders seats).2.map (·.id) = seats.map (·.id) := by
  induction need generalizing zones holders seats with
  | zero => rfl
  | succ need ih =>
    unfold receivers
    split
    · rfl
    · exact (ih _ _ _).trans (ids_occupy _ _)

/-- A receiver is chosen among those that have room and hold no replica yet. -/
theorem mem_eligible_iff {holders : List MemberId} {seats : List Seat} {s : Seat} :
    s ∈ seats.filter (fun m => decide (0 < m.spare) && !holders.contains m.id) ↔
      s ∈ seats ∧ 0 < s.spare ∧ s.id ∉ holders := by
  simp [List.mem_filter]

/-- A receiver holds no replica yet and gives one place away, and the others keep theirs. -/
theorem receivers_spec (need : Nat) (zones : List String) (holders : List MemberId)
    {seats : List Seat} (hids : (seats.map (·.id)).Nodup) (m : MemberId) :
    (m ∈ (receivers need zones holders seats).1 →
      m ∉ holders ∧ spareOf (receivers need zones holders seats).2 m + 1 = spareOf seats m) ∧
    (m ∉ (receivers need zones holders seats).1 →
      spareOf (receivers need zones holders seats).2 m = spareOf seats m) := by
  induction need generalizing zones holders seats with
  | zero => exact ⟨fun h => absurd h List.not_mem_nil, fun _ => rfl⟩
  | succ need ih =>
    unfold receivers
    split
    next => exact ⟨fun h => absurd h List.not_mem_nil, fun _ => rfl⟩
    next s hs =>
      obtain ⟨hmem, hroom, hfree⟩ := mem_eligible_iff.1 (mem_of_choose? hs)
      have hspare : 0 < spareOf seats s.id := by
        rw [spareOf_of_mem hids hmem]
        exact hroom
      have hids' : ((occupy seats s.id).map (·.id)).Nodup := by rwa [ids_occupy]
      obtain ⟨hin, hout⟩ := ih (s.id.zone :: zones) (s.id :: holders) hids'
      rw [spareOf_occupy] at hin hout
      simp only [List.mem_cons, not_or] at hin ⊢
      by_cases hm : s.id = m
      · subst hm
        -- the chosen member holds a replica from now on, so that it is not chosen again
        have hnot : s.id ∉ (receivers need (s.id.zone :: zones) (s.id :: holders)
            (occupy seats s.id)).1 := fun h => (hin h).1.1 rfl
        rw [hout hnot, if_pos rfl]
        exact ⟨fun _ => ⟨hfree, by omega⟩, fun h => absurd rfl h.1⟩
      · rw [if_neg hm] at hin hout
        refine ⟨fun h => ?_, fun h => hout h.2⟩
        obtain ⟨⟨-, hm'⟩, hs'⟩ := hin (h.resolve_left fun e => hm e.symm)
        exact ⟨hm', hs'⟩

/-- No member receives a replica exactly if none is needed, or no member without one has room. -/
theorem receivers_eq_nil_iff {need : Nat} {zones : List String} {holders : List MemberId}
    {seats : List Seat} :
    (receivers need zones holders seats).1 = [] ↔
      need = 0 ∨ ∀ s ∈ seats, 0 < s.spare → s.id ∈ holders := by
  cases need with
  | zero => simp [receivers]
  | succ need =>
    unfold receivers
    split
    next hn =>
      rw [choose?_eq_none_iff, List.filter_eq_nil_iff] at hn
      simpa using hn
    next s hs =>
      obtain ⟨hmem, hroom, hfree⟩ := mem_eligible_iff.1 (mem_of_choose? hs)
      simp only [reduceCtorEq, Nat.add_one_ne_zero, false_or, false_iff]
      exact fun hall => hfree (hall s hmem hroom)

/-- The first receiver has room, holds no replica yet and is in a zone with as few replicas as that of any
other member with room. -/
theorem of_head?_receivers {need : Nat} {zones : List String} {holders : List MemberId}
    {seats : List Seat} {m : MemberId} (h : (receivers need zones holders seats).1.head? = some m) :
    0 < need ∧ m ∉ holders ∧ (∃ s ∈ seats, s.id = m ∧ 0 < s.spare) ∧
      ∀ s ∈ seats, 0 < s.spare → s.id ∉ holders → zones.count m.zone ≤ zones.count s.id.zone := by
  cases need with
  | zero => exact nomatch h
  | succ need =>
    unfold receivers at h
    split at h
    next => exact nomatch h
    next s hs =>
      obtain rfl := Option.some.inj h
      have hbest := best_of_choose? (fun a b : Seat => zones.count a.id.zone ≤ zones.count b.id.zone)
        (fun _ => Nat.le_refl _) (fun _ _ _ hxy hyz => Nat.le_trans hxy hyz)
        (fun x m hb => by
          simp only [preferred, Bool.or_eq_true, decide_eq_true_eq, Bool.and_eq_true, beq_iff_eq] at hb
          omega)
        (fun x m hb => by
          simp only [preferred, Bool.or_eq_false_iff, decide_eq_false_iff_not] at hb
          omega) hs
      obtain ⟨hmem, hspare, hnot⟩ := mem_eligible_iff.1 (mem_of_choose? hs)
      exact ⟨Nat.succ_pos _, hnot, ⟨s, hmem, rfl, hspare⟩,
        fun t ht hpos hout => hbest t (mem_eligible_iff.2 ⟨ht, hpos, hout⟩)⟩

theorem seats_of_receivers_eq_nil {need : Nat} {zones : List String} {holders : List MemberId}
    {seats : List Seat} (h : (receivers need zones holders seats).1 = []) :
    (receivers need zones holders seats).2 = seats := by
  cases need with
  | zero => rfl
  | succ need =>
    unfold receivers at h ⊢
    split at h
    next => rfl
    next => exact nomatch h

/-! ### Moves between zones -/

theorem hasOpenZone_iff {seats : List Seat} {holders : List MemberId} {staying : List Replica} :
    hasOpenZone seats holders staying = true ↔
      ∃ s ∈ seats, 0 < s.spare ∧ s.id ∉ holders ∧ ∀ r ∈ staying, r.zone ≠ s.id.zone := by
  simp [hasOpenZone, inZone, List.countP_eq_zero, and_assoc]

theorem zoneMove?_eq_some {seats : List Seat} {holders : List MemberId} {wanted : Nat}
    {staying : List Replica} {r : Replica} (h : zoneMove? seats holders wanted staying = some r) :
    r ∈ staying ∧ wanted ≤ staying.length ∧ hasOpenZone seats holders staying = true := by
  unfold zoneMove? at h
  split at h
  next => exact nomatch h
  next hlen =>
    split at h
    next => exact nomatch h
    next zone _ =>
      split at h
      next hopen =>
        rw [Bool.and_eq_true] at hopen
        exact ⟨(List.mem_filter.1 (List.mem_of_getLast? h)).1, by omega, hopen.2⟩
      next => exact nomatch h

/-- The replica that moves leaves a zone with several. -/
theorem two_le_inZone_of_zoneMove? {seats : List Seat} {holders : List MemberId} {wanted : Nat}
    {staying : List Replica} {r : Replica} (h : zoneMove? seats holders wanted staying = some r) :
    2 ≤ inZone staying r.zone := by
  unfold zoneMove? at h
  split at h
  next => exact nomatch h
  next =>
    split at h
    next => exact nomatch h
    next zone _ =>
      split at h
      next hopen =>
        rw [Bool.and_eq_true, decide_eq_true_eq] at hopen
        have hz := (List.mem_filter.1 (List.mem_of_getLast? h)).2
        rw [eq_of_beq hz]
        exact hopen.1
      next => exact nomatch h

theorem inZone_le_of_crowdedZone? {rs : List Replica} {zone : String}
    (h : crowdedZone? rs = some zone) {r : Replica} (hr : r ∈ rs) :
    inZone rs r.zone ≤ inZone rs zone := by
  refine best_of_choose? (fun a b => inZone rs b ≤ inZone rs a) (fun _ => Nat.le_refl _)
    (fun _ _ _ hxy hyz => Nat.le_trans hyz hxy) (fun x m hb => Nat.le_of_lt (by simpa using hb))
    (fun x m hb => by simpa using hb) h r.zone ?_
  rw [(eraseReps_of_ascending (pairwise_mergeSort_le _)).2, List.mem_mergeSort]
  exact List.mem_map_of_mem hr

/-- If no replica moves, then each zone holds one at most, or no zone is open. -/
theorem of_zoneMove?_eq_none {seats : List Seat} {holders : List MemberId} {wanted : Nat}
    {staying : List Replica} (h : zoneMove? seats holders wanted staying = none)
    (hlen : wanted ≤ staying.length) :
    (∀ r ∈ staying, inZone staying r.zone ≤ 1) ∨ hasOpenZone seats holders staying = false := by
  unfold zoneMove? at h
  rw [if_neg (by omega)] at h
  split at h
  next hnone =>
    left
    intro r hr
    unfold crowdedZone? at hnone
    rw [choose?_eq_none_iff] at hnone
    have hz : r.zone ∈ ((staying.map (·.zone)).mergeSort (· ≤ ·)).eraseReps := by
      rw [(eraseReps_of_ascending (pairwise_mergeSort_le _)).2, List.mem_mergeSort]
      exact List.mem_map_of_mem hr
    rw [hnone] at hz
    exact nomatch hz
  next zone hzone =>
    by_cases hopen : hasOpenZone seats holders staying
    · left
      intro r hr
      have hle := inZone_le_of_crowdedZone? hzone hr
      by_cases htwo : 2 ≤ inZone staying zone
      · rw [hopen, decide_eq_true htwo, Bool.and_self, if_pos rfl, List.getLast?_eq_none_iff,
          List.filter_eq_nil_iff] at h
        have hpos : 0 < inZone staying zone := by omega
        obtain ⟨q, hq, hqz⟩ := List.countP_pos_iff.1 hpos
        exact absurd hqz (h q hq)
      · omega
    · right
      simpa using hopen

end Spread

end Allotment
