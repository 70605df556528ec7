import Allotment.Proofs.Plan.Placement
import Mathlib.Data.Finset.Card
import Mathlib.Data.List.Perm.Subperm
import Mathlib.Data.Prod.Lex
import Mathlib.Data.String.Basic

/-!
# Who receives a replica

The receivers of an item are drawn one at a time from the members with room that hold no replica of it: first
whose zone has the fewest replicas, then who has the most to spare, then the smallest key (`Spread.rank`).
Since ranks differ, the list from which they are drawn may be in any order (`Spread.drawn_perm`), and each of
them is the least of those that are left (`Spread.rank_le_of_drawn`).  A zone that the item does not reach yet
goes before one that it reaches, so that the item reaches as many zones as it can (`Spread.reach_drawn`).
`Spread.Chosen` says all this of receivers and of the room that they leave, and it holds at each item of a plan
(`Spread.chosen_receivers`, `Roster.chosen_of_mem_planned`).
-/

namespace Allotment

/-! ### Choosing the least -/

section Choose

variable {α β : Type} [LinearOrder β] {beats : α → α → Bool} {rank : α → β}

theorem rank_le_of_choose? (hbeats : ∀ a b, beats a b = true ↔ rank a < rank b) {l : List α} {a : α}
    (h : choose? beats l = some a) : ∀ x ∈ l, rank a ≤ rank x := by
  refine best_of_choose? (fun a b => rank a ≤ rank b) (fun _ => le_refl _) (fun _ _ _ => le_trans)
    (fun x m hb => le_of_lt ((hbeats x m).1 hb)) (fun x m hb => not_lt.1 fun hlt => ?_) h
  rw [(hbeats x m).2 hlt] at hb
  exact nomatch hb

/-- Of elements with different ranks the same one is chosen in whatever order they stand. -/
theorem choose?_perm (hbeats : ∀ a b, beats a b = true ↔ rank a < rank b) {l l' : List α}
    (hperm : l.Perm l') (hranks : ∀ a ∈ l, ∀ b ∈ l, rank a = rank b → a = b) :
    choose? beats l = choose? beats l' := by
  cases h : choose? beats l with
  | none =>
    rw [choose?_eq_none_iff] at h
    subst h
    rw [← hperm.nil_eq]
    rfl
  | some a =>
    cases h' : choose? beats l' with
    | none =>
      rw [choose?_eq_none_iff] at h'
      subst h'
      rw [hperm.eq_nil] at h
      exact nomatch h
    | some b =>
      have hb : b ∈ l := hperm.mem_iff.2 (mem_of_choose? h')
      have hab := rank_le_of_choose? hbeats h b hb
      have hba := rank_le_of_choose? hbeats h' a (hperm.mem_iff.1 (mem_of_choose? h))
      rw [hranks a (mem_of_choose? h) b hb (le_antisymm hab hba)]

end Choose

namespace Spread

/-- All members are told apart by their identities, and by their keys. -/
structure Distinct (seats : List Seat) : Prop where
  ids : (seats.map (·.id)).Nodup
  keys : (seats.map (·.key)).Nodup

/-- The members that can take a replica: they have room and hold none. -/
def candidates (holders : List MemberId) (seats : List Seat) : List Seat :=
  seats.filter fun m => decide (0 < m.spare) && !holders.contains m.id

/-- The order in which candidates are drawn: by the replicas in their zone, then by what they have to spare,
most first, then by their keys. -/
def rank (zones : List String) (m : Seat) : ℕ ×ₗ ℕᵒᵈ ×ₗ String :=
  toLex (zones.count m.id.zone, toLex (OrderDual.toDual m.spare, m.key))

/-- Draws candidates from a list one at a time. The last of the list takes the place of whoever is drawn. -/
def drawn : (need : Nat) → (zones : List String) → List Seat → List Seat
  | 0, _, _ => []
  | need + 1, zones, cs =>
    match choose? (preferred zones) cs with
    | none => []
    | some m => m :: drawn need (m.id.zone :: zones) (eraseBySwap cs m)

variable {need : Nat} {zones : List String} {holders : List MemberId} {seats cs cs' : List Seat} {m : Seat}

theorem mem_candidates_iff : m ∈ candidates holders seats ↔ m ∈ seats ∧ 0 < m.spare ∧ m.id ∉ holders := by
  simp [candidates]

theorem Distinct.sublist (h : Distinct seats) (hsub : cs.Sublist seats) : Distinct cs :=
  ⟨h.ids.sublist (hsub.map _), h.keys.sublist (hsub.map _)⟩

theorem Distinct.perm (h : Distinct cs) (hperm : cs.Perm cs') : Distinct cs' :=
  ⟨(hperm.map _).nodup_iff.1 h.ids, (hperm.map _).nodup_iff.1 h.keys⟩

theorem Distinct.nodup (h : Distinct cs) : cs.Nodup :=
  h.ids.of_map

theorem Distinct.candidates (h : Distinct seats) (holders : List MemberId) :
    Distinct (candidates holders seats) :=
  h.sublist List.filter_sublist

theorem preferred_iff (zones : List String) (a b : Seat) :
    preferred zones a b = true ↔ rank zones a < rank zones b := by
  simp [preferred, rank, Prod.Lex.toLex_lt_toLex]

theorem rank_congr {zones' : List String} (h : zones.Perm zones') (m : Seat) :
    rank zones m = rank zones' m := by
  unfold rank
  rw [h.count_eq]

theorem key_eq_of_rank {a b : Seat} (h : rank zones a = rank zones b) : a.key = b.key := by
  simp only [rank, EmbeddingLike.apply_eq_iff_eq, Prod.mk.injEq] at h
  exact h.2.2

theorem Distinct.eq_of_rank (h : Distinct cs) {a b : Seat} (ha : a ∈ cs) (hb : b ∈ cs)
    (hrank : rank zones a = rank zones b) : a = b :=
  List.inj_on_of_nodup_map h.keys ha hb (key_eq_of_rank hrank)

/-! ### Drawing -/

/-- The order in which the candidates stand does not matter. -/
theorem drawn_perm (hcs : Distinct cs) (hperm : cs.Perm cs') (need : Nat) (zones : List String) :
    drawn need zones cs = drawn need zones cs' := by
  induction need generalizing zones cs cs' with
  | zero => rfl
  | succ need ih =>
    have hsame := choose?_perm (preferred_iff zones) hperm fun a ha b hb => hcs.eq_of_rank ha hb
    cases h : choose? (preferred zones) cs with
    | none => simp only [drawn, ← hsame, h]
    | some m =>
      have hmem := mem_of_choose? h
      have herase := cons_eraseBySwap_perm hmem
      have herase' := cons_eraseBySwap_perm (hperm.mem_iff.1 hmem)
      have hrest : (eraseBySwap cs m).Perm (eraseBySwap cs' m) :=
        (herase.trans (hperm.trans herase'.symm)).cons_inv
      have hdistinct : Distinct (eraseBySwap cs m) :=
        (hcs.perm herase.symm).sublist (List.sublist_cons_self m _)
      simp only [drawn, ← hsame, h, ih hdistinct hrest]

/-- Different candidates are drawn, as many as are needed, as far as there are any. -/
theorem exists_drawn_append_perm (need : Nat) (zones : List String) (cs : List Seat) :
    ∃ rest, (drawn need zones cs ++ rest).Perm cs ∧ (drawn need zones cs).length = min need cs.length := by
  induction need generalizing zones cs with
  | zero => exact ⟨cs, List.Perm.refl cs, by simp [drawn]⟩
  | succ need ih =>
    unfold drawn
    split
    next hnone =>
      rw [choose?_eq_none_iff] at hnone
      subst hnone
      exact ⟨[], List.Perm.refl [], by simp⟩
    next m hm => exact exists_draw_cons (mem_of_choose? hm) (ih (m.id.zone :: zones) (eraseBySwap cs m))

theorem drawn_subperm (need : Nat) (zones : List String) (cs : List Seat) :
    (drawn need zones cs).Subperm cs := by
  obtain ⟨rest, hperm, -⟩ := exists_drawn_append_perm need zones cs
  exact (List.sublist_append_left _ rest).subperm.trans hperm.subperm

theorem length_drawn (need : Nat) (zones : List String) (cs : List Seat) :
    (drawn need zones cs).length = min need cs.length :=
  (exists_drawn_append_perm need zones cs).choose_spec.2

/-- Whoever is drawn has the least rank of those that have not been drawn before. -/
theorem rank_le_of_drawn {before after : List Seat} (h : drawn need zones cs = before ++ m :: after) :
    ∀ c ∈ cs, c ∉ before →
      rank (zones ++ before.map (·.id.zone)) m ≤ rank (zones ++ before.map (·.id.zone)) c := by
  induction need generalizing zones cs before with
  | zero => simp [drawn] at h
  | succ need ih =>
    intro c hc hout
    unfold drawn at h
    split at h
    next => simp at h
    next first hfirst =>
      cases before with
      | nil =>
        obtain ⟨rfl, -⟩ := List.cons.inj h
        simpa using rank_le_of_choose? (preferred_iff zones) hfirst c hc
      | cons b before =>
        obtain ⟨rfl, hrest⟩ := List.cons.inj h
        rw [List.mem_cons, not_or] at hout
        have hmem : c ∈ eraseBySwap cs first :=
          (List.mem_cons.1 ((cons_eraseBySwap_perm (mem_of_choose? hfirst)).mem_iff.2 hc)).resolve_left hout.1
        have hzones : (zones ++ (first :: before).map (·.id.zone)).Perm
            (first.id.zone :: zones ++ before.map (·.id.zone)) := List.perm_middle
        rw [rank_congr hzones, rank_congr hzones]
        exact ih hrest c hmem hout.2

/-! ### The zones that are reached -/

/-- The number of zones that replicas and members lie in. -/
def reach (zones : List String) (ms : List Seat) : Nat :=
  (zones ++ ms.map (·.id.zone)).toFinset.card

/-- The zones of members that no replica lies in. -/
def fresh (zones : List String) (ms : List Seat) : Finset String :=
  (ms.map (·.id.zone)).toFinset \ zones.toFinset

theorem reach_eq (zones : List String) (ms : List Seat) :
    reach zones ms = zones.toFinset.card + (fresh zones ms).card := by
  unfold reach fresh
  rw [List.toFinset_append, ← Finset.union_sdiff_self_eq_union,
    Finset.card_union_of_disjoint Finset.disjoint_sdiff]

/-- No choice of members reaches more new zones than there are members, or than there are new zones. -/
theorem reach_le_of_subperm (zones : List String) {chosen : List Seat} (h : chosen.Subperm cs) :
    reach zones chosen ≤ zones.toFinset.card + min chosen.length (fresh zones cs).card := by
  have hlength : (fresh zones chosen).card ≤ chosen.length := by
    refine (Finset.card_le_card Finset.sdiff_subset).trans ((List.toFinset_card_le _).trans ?_)
    rw [List.length_map]
  have hsubset : fresh zones chosen ⊆ fresh zones cs := by
    refine Finset.sdiff_subset_sdiff (fun z hz => ?_) (Finset.Subset.refl _)
    rw [List.mem_toFinset] at hz ⊢
    exact List.map_subset _ h.subset hz
  have hfresh := Finset.card_le_card hsubset
  rw [reach_eq]
  omega

theorem fresh_cons (zones : List String) (m : Seat) (ms : List Seat) :
    fresh (m.id.zone :: zones) ms = (fresh zones (m :: ms)).erase m.id.zone := by
  ext z
  simp only [fresh, Finset.mem_sdiff, Finset.mem_erase, List.mem_toFinset, List.map_cons, List.mem_cons]
  tauto

theorem fresh_perm (h : cs.Perm cs') (zones : List String) : fresh zones cs = fresh zones cs' := by
  unfold fresh
  rw [List.toFinset_eq_of_perm _ _ (h.map _)]

/-- As long as some candidate lies in a new zone, one that does is drawn. -/
theorem zone_mem_fresh_of_choose? (h : choose? (preferred zones) cs = some m)
    (hfresh : (fresh zones cs).Nonempty) : m.id.zone ∈ fresh zones cs := by
  obtain ⟨z, hz⟩ := hfresh
  simp only [fresh, Finset.mem_sdiff, List.mem_toFinset, List.mem_map] at hz ⊢
  obtain ⟨⟨c, hc, rfl⟩, hnew⟩ := hz
  refine ⟨⟨m, mem_of_choose? h, rfl⟩, fun hold => ?_⟩
  have hrank := rank_le_of_choose? (preferred_iff zones) h c hc
  have hcount : zones.count m.id.zone ≤ zones.count c.id.zone := by
    rw [rank, rank, Prod.Lex.toLex_le_toLex] at hrank
    omega
  rw [List.count_eq_zero.2 hnew] at hcount
  exact absurd (List.count_pos_iff.2 hold) (by omega)

/-- The members that are drawn reach as many new zones as they can. -/
theorem reach_drawn (need : Nat) (zones : List String) (cs : List Seat) :
    reach zones (drawn need zones cs) = zones.toFinset.card + min need (fresh zones cs).card := by
  induction need generalizing zones cs with
  | zero => simp [drawn, reach]
  | succ need ih =>
    unfold drawn
    split
    next hnone =>
      rw [choose?_eq_none_iff] at hnone
      simp [hnone, reach, fresh]
    next m hm =>
      have hstep := ih (m.id.zone :: zones) (eraseBySwap cs m)
      rw [fresh_cons, fresh_perm (cons_eraseBySwap_perm (mem_of_choose? hm))] at hstep
      have hreach : reach zones (m :: drawn need (m.id.zone :: zones) (eraseBySwap cs m)) =
          reach (m.id.zone :: zones) (drawn need (m.id.zone :: zones) (eraseBySwap cs m)) :=
        congrArg Finset.card (List.toFinset_eq_of_perm _ _ List.perm_middle)
      rw [hreach, hstep, List.toFinset_cons]
      by_cases hnew : m.id.zone ∈ fresh zones cs
      · have hout : m.id.zone ∉ zones.toFinset := (Finset.mem_sdiff.1 hnew).2
        have hpos := Finset.card_pos.2 ⟨_, hnew⟩
        rw [Finset.card_insert_of_notMem hout, Finset.card_erase_of_mem hnew]
        omega
      · have hnone : fresh zones cs = ∅ :=
          Finset.not_nonempty_iff_eq_empty.1 fun hsome => hnew (zone_mem_fresh_of_choose? hm hsome)
        have hin : m.id.zone ∈ zones.toFinset := by
          by_contra hout
          refine hnew (Finset.mem_sdiff.2 ⟨List.mem_toFinset.2 ?_, hout⟩)
          exact List.mem_map_of_mem (mem_of_choose? hm)
        rw [Finset.insert_eq_self.2 hin, hnone]
        simp

/-! ### Receivers -/

theorem keys_occupy (seats : List Seat) (m : MemberId) :
    (occupy seats m).map (·.key) = seats.map (·.key) := by
  unfold occupy
  rw [List.map_map]
  refine List.map_congr_left fun s _ => ?_
  simp only [Function.comp]
  split <;> rfl

theorem Distinct.occupy (h : Distinct seats) (m : MemberId) : Distinct (occupy seats m) :=
  ⟨(ids_occupy seats m).symm ▸ h.ids, (keys_occupy seats m).symm ▸ h.keys⟩

/-- Without its member, the candidates are those that are left. -/
theorem candidates_occupy (holders : List MemberId) (seats : List Seat) (m : MemberId) :
    candidates (m :: holders) (occupy seats m) = (candidates holders seats).filter (·.id != m) := by
  induction seats with
  | nil => rfl
  | cons s seats ih =>
    simp only [candidates, occupy, List.map_cons, List.filter_cons] at ih ⊢
    by_cases hs : s.id = m
    · by_cases hspare : 0 < s.spare <;> by_cases hout : s.id ∈ holders <;> simp_all
    · by_cases hspare : 0 < s.spare <;> by_cases hout : s.id ∈ holders <;> simp_all

/-- Receivers are drawn from the candidates. -/
theorem receivers_eq_drawn (h : Distinct seats) (need : Nat) (zones : List String)
    (holders : List MemberId) :
    (receivers need zones holders seats).1 =
      (drawn need zones (candidates holders seats)).map (·.id) := by
  induction need generalizing zones holders seats with
  | zero => rfl
  | succ need ih =>
    cases hfirst : choose? (preferred zones) (candidates holders seats) with
    | none =>
      have hnone : receivers (need + 1) zones holders seats = ([], seats) := by
        unfold candidates at hfirst
        simp only [receivers, hfirst]
      simp only [hnone, drawn, hfirst, List.map_nil]
    | some m =>
      have hsome : (receivers (need + 1) zones holders seats).1 =
          m.id :: (receivers need (m.id.zone :: zones) (m.id :: holders) (occupy seats m.id)).1 := by
        unfold candidates at hfirst
        simp only [receivers, hfirst]
      have hcs := h.candidates holders
      have herase := cons_eraseBySwap_perm (mem_of_choose? hfirst)
      -- the candidates that are left are those that are not the member drawn first
      have hrest : ((candidates holders seats).filter (·.id != m.id)).Perm
          (eraseBySwap (candidates holders seats) m) := by
        have hout := (List.nodup_cons.1 (hcs.perm herase.symm).ids).1
        have hall : (eraseBySwap (candidates holders seats) m).filter (·.id != m.id) =
            eraseBySwap (candidates holders seats) m := by
          refine List.filter_eq_self.2 fun c hc => bne_iff_ne.2 fun he => hout ?_
          exact List.mem_map.2 ⟨c, hc, he⟩
        have hfilter := herase.symm.filter (·.id != m.id)
        rwa [List.filter_cons_of_neg (by simp), hall] at hfilter
      have hdistinct := hcs.sublist (List.filter_sublist (p := (·.id != m.id)))
      rw [hsome, ih (h.occupy m.id), candidates_occupy, drawn_perm hdistinct hrest]
      simp only [drawn, hfirst, List.map_cons]

/-- A seat after some members have taken one more replica each. -/
def occupied (taken : List MemberId) (s : Seat) : Seat :=
  if s.id ∈ taken then { s with spare := s.spare - 1 } else s

theorem map_occupied_nil (seats : List Seat) : seats.map (occupied []) = seats := by
  have hsame : occupied [] = id := funext fun s => if_neg List.not_mem_nil
  rw [hsame, List.map_id]

theorem map_occupied_occupy {taken : List MemberId} {m : MemberId} (hm : m ∉ taken) (seats : List Seat) :
    (occupy seats m).map (occupied taken) = seats.map (occupied (m :: taken)) := by
  unfold occupy
  rw [List.map_map]
  refine List.map_congr_left fun s _ => ?_
  by_cases hs : s.id = m
  · simp [occupied, hs, hm]
  · simp [occupied, hs]

/-- Each receiver has one place less afterwards, and nothing else changes. -/
theorem left_receivers (h : Distinct seats) (need : Nat) (zones : List String) (holders : List MemberId) :
    (receivers need zones holders seats).2 =
      seats.map (occupied (receivers need zones holders seats).1) := by
  induction need generalizing zones holders seats with
  | zero => exact (map_occupied_nil seats).symm
  | succ need ih =>
    unfold receivers
    split
    next => exact (map_occupied_nil seats).symm
    next m _ =>
      dsimp only
      rw [ih (h.occupy m.id)]
      refine map_occupied_occupy (fun hm => ?_) seats
      exact ((receivers_spec need _ _ (h.occupy m.id).ids m.id).1 hm).1 List.mem_cons_self

theorem Distinct.receivers (h : Distinct seats) (need : Nat) (zones : List String)
    (holders : List MemberId) : Distinct (receivers need zones holders seats).2 := by
  have hid : ∀ (taken : List MemberId) (s : Seat), (occupied taken s).id = s.id := fun taken s => by
    unfold occupied
    split <;> rfl
  have hkey : ∀ (taken : List MemberId) (s : Seat), (occupied taken s).key = s.key := fun taken s => by
    unfold occupied
    split <;> rfl
  rw [left_receivers h]
  refine ⟨?_, ?_⟩
  · simpa [List.map_map, Function.comp_def, hid] using h.ids
  · simpa [List.map_map, Function.comp_def, hkey] using h.keys

/-- What the members that take a number of needed replicas are like, and the seats after that: as many
candidates as possible, each with one place less, that reach as many zones as any others would, and each of
which has the least rank when it is drawn. -/
structure Chosen (need : Nat) (zones : List String) (holders : List MemberId) (seats : List Seat)
    (taken : List MemberId) (left : List Seat) : Prop where
  length : taken.length = min need (candidates holders seats).length
  nodup : taken.Nodup
  candidate : ∀ m ∈ taken, ∃ s ∈ seats, s.id = m ∧ 0 < s.spare ∧ m ∉ holders
  left_eq : left = seats.map (occupied taken)
  widest : ∀ others : List Seat, others.Subperm (candidates holders seats) →
    others.length = taken.length →
      (zones ++ others.map (·.id.zone)).toFinset.card ≤ (zones ++ taken.map (·.zone)).toFinset.card
  least : ∀ before m after, taken = before ++ m :: after → ∃ s ∈ candidates holders seats, s.id = m ∧
    ∀ c ∈ candidates holders seats, c.id ∉ before →
      rank (zones ++ before.map (·.zone)) s ≤ rank (zones ++ before.map (·.zone)) c

theorem chosen_receivers (h : Distinct seats) (need : Nat) (zones : List String)
    (holders : List MemberId) :
    Chosen need zones holders seats (receivers need zones holders seats).1
      (receivers need zones holders seats).2 := by
  have hdrawn := receivers_eq_drawn h need zones holders
  have hsub := drawn_subperm need zones (candidates holders seats)
  have hlength := length_drawn need zones (candidates holders seats)
  have hids : ((drawn need zones (candidates holders seats)).map (·.id)).Nodup := by
    obtain ⟨l, hperm, hl⟩ := hsub
    exact (((h.candidates holders).sublist hl).perm hperm).ids
  refine ⟨?_, hdrawn ▸ hids, fun m hm => ?_, left_receivers h need zones holders, ?_, ?_⟩
  · rw [hdrawn, List.length_map, hlength]
  · rw [hdrawn] at hm
    obtain ⟨s, hs, rfl⟩ := List.mem_map.1 hm
    obtain ⟨hmem, hspare, hout⟩ := mem_candidates_iff.1 (hsub.subset hs)
    exact ⟨s, hmem, rfl, hspare, hout⟩
  · intro others hothers hsame
    rw [hdrawn, List.map_map]
    rw [hdrawn, List.length_map, hlength] at hsame
    have hle := reach_le_of_subperm zones hothers
    have hreach := reach_drawn need zones (candidates holders seats)
    show reach zones others ≤ reach zones (drawn need zones (candidates holders seats))
    omega
  · intro before m after hsplit
    rw [hdrawn] at hsplit
    obtain ⟨first, rest, hparts, rfl, hrest⟩ := List.map_eq_append_iff.1 hsplit
    obtain ⟨s, last, rfl, rfl, -⟩ := List.map_eq_cons_iff.1 hrest
    refine ⟨s, hsub.subset ?_, rfl, fun c hc hout => ?_⟩
    · rw [hparts]
      exact List.mem_append_right _ List.mem_cons_self
    · rw [List.map_map]
      exact rank_le_of_drawn hparts c hc fun hbefore => hout (List.mem_map_of_mem hbefore)

/-- Receivers are drawn as is asked of them, and who they are depends neither on the order in which the
members stand nor on that in which the candidates are kept while they are drawn. -/
theorem receivers_drawn (h : Distinct seats) (need : Nat) (zones : List String) (holders : List MemberId) :
    Chosen need zones holders seats (receivers need zones holders seats).1
        (receivers need zones holders seats).2 ∧
      (∀ stored : List Seat, stored.Perm (candidates holders seats) →
        (drawn need zones stored).map (·.id) = (receivers need zones holders seats).1) ∧
      ∀ seats' : List Seat, seats'.Perm seats →
        (receivers need zones holders seats').1 = (receivers need zones holders seats).1 ∧
          (receivers need zones holders seats').2.Perm (receivers need zones holders seats).2 := by
  refine ⟨chosen_receivers h need zones holders, fun stored hstored => ?_, fun seats' hperm => ?_⟩
  · rw [receivers_eq_drawn h, drawn_perm (h.candidates holders) hstored.symm]
  · have h' := h.perm hperm.symm
    have hsame : (receivers need zones holders seats').1 = (receivers need zones holders seats).1 := by
      rw [receivers_eq_drawn h, receivers_eq_drawn h']
      exact congrArg _ (drawn_perm (h'.candidates holders) (hperm.filter _) need zones)
    refine ⟨hsame, ?_⟩
    rw [left_receivers h, left_receivers h', hsame]
    exact hperm.map _

/-- Six members in three zones. The first two have no room, or hold a replica already. -/
def tables : List Seat :=
  [(⟨"a", "k"⟩, 0), (⟨"c", "l"⟩, 4), (⟨"b", "m"⟩, 2), (⟨"a", "n"⟩, 1), (⟨"a", "o"⟩, 3), (⟨"b", "p"⟩, 2)].map
    fun s => ⟨s.1, Layout.memberKey ⟨"/r"⟩ s.1, 4, 0, 0, s.2⟩

/-- A replica stays in the third zone. The receivers are first the member with the most to spare in the other
two zones, then the one with the smaller key, and only then whoever shares a zone. -/
theorem receivers_drawn_of_tables :
    Distinct tables ∧
      (receivers 3 ["c"] [⟨"c", "l"⟩] tables).1 = [⟨"a", "o"⟩, ⟨"b", "m"⟩, ⟨"b", "p"⟩] ∧
      (receivers 3 ["c"] [⟨"c", "l"⟩] tables).2.map (·.spare) = [0, 4, 1, 1, 2, 1] ∧
      Chosen 3 ["c"] [⟨"c", "l"⟩] tables (receivers 3 ["c"] [⟨"c", "l"⟩] tables).1
        (receivers 3 ["c"] [⟨"c", "l"⟩] tables).2 ∧
      (receivers 3 ["c"] [⟨"c", "l"⟩] tables.reverse).1 = [⟨"a", "o"⟩, ⟨"b", "m"⟩, ⟨"b", "p"⟩] := by
  have hdistinct : Distinct tables := ⟨by decide, by decide⟩
  obtain ⟨hchosen, -, hperm⟩ := receivers_drawn hdistinct 3 ["c"] [⟨"c", "l"⟩]
  have htaken : (receivers 3 ["c"] [⟨"c", "l"⟩] tables).1 = [⟨"a", "o"⟩, ⟨"b", "m"⟩, ⟨"b", "p"⟩] := by decide
  exact ⟨hdistinct, htaken, by decide, hchosen, (hperm _ (List.reverse_perm _)).1.trans htaken⟩

end Spread

/-! ### Receivers of a plan -/

/-- Every item is placed in a room whose members are told apart. -/
theorem Room.exists_place_of_mem_placeAll {shedding : List String} {room : Room} {gs : List Group}
    (hroom : Spread.Distinct room.seats) {item : Entry Item} {rs : List Replica} {p : Placement}
    (h : .placed item rs p ∈ placeAll shedding room gs) :
    ∃ room : Room, Spread.Distinct room.seats ∧
      p = (room.place shedding item.value.replication rs).1 := by
  induction gs generalizing room with
  | nil => simp [placeAll] at h
  | cons g gs ih =>
    simp only [placeAll] at h
    split at h
    next =>
      simp only [List.mem_cons, reduceCtorEq, false_or] at h
      exact ih hroom h
    next item' _ =>
      rcases List.mem_cons.1 h with h | h
      · obtain ⟨rfl, rfl, rfl⟩ := Planned.placed.inj h
        exact ⟨room, hroom, rfl⟩
      · refine ih ?_ h
        rw [seats_place]
        exact hroom.receivers _ _ _

namespace Roster

variable {s : Snapshot}

theorem distinct_seats (hs : s.IsFaithful) : Spread.Distinct (ofSnapshot s).seats := by
  refine ⟨nodup_ids_seats hs, ?_⟩
  have hkeys : (ofSnapshot s).seats.map (·.key) = s.members.map (·.key) := by
    simp only [ofSnapshot, List.map_map]
    rfl
  rw [hkeys]
  exact Snapshot.nodup_view s _ _

/-- The receivers of each item of a plan are drawn as is asked of them, from the room that is left for it. -/
theorem chosen_of_mem_planned (hs : s.IsFaithful) (b : Bounds) {item : Entry Item} {rs : List Replica}
    {p : Placement} (h : .placed item rs p ∈ (ofSnapshot s).planned b) :
    ∃ room next : Room, (p, next) = room.place (ofSnapshot s).shedding item.value.replication rs ∧
      Spread.Chosen (item.value.replication - p.staying.length) (p.staying.map (·.zone)) (Room.holdersOf rs)
        room.seats p.receivers next.seats := by
  obtain ⟨room, hroom, rfl⟩ := Room.exists_place_of_mem_placeAll (distinct_seats hs) h
  refine ⟨room, (room.place (ofSnapshot s).shedding item.value.replication rs).2, rfl, ?_⟩
  rw [Room.receivers_place, Room.seats_place]
  exact Spread.chosen_receivers hroom _ _ _

end Roster

end Allotment
