import Allotment.Proofs.Plan.Proposal
import Mathlib

/-!
# How the bound cuts a proposal

The bound on the writes of a transaction decides how many of the shares of a member are proposed, and nothing
else.  What is proposed is always the first few of the shares that write something, in the order of the items'
names, each of them whole (`Proposal.Carries`).  A larger bound does not take fewer of them (`fitting_mono`).
If some are left over, then the next of them does not fit behind those that are taken (`lt_of_fitting_lt`).
-/

namespace Allotment

namespace Proposal

/-! ### How much fits -/

/-- The number of works that fit into a transaction that writes so much already. -/
def fitting (maxWrites : Nat) : (written : Nat) → List Work → Nat
  | _, [] => 0
  | written, w :: ws =>
    if 0 < written ∧ maxWrites < written + w.writes.length then 0
    else fitting maxWrites (written + w.writes.length) ws + 1

/-- The number of writes of some works. -/
def written (ws : List Work) : Nat :=
  (ws.flatMap (·.writes)).length

@[simp]
theorem written_nil : written [] = 0 :=
  rfl

@[simp]
theorem written_cons (w : Work) (ws : List Work) : written (w :: ws) = w.writes.length + written ws := by
  simp [written]

section Fitting

variable {maxWrites maxWrites' n : Nat} {ws : List Work}

theorem fitting_le_length (maxWrites n : Nat) (ws : List Work) : fitting maxWrites n ws ≤ ws.length := by
  induction ws generalizing n with
  | nil => exact Nat.le_refl 0
  | cons w ws ih =>
    unfold fitting
    split
    next => exact Nat.zero_le _
    next => exact Nat.succ_le_succ (ih _)

/-- A larger bound takes no less. -/
theorem fitting_mono (h : maxWrites ≤ maxWrites') (n : Nat) (ws : List Work) :
    fitting maxWrites n ws ≤ fitting maxWrites' n ws := by
  induction ws generalizing n with
  | nil => exact Nat.le_refl 0
  | cons w ws ih =>
    unfold fitting
    split
    next => exact Nat.zero_le _
    next hfits =>
      rw [if_neg fun hfull => hfits ⟨hfull.1, Nat.lt_of_le_of_lt h hfull.2⟩]
      exact Nat.succ_le_succ (ih _)

/-- If not everything fits, then something is written, and the next work goes beyond the bound. -/
theorem lt_of_fitting_lt (h : fitting maxWrites n ws < ws.length) :
    0 < n + written (ws.take (fitting maxWrites n ws)) ∧
      maxWrites < n + written (ws.take (fitting maxWrites n ws)) +
        ws[fitting maxWrites n ws].writes.length := by
  induction ws generalizing n with
  | nil => exact absurd h (Nat.not_lt_zero _)
  | cons w ws ih =>
    unfold fitting at h ⊢
    split at h
    next hfull => simp [hfull]
    next hfits =>
      have hrest := ih (Nat.lt_of_succ_lt_succ h)
      simp only [hfits, ↓reduceIte, List.take_succ_cons, List.getElem_cons_succ, written_cons]
      rwa [← Nat.add_assoc]

/-- Works without writes are passed over. -/
theorem fill_filter (maxWrites : Nat) (batch : Work) (ws : List Work) :
    fill maxWrites batch ws = fill maxWrites batch (ws.filter fun w => !w.writes.isEmpty) := by
  induction ws generalizing batch with
  | nil => rfl
  | cons w ws ih =>
    cases hw : w.writes.isEmpty with
    | true => simp [fill, hw, ih batch]
    | false => simp [fill, hw, ih (batch ++ w)]

/-- A transaction is filled with the works that fit. -/
theorem fill_eq (hws : ∀ w ∈ ws, w.writes ≠ []) (maxWrites : Nat) (batch : Work) :
    fill maxWrites batch ws =
      ((ws.take (fitting maxWrites batch.writes.length ws)).foldl (· ++ ·) batch,
        decide (fitting maxWrites batch.writes.length ws < ws.length)) := by
  induction ws generalizing batch with
  | nil => rfl
  | cons w ws ih =>
    obtain ⟨hw, hws⟩ := List.forall_mem_cons.1 hws
    have hlength : (batch ++ w).writes.length = batch.writes.length + w.writes.length := by
      rw [writes_append, List.length_append]
    by_cases hfull : 0 < batch.writes.length ∧ maxWrites < batch.writes.length + w.writes.length
    · have hbatch : batch.writes ≠ [] := List.length_pos_iff.1 hfull.1
      simp [fill, fitting, hw, hbatch, hfull]
    · have hcond : (!batch.writes.isEmpty && decide (maxWrites < batch.writes.length + w.writes.length)) =
          false := by
        by_contra hne
        simp only [Bool.not_eq_false, Bool.and_eq_true, decide_eq_true_eq, Bool.not_eq_true',
          List.isEmpty_eq_false_iff] at hne
        exact hfull ⟨List.length_pos_iff.2 hne.1, hne.2⟩
      simp only [fill, List.isEmpty_eq_false_iff.2 hw, hcond, Bool.false_eq_true, ↓reduceIte, ih hws,
        hlength, fitting, hfull, List.take_succ_cons, List.foldl_cons, List.length_cons, Nat.succ_lt_succ_iff]

/-- If everything fits, then a larger bound makes no difference. -/
theorem fill_congr (hws : ∀ w ∈ ws, w.writes ≠ []) (h : maxWrites ≤ maxWrites') {batch : Work}
    (hall : ws.length ≤ fitting maxWrites batch.writes.length ws) :
    fill maxWrites batch ws = fill maxWrites' batch ws := by
  have hmono := fitting_mono h batch.writes.length ws
  have hlength := fitting_le_length maxWrites' batch.writes.length ws
  have hsame : fitting maxWrites batch.writes.length ws = fitting maxWrites' batch.writes.length ws :=
    Nat.le_antisymm hmono (Nat.le_trans hlength hall)
  rw [fill_eq hws, fill_eq hws, hsame]

end Fitting

/-! ### Shares and proposals -/

/-- The shares of a member that write something, with the names of their items. -/
def shares (s : Snapshot) (self : MemberId) (b : Bounds) : List (String × Work) :=
  (((viewpoint s self).tasks b.repairs ((Roster.ofSnapshot s).planned b)).map fun t =>
    (t.2.name, (viewpoint s self).work t.1 t.2)).filter fun t => !t.2.writes.isEmpty

/-- A proposal consists of the first `n` shares and, if it has any, of the guard of its member. -/
structure Carries (p : Proposal) (own : Guard) (ts : List (String × Work)) (n : Nat) : Prop where
  le : n ≤ ts.length
  writes : p.transaction.writes = (ts.take n).flatMap (·.2.writes)
  guards : p.transaction.guards = (ts.take n).flatMap (·.2.guards) ++ if n = 0 then [] else [own]
  tally : p.tally = ((ts.take n).map (·.2.tally)).sum

section Carries

variable {s : Snapshot} {self : MemberId} {b b' : Bounds} {p p' : Proposal} {own : Guard}
  {ts : List (String × Work)} {n n' : Nat} {e : Entry Member}

theorem writes_ne_nil_of_mem_shares {t : String × Work} (h : t ∈ shares s self b) : t.2.writes ≠ [] := by
  simpa using (List.mem_filter.1 h).2

/-- The bound on writes has no part in the shares. -/
theorem shares_congr (h : b.repairs = b'.repairs) : shares s self b = shares s self b' := by
  unfold shares Roster.planned
  rw [h]

theorem fill_works (maxWrites : Nat) : fill maxWrites Work.none (works s (Roster.ofSnapshot s) self b) =
    fill maxWrites Work.none ((shares s self b).map (·.2)) := by
  have hworks : works s (Roster.ofSnapshot s) self b =
      ((viewpoint s self).tasks b.repairs ((Roster.ofSnapshot s).planned b)).map fun t =>
        (viewpoint s self).work t.1 t.2 := Viewpoint.works_eq_map_tasks _ _ _
  rw [fill_filter, hworks, shares, List.filter_map, List.filter_map, List.map_map]
  rfl

/-- The shares are in the order of the items' names. -/
theorem shares_ascending (hs : s.IsFaithful) (self : MemberId) (b : Bounds) :
    ((shares s self b).map (·.1)).Pairwise (· < ·) := by
  refine List.Pairwise.sublist (List.filter_sublist.map _) ?_
  rw [List.map_map]
  have hnames := Roster.names_planned hs b
  rw [← (viewpoint s self).map_snd_tasks b.repairs ((Roster.ofSnapshot s).planned b), List.map_map] at hnames
  exact hnames ▸ Roster.itemIds_ascending s

theorem Carries.dropLast_guards (h : p.Carries own ts n) :
    p.transaction.guards.dropLast = (ts.take n).flatMap (·.2.guards) := by
  rw [h.guards]
  split
  next hn => simp [hn]
  next => exact List.dropLast_concat

/-- Fewer of the same shares are at the front of more of them, apart from the guard of the member. -/
theorem Carries.isPrefix (h : p.Carries own ts n) (h' : p'.Carries own ts n') (hn : n ≤ n') :
    p.transaction.writes <+: p'.transaction.writes ∧
      p.transaction.guards.dropLast <+: p'.transaction.guards.dropLast := by
  have htake : ts.take n <+: ts.take n' := List.take_prefix_take_left hn
  obtain ⟨rest, hrest⟩ := htake
  rw [h.writes, h'.writes, h.dropLast_guards, h'.dropLast_guards, ← hrest, List.flatMap_append,
    List.flatMap_append]
  exact ⟨List.prefix_append _ _, List.prefix_append _ _⟩

/-- Whether a member is drained does not depend on the bounds. -/
theorem ofSnapshot_of_mem_members (hs : s.IsFaithful) (he : e ∈ s.members) :
    (∀ b, ofSnapshot s e.value.id b = some (drainedAt s.revision)) ∨
      ∀ b, ofSnapshot s e.value.id b = some (filledAt s.revision e
        (fill b.writes Work.none ((shares s e.value.id b).map (·.2)))) := by
  obtain ⟨seat, hentry, hseat⟩ := exists_seat_of_mem_members hs he
  cases hdrained : seat.isDraining && seat.load == 0 with
  | true =>
    refine .inl fun b => ?_
    rw [ofSnapshot_eq_some hentry hseat, hdrained]
    rfl
  | false =>
    refine .inr fun b => ?_
    rw [ofSnapshot_eq_some hentry hseat, hdrained, ← fill_works]
    rfl

theorem flatMap_take_eq_nil_iff (hts : ∀ t ∈ ts, t.2.writes ≠ []) (hn : n ≤ ts.length) :
    (ts.take n).flatMap (·.2.writes) = [] ↔ n = 0 := by
  constructor
  · intro hnil
    rw [List.flatMap_eq_nil_iff] at hnil
    have hempty : ts.take n = [] :=
      List.eq_nil_iff_forall_not_mem.2 fun t ht => hts t (List.mem_of_mem_take ht) (hnil t ht)
    have hlength := congrArg List.length hempty
    rw [List.length_take, Nat.min_eq_left hn] at hlength
    exact hlength
  · rintro rfl
    rfl

/-- A filled transaction carries the shares that fit, and it is deferred if they are not all. -/
theorem carries_filledAt (hts : ∀ t ∈ ts, t.2.writes ≠ []) (revision : Int) (e : Entry Member)
    (maxWrites : Nat) :
    (filledAt revision e (fill maxWrites Work.none (ts.map (·.2)))).Carries
        (.modified e.key e.modified) ts (fitting maxWrites 0 (ts.map (·.2))) ∧
      (filledAt revision e (fill maxWrites Work.none (ts.map (·.2)))).deferred =
        decide (fitting maxWrites 0 (ts.map (·.2)) < ts.length) := by
  have hlength := fitting_le_length maxWrites 0 (ts.map (·.2))
  rw [List.length_map] at hlength
  have hfill := fill_eq (List.forall_mem_map.2 hts) maxWrites Work.none
  have hnone : Work.none.writes.length = 0 := rfl
  rw [hnone] at hfill
  generalize fitting maxWrites 0 (ts.map (·.2)) = n at hlength hfill ⊢
  rw [hfill, List.length_map]
  obtain ⟨hwrites, hguards, htally⟩ := foldl_append_eq Work.none ((ts.map (·.2)).take n)
  rw [← List.map_take, List.flatMap_map] at hwrites hguards
  rw [← List.map_take, List.map_map] at htally
  rw [← List.map_take]
  refine ⟨⟨hlength, hwrites, ?_, htally.trans (Std.LawfulLeftIdentity.left_id _)⟩, rfl⟩
  show Proposal.guards _ e = _
  by_cases hn : n = 0
  · subst hn
    rfl
  · have hwriting := mt (flatMap_take_eq_nil_iff hts hlength).1 hn
    have hnonempty := List.isEmpty_eq_false_iff.2 (hwrites.trans_ne hwriting)
    rw [Proposal.guards, if_neg (Bool.eq_false_iff.1 hnonempty), hguards, if_neg hn]
    rfl

/-- The next of the shares does not fit into a deferred transaction. -/
theorem exists_next_of_deferred (hts : ∀ t ∈ ts, t.2.writes ≠ []) {revision : Int} {maxWrites : Nat}
    (hp : p = filledAt revision e (fill maxWrites Work.none (ts.map (·.2)))) (h : p.deferred = true) :
    p.transaction.writes ≠ [] ∧ ∃ t, ts[fitting maxWrites 0 (ts.map (·.2))]? = some t ∧
      maxWrites < p.transaction.writes.length + t.2.writes.length := by
  obtain ⟨hcarries, hdeferred⟩ := carries_filledAt hts revision e maxWrites
  rw [← hp] at hcarries hdeferred
  rw [hdeferred, decide_eq_true_eq] at h
  have hlt : fitting maxWrites 0 (ts.map (·.2)) < (ts.map (·.2)).length := by rwa [List.length_map]
  obtain ⟨hpos, hover⟩ := lt_of_fitting_lt hlt
  have hwritten : written ((ts.map (·.2)).take (fitting maxWrites 0 (ts.map (·.2)))) =
      p.transaction.writes.length := by
    rw [hcarries.writes, written, ← List.map_take, List.flatMap_map]
  rw [hwritten, Nat.zero_add] at hpos hover
  rw [List.getElem_map] at hover
  exact ⟨List.length_pos_iff.1 hpos, _, List.getElem?_eq_getElem h, hover⟩

/-- The bound on writes only cuts proposals: they consist of the first few shares that write something, and of
no fewer of them with a larger bound.  A proposal that is not deferred does not change any more, and one that
is deferred writes something and cannot write the next share as well. -/
theorem truncated_of_members {l : Layout} {revision : Int} {es : List (Entry Bytes)}
    (hs : Snapshot.ofEntries l revision es = .ok s) (he : e ∈ s.members)
    (hrepairs : b.repairs = b'.repairs) (hwrites : b.writes ≤ b'.writes) :
    ((shares s e.value.id b).map (·.1)).Pairwise (· < ·) ∧
      ∃ p p' n n', require s e.value.id b = .ok p ∧ require s e.value.id b' = .ok p' ∧ n ≤ n' ∧
        p.Carries (.modified e.key e.modified) (shares s e.value.id b) n ∧
        p'.Carries (.modified e.key e.modified) (shares s e.value.id b) n' ∧
        p.transaction.writes <+: p'.transaction.writes ∧
        p.transaction.guards.dropLast <+: p'.transaction.guards.dropLast ∧
        (p.deferred = false → p = p' ∧ (p.drained = false → n = (shares s e.value.id b).length)) ∧
        (p.deferred = true → p.transaction.writes ≠ [] ∧
          ∃ t, (shares s e.value.id b)[n]? = some t ∧
            b.writes < p.transaction.writes.length + t.2.writes.length) := by
  have hfaithful := Snapshot.faithful_of_ofEntries hs
  refine ⟨shares_ascending hfaithful _ b, ?_⟩
  have hts : ∀ t ∈ shares s e.value.id b, t.2.writes ≠ [] := fun _ => writes_ne_nil_of_mem_shares
  have hcongr : shares s e.value.id b' = shares s e.value.id b := (shares_congr hrepairs).symm
  rcases ofSnapshot_of_mem_members hfaithful he with hdrained | hfilled
  · have hcarries : (drainedAt s.revision).Carries (.modified e.key e.modified) (shares s e.value.id b) 0 :=
      ⟨Nat.zero_le _, rfl, rfl, rfl⟩
    exact ⟨_, _, 0, 0, require_eq_ok_iff.2 (hdrained b), require_eq_ok_iff.2 (hdrained b'), Nat.le_refl 0,
      hcarries, hcarries, List.prefix_rfl, List.prefix_rfl, fun _ => ⟨rfl, fun h => nomatch h⟩,
      fun h => nomatch h⟩
  · have hfilled' := hfilled b'
    rw [hcongr] at hfilled'
    obtain ⟨hcarries, hdeferred⟩ := carries_filledAt hts s.revision e b.writes
    have hcarries' := (carries_filledAt hts s.revision e b'.writes).1
    have hmono := fitting_mono hwrites 0 ((shares s e.value.id b).map (·.2))
    obtain ⟨hfront, hguards⟩ := hcarries.isPrefix hcarries' hmono
    refine ⟨_, _, _, _, require_eq_ok_iff.2 (hfilled b), require_eq_ok_iff.2 hfilled', hmono, hcarries,
      hcarries', hfront, hguards, fun hall => ?_, fun hrest => ?_⟩
    · rw [hdeferred, decide_eq_false_iff_not, Nat.not_lt] at hall
      refine ⟨congrArg _ (fill_congr (List.forall_mem_map.2 hts) hwrites ?_), fun _ => ?_⟩
      · rwa [List.length_map]
      · exact Nat.le_antisymm hcarries.le hall
    · exact exists_next_of_deferred hts rfl hrest

/-- A member that holds nothing, and two items. -/
def idleEntries : List (Entry Bytes) :=
  [⟨⟨Member.encode 4, 1, 1⟩, "/r/members/a/m"⟩, ⟨⟨Item.encode 1, 1, 1⟩, "/r/items/w"⟩,
    ⟨⟨Item.encode 1, 1, 1⟩, "/r/items/x"⟩]

/-- The member receives a replica. -/
def idlePlan (item : String) : Planned :=
  .placed ⟨⟨⟨item, 1⟩, 1, 1⟩, "/r/items/" ++ item⟩ [] ⟨[], [], [], [], [⟨"a", "m"⟩]⟩

/-- The member claims a replica. -/
def idleClaim (item : String) : Write :=
  .put ((Layout.mk "/r").assignmentKey item ⟨"a", "m"⟩ 0) (Assignment.encode false)

theorem writes_idlePlan (caretaker : MemberId) (repairs : Nat) (item : String) :
    ((Viewpoint.mk ⟨"/r"⟩ 1 ⟨"a", "m"⟩ caretaker).work repairs (idlePlan item)).writes =
      [idleClaim item] := by
  simp [idlePlan, idleClaim, Viewpoint.work, Viewpoint.placedWork, Viewpoint.released, Viewpoint.own?,
    Viewpoint.repaired, Viewpoint.moves, renumbering, Packing.movers, Packing.gaps, Viewpoint.guarded,
    isPacked, List.range, List.range.loop]

theorem fill_idlePlans (caretaker : MemberId) (k repairs : Nat) :
    let filled := fill k Work.none
      ((Viewpoint.mk ⟨"/r"⟩ 1 ⟨"a", "m"⟩ caretaker).works repairs [idlePlan "w", idlePlan "x"])
    filled.1.writes = (if k < 2 then [idleClaim "w"] else [idleClaim "w", idleClaim "x"]) ∧
      filled.2 = decide (k < 2) := by
  simp only [Viewpoint.works, fill, writes_idlePlan, writes_append, Work.none]
  by_cases hk : k < 2
  · simp [hk, writes_append, writes_idlePlan]
  · simp [hk, writes_append, writes_idlePlan]

/-- With room for one write, the second item is deferred. -/
theorem truncated_of_idleEntries :
    ∃ s p p', Snapshot.ofEntries ⟨"/r"⟩ 1 idleEntries = .ok s ∧
      require s ⟨"a", "m"⟩ ⟨1, 32⟩ = .ok p ∧ require s ⟨"a", "m"⟩ Bounds.standard = .ok p' ∧
        p.deferred = true ∧ p.transaction.writes = [idleClaim "w"] ∧
          p'.deferred = false ∧ p'.transaction.writes = [idleClaim "w", idleClaim "x"] ∧
            p.transaction.writes <+: p'.transaction.writes ∧
              p.transaction.guards.dropLast <+: p'.transaction.guards.dropLast := by
  have hfacts : (Snapshot.ofEntries ⟨"/r"⟩ 1 idleEntries).toOption.map (fun s =>
      (s.members, (Roster.ofSnapshot s).seat? ⟨"a", "m"⟩, (Roster.ofSnapshot s).planned Bounds.standard)) =
      some ([⟨⟨⟨⟨"a", "m"⟩, 4⟩, 1, 1⟩, "/r/members/a/m"⟩],
        some ⟨⟨"a", "m"⟩, "/r/members/a/m", 4, 0, 0, 4⟩, [idlePlan "w", idlePlan "x"]) := by
    simp only [Roster.ofSnapshot, Roster.itemIds, Snapshot.members, Snapshot.items,
      Snapshot.assignments, Snapshot.view, Snapshot.under_eq]
    cbv
  obtain ⟨s, hs, hfacts⟩ := Option.map_eq_some_iff.1 hfacts
  simp only [Prod.mk.injEq] at hfacts
  obtain ⟨hmembers, hseat, hplanned⟩ := hfacts
  have hdecoded := toOption_eq_some_iff.1 hs
  obtain ⟨hlayout, hrevision, -⟩ := Snapshot.ofEntries_eq_ok hdecoded
  have he : (⟨⟨⟨⟨"a", "m"⟩, 4⟩, 1, 1⟩, "/r/members/a/m"⟩ : Entry Member) ∈ s.members := by
    rw [hmembers]
    exact List.mem_cons_self
  obtain ⟨-, p, p', n, n', hp, hp', hn, hcarries, hcarries', hwrites, hguards, hsame, hnext⟩ :=
    truncated_of_members hdecoded he (show (Bounds.mk 1 32).repairs = Bounds.standard.repairs from rfl)
      (by decide)
  obtain ⟨e, rfl⟩ := exists_eq_filledAt (require_eq_ok_iff.1 hp) hseat rfl
  obtain ⟨e', rfl⟩ := exists_eq_filledAt (require_eq_ok_iff.1 hp') hseat rfl
  have hworks : ∀ k, works s (Roster.ofSnapshot s) ⟨"a", "m"⟩ ⟨k, 32⟩ =
      (Viewpoint.mk ⟨"/r"⟩ 1 ⟨"a", "m"⟩ ((Roster.ofSnapshot s).caretaker?.getD ⟨"a", "m"⟩)).works 32
        [idlePlan "w", idlePlan "x"] := fun k => by
    rw [← hlayout, ← hrevision, ← hplanned]
    rfl
  have hfilled := fun k => hworks k ▸ fill_idlePlans _ k 32
  exact ⟨s, _, _, hdecoded, hp, hp', (hfilled 1).2, (hfilled 1).1, (hfilled 128).2, (hfilled 128).1,
    hwrites, hguards⟩

end Carries

end Proposal

end Allotment
