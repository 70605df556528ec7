import Allotment.Proofs.Plan.Proposal
import Allotment.Proofs.Store.Chronicle

/-!
# Committing a proposal

A proposal is computed from the contents right after some revision and is committed later, when the store
may have moved on.  Its guards hold only if every item that it writes shows the replicas that the snapshot
showed, and if these items and the member itself are as they were (`Commits.effect`, `Commits.item_eq`,
`Commits.member_eq`).  So however stale the snapshot was, the commit leaves each of these items with the
outcome of the share that was planned, and all other keys alone (`Effect`).
-/

namespace Allotment

/-- The snapshot of the contents right after a revision. -/
def Chronicle.snapshotAt (l : Layout) (log : Chronicle) (revision : Int) :
    Except DecodeError Snapshot :=
  Snapshot.ofEntries l revision ((log.contentsAt revision).entriesUnder l.scope)

/-- What a key stands for in some contents. -/
def Contents.resource? (l : Layout) (c : Contents) (key : String) : Option Resource :=
  (c.get? key).bind fun raw => (Resource.decode l ⟨raw, key⟩).toOption.map (·.value)

/-! ### Effects -/

/-- What some shares of a member do to the contents: each of their items shows what was planned for and
then the outcome, and nothing else changes. -/
structure Effect (l : Layout) (v : Viewpoint) (ts : List (Nat × Planned)) (c c' : Contents) :
    Prop where
  before : ∀ t ∈ ts, c.Shows l t.2.name t.2.replicas
  after : ∀ t ∈ ts, c'.Shows l t.2.name (v.outcome t.1 t.2)
  elsewhere : ∀ k, (∀ t ∈ ts, ¬ k.startsWith (l.itemScope t.2.name) = true) →
    c'.get? k = c.get? k
  load_le : ∀ m, c'.load l m ≤ c.load l m +
    if m = v.self then ts.countP (fun t => decide (v.self ∈ t.2.promises)) else 0

/-- The scope of an item in which nobody takes a share stays as it is. -/
theorem Effect.get?_eq_of_not_mem {l : Layout} {v : Viewpoint} {ts : List (Nat × Planned)}
    {c c' : Contents} (h : Effect l v ts c c') (hseg : ∀ t ∈ ts, IsSegment t.2.name) {item : String}
    (hi : IsSegment item) (hne : ∀ t ∈ ts, t.2.name ≠ item) {k : String}
    (hk : k.startsWith (l.itemScope item) = true) : c'.get? k = c.get? k :=
  h.elsewhere k fun t ht hk' => hne t ht (Layout.eq_of_startsWith_itemScope (hseg t ht) hi hk' hk)

/-- The share in an item as an edit of it. -/
def Edit.ofShare (v : Viewpoint) (t : Nat × Planned) (h : IsSegment t.2.name ∧
    Turns v.layout t.2.name (v.work t.1 t.2).writes t.2.replicas (v.outcome t.1 t.2)) : Edit v.layout :=
  ⟨t.2.name, (v.work t.1 t.2).writes, t.2.replicas, v.outcome t.1 t.2, h.1, h.2⟩

theorem sum_gain_le (v : Viewpoint) (ts : List (Nat × Planned)) (m : MemberId) :
    (ts.map fun t => (v.outcome t.1 t.2).countP (·.holder == m) -
        t.2.replicas.countP (·.holder == m)).sum ≤
      if m = v.self then ts.countP (fun t => decide (v.self ∈ t.2.promises)) else 0 := by
  induction ts with
  | nil => exact Nat.zero_le _
  | cons t ts ih =>
    have hone := v.countP_outcome_le t.1 t.2 m
    rw [List.map_cons, List.sum_cons, List.countP_cons]
    by_cases hm : m = v.self
    · simp only [hm, true_and, ↓reduceIte, decide_eq_true_eq] at hone ih ⊢
      omega
    · simp only [hm, false_and, ↓reduceIte] at hone ih ⊢
      omega

/-- Shares of different items that find what they were planned for have their effect. -/
theorem effect_of_shows {v : Viewpoint} {ts : List (Nat × Planned)} {c : Contents} (n : Int)
    (hnodup : (ts.map (·.2.name)).Nodup)
    (hturns : ∀ t ∈ ts,
      Turns v.layout t.2.name (v.work t.1 t.2).writes t.2.replicas (v.outcome t.1 t.2))
    (hof : ∀ t ∈ ts, ReplicasOf v.layout t.2.name t.2.replicas)
    (hshows : ∀ t ∈ ts, c.Shows v.layout t.2.name t.2.replicas) :
    Effect v.layout v ts c (c.write n (ts.flatMap fun t => (v.work t.1 t.2).writes)) := by
  have hshares := fun t ht => And.intro (hof t ht).segment (hturns t ht)
  let es := ts.pmap (Edit.ofShare v) hshares
  have hwrites : Edit.allWrites es = ts.flatMap fun t => (v.work t.1 t.2).writes := by
    simp only [es, Edit.allWrites, List.flatMap_def, List.map_pmap, Edit.ofShare, List.pmap_eq_map]
  have happly : Edit.Apply es c := by
    refine ⟨?_, fun e he => ?_⟩
    · simpa only [es, List.map_pmap, Edit.ofShare, List.pmap_eq_map] using hnodup
    · obtain ⟨t, ht, rfl⟩ := List.mem_pmap.1 he
      exact hshows t ht
  rw [← hwrites]
  refine ⟨hshows, fun t ht => ?_, fun k hk => ?_, fun m => ?_⟩
  · exact Edit.shows_write_allWrites happly n (List.mem_pmap.2 ⟨t, ht, rfl⟩)
  · refine Edit.get?_write_allWrites happly n fun e he => ?_
    obtain ⟨t, ht, rfl⟩ := List.mem_pmap.1 he
    exact hk t ht
  · refine Nat.le_trans (Edit.load_write_allWrites_le happly n m fun e he r hr => ?_) ?_
    · obtain ⟨t, ht, rfl⟩ := List.mem_pmap.1 he
      exact (hof t ht).slot_lt hr
    · have hgains : es.map (·.gain m) = ts.map fun t => (v.outcome t.1 t.2).countP (·.holder == m) -
          t.2.replicas.countP (·.holder == m) := by
        simp only [es, List.map_pmap, Edit.ofShare, Edit.gain, List.pmap_eq_map]
      rw [hgains]
      exact Nat.add_le_add_left (sum_gain_le v ts m) _

/-! ### Writes -/

namespace Proposal.Made

variable {s : Snapshot} {m : MemberId} {b : Bounds} {p : Proposal} {entry : Entry Member}
  {ts : List (Nat × Planned)} {t : Nat × Planned}

theorem turns (hm : Made s m b p entry ts) (hs : s.IsFaithful) (ht : t ∈ ts) :
    Turns s.layout t.2.name ((viewpoint s m).work t.1 t.2).writes t.2.replicas
      ((viewpoint s m).outcome t.1 t.2) :=
  Viewpoint.turns_work (v := viewpoint s m) (hm.fits hs ht) (hm.replicasOf hs ht) (hm.isValid_self hs) t.1

theorem nodup_names (hm : Made s m b p entry ts) (hs : s.IsFaithful) : (ts.map (·.2.name)).Nodup := by
  have hnames := (Roster.nodup_names_planned hs b).sublist (hm.planned.map Planned.name)
  rwa [List.map_map] at hnames

/-- A proposal has the effect of its shares on all contents that show what they were planned for. -/
theorem effect (hm : Made s m b p entry ts) (hs : s.IsFaithful) {c : Contents} (n : Int)
    (hshows : ∀ t ∈ ts, c.Shows s.layout t.2.name t.2.replicas) :
    Effect s.layout (viewpoint s m) ts c (c.write n p.transaction.writes) := by
  rw [hm.writes]
  exact effect_of_shows (v := viewpoint s m) n (hm.nodup_names hs) (fun t ht => hm.turns hs ht)
    (fun t ht => hm.replicasOf hs ht) hshows

/-- The items of the shares show what they were planned for in the contents of the snapshot. -/
theorem shows (hm : Made s m b p entry ts) {l : Layout} {revision : Int} {c : Contents}
    (hs : Snapshot.ofEntries l revision (c.entriesUnder l.scope) = .ok s) (ht : t ∈ ts) :
    c.Shows s.layout t.2.name t.2.replicas := by
  obtain ⟨hid, hreplicas⟩ :=
    Roster.replicas_of_mem_planned (Snapshot.faithful_of_ofEntries hs) (hm.mem_planned ht)
  rw [hreplicas, (Snapshot.ofEntries_eq_ok hs).1]
  exact Roster.shows_group hs hid

/-- A share writes to the assignments of its item only. -/
theorem startsWith_of_mem_writes (hm : Made s m b p entry ts) {l : Layout} {revision : Int}
    {c : Contents} (hs : Snapshot.ofEntries l revision (c.entriesUnder l.scope) = .ok s) (ht : t ∈ ts)
    {w : Write} (hw : w ∈ ((viewpoint s m).work t.1 t.2).writes) :
    w.key.startsWith (l.itemScope t.2.name) = true := by
  have hturns := hm.turns (Snapshot.faithful_of_ofEntries hs) ht c 0 (hm.shows hs ht)
  rw [(Snapshot.ofEntries_eq_ok hs).1] at hturns
  exact hturns.1 w hw

/-- A proposal writes to assignments only. -/
theorem startsWith_assignmentsScope (hm : Made s m b p entry ts) {l : Layout} {revision : Int}
    {c : Contents} (hs : Snapshot.ofEntries l revision (c.entriesUnder l.scope) = .ok s) {w : Write}
    (hw : w ∈ p.transaction.writes) : w.key.startsWith l.assignmentsScope = true := by
  rw [hm.writes] at hw
  obtain ⟨t, ht, hw⟩ := List.mem_flatMap.1 hw
  exact Layout.startsWith_assignmentsScope_of_itemScope (hm.startsWith_of_mem_writes hs ht hw)

end Proposal.Made

/-! ### Commits -/

/-- A proposal that was computed from the contents right after its revision is applied to a store. -/
structure Commits (l : Layout) (log : Chronicle) (s : Store) (m : MemberId) (b : Bounds)
    (p : Proposal) (snapshot : Snapshot) (s' : Store) : Prop where
  explains : log.Explains s
  decoded : log.snapshotAt l p.revision = .ok snapshot
  proposed : Proposal.ofSnapshot snapshot m b = some p
  applied : ∃ reply, s.commit p.transaction = .ok (s', reply) ∧ reply.succeeded = true

namespace Commits

variable {l : Layout} {log : Chronicle} {s s' : Store} {m : MemberId} {b : Bounds} {p : Proposal}
  {snapshot : Snapshot} {entry : Entry Member} {ts : List (Nat × Planned)}

theorem layout_eq (h : Commits l log s m b p snapshot s') : snapshot.layout = l :=
  (Snapshot.ofEntries_eq_ok h.decoded).1

theorem faithful (h : Commits l log s m b p snapshot s') : snapshot.IsFaithful :=
  Snapshot.faithful_of_ofEntries h.decoded

theorem holds (h : Commits l log s m b p snapshot s') {g : Guard} (hg : g ∈ p.transaction.guards) :
    s.holds g = true := by
  obtain ⟨reply, hc, hs⟩ := h.applied
  exact List.all_eq_true.1 (Store.live_of_commit hc hs).1 g hg

theorem live_eq (h : Commits l log s m b p snapshot s') :
    s'.live = s.live.write (s.revision + 1) p.transaction.writes := by
  obtain ⟨reply, hc, hs⟩ := h.applied
  exact (Store.live_of_commit hc hs).2

/-- A guarded key of the snapshot is in the store as the snapshot has it. -/
theorem resource?_of_guard (h : Commits l log s m b p snapshot s') {k : String}
    {v : Stamped Resource} (hk : snapshot.entries.get? k = some v)
    (hg : .modified k v.modified ∈ p.transaction.guards) : s.live.resource? l k = some v.value := by
  obtain ⟨raw, hraw, hstamp, hd⟩ := Snapshot.exists_raw_of_get? h.decoded hk
  rw [← hstamp] at hg
  unfold Contents.resource?
  rw [h.explains.get?_eq_of_holds_modified hraw (h.holds hg), Option.bind_some, hd]
  rfl

theorem replicasOf (h : Commits l log s m b p snapshot s')
    (hm : Proposal.Made snapshot m b p entry ts) {t : Nat × Planned} (ht : t ∈ ts) :
    ReplicasOf l t.2.name t.2.replicas :=
  h.layout_eq ▸ hm.replicasOf h.faithful ht

/-- The items of the shares show in the store what the snapshot showed. -/
theorem shows_before (h : Commits l log s m b p snapshot s')
    (hm : Proposal.Made snapshot m b p entry ts) {t : Nat × Planned} (ht : t ∈ ts) :
    s.live.Shows l t.2.name t.2.replicas := by
  have hshows := hm.shows h.decoded ht
  rw [h.layout_eq] at hshows
  have hguard := hm.guards t ht _ (Viewpoint.guards_work t.1 (hm.writing t ht)).2
  have hunchanged := (h.explains.holds_unchanged_iff.1 (h.holds hguard)).2
  refine hshows.congr fun k hk => ?_
  unfold Contents.value?
  refine congrArg _ (h.explains.get?_contentsAt_eq fun e he hek => ?_).symm
  have hle := hunchanged e he
  rw [hek] at hle
  have hscope : k.startsWith (snapshot.layout.itemScope t.2.name) = true := by
    rw [h.layout_eq]
    exact hk
  have hrev : (Proposal.viewpoint snapshot m).revision = p.revision := hm.revision.symm
  exact hrev ▸ hle hscope

/-- A proposal that commits has the effect of its shares. -/
theorem effect (h : Commits l log s m b p snapshot s')
    (hm : Proposal.Made snapshot m b p entry ts) :
    Effect l (Proposal.viewpoint snapshot m) ts s.live s'.live := by
  have hl := h.layout_eq
  subst hl
  rw [h.live_eq]
  exact hm.effect h.faithful _ fun t ht => h.shows_before hm ht

/-- The items of the shares are in the store as the snapshot has them. -/
theorem item_eq (h : Commits l log s m b p snapshot s')
    (hm : Proposal.Made snapshot m b p entry ts) {t : Nat × Planned} (ht : t ∈ ts) :
    s.live.resource? l (l.itemKey t.2.name) = t.2.item?.map .item := by
  have hl := h.layout_eq
  subst hl
  have hguard := hm.guards t ht _ (Viewpoint.guards_work t.1 (hm.writing t ht)).1
  obtain ⟨g, hg, hof⟩ := Roster.of_mem_planned (hm.mem_planned ht)
  obtain ⟨repairs, t⟩ := t
  cases hof with
  | removed hw =>
    have hnone := h.explains.get?_eq_none_of_holds_modified_zero (h.holds hguard)
    unfold Contents.resource?
    rw [show s.live.get? (snapshot.layout.itemKey (Planned.removed g.id g.replicas).name) = none from
      hnone]
    rfl
  | @placed item hw room hids =>
    have hitem := (Roster.id_of_wanted h.faithful hg hw).1
    have hkey := (Snapshot.parse_of_mem_items h.faithful hitem).1
    have hentry := (Snapshot.mem_items_iff h.faithful).1 hitem
    rw [hkey] at hentry
    exact h.resource?_of_guard hentry hguard

/-- Unless it writes nothing, the member is in the store as the snapshot has it, before and after. -/
theorem member_eq (h : Commits l log s m b p snapshot s')
    (hm : Proposal.Made snapshot m b p entry ts) (hw : p.transaction.writes ≠ []) :
    s'.live.resource? l (l.memberKey m) = some (.member entry.value) := by
  have hl := h.layout_eq
  subst hl
  obtain ⟨hkey, hentry⟩ := Snapshot.get?_memberKey_of_member? h.faithful hm.member
  have hguard := hm.guarded hw
  rw [hkey] at hguard
  rw [← h.resource?_of_guard hentry hguard]
  unfold Contents.resource?
  rw [(h.effect hm).elsewhere _ fun t ht => Layout.not_memberKey_startsWith_itemScope _ _ _]

end Commits

end Allotment
