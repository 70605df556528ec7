import Allotment.Proofs.Run.Replay

/-!
# Slots stay dense

Let the other writers leave the assignments alone, and let members plan on contents as old as they like.
If the slots of every item are the numbers below their count in the beginning, then they are so after
every step (`dense_of_run`).
-/

namespace Allotment

/-- The slots of every item are the numbers below their count. -/
def Contents.IsDense (l : Layout) (c : Contents) : Prop :=
  ∀ item, countsUp (c.slots l item) = true

/-- No assignment key is written. -/
def Transaction.LeavesAssignments (l : Layout) (t : Transaction) : Prop :=
  ∀ w ∈ t.writes, l.holding? w.key = none

/-- Other writers leave the assignments alone, and members plan as they like. -/
def Rules.tame (l : Layout) : Rules :=
  ⟨Transaction.LeavesAssignments l, fun _ _ _ => True⟩

instance Rules.decidableEditsTame (l : Layout) : DecidablePred (Rules.tame l).edits := fun t =>
  inferInstanceAs (Decidable (∀ w ∈ t.writes, l.holding? w.key = none))

instance Rules.decidablePlansTame (l : Layout) (w : World) (m : MemberId) (revision : Int) :
    Decidable ((Rules.tame l).plans w m revision) :=
  inferInstanceAs (Decidable True)

theorem countsUp_of_perm {slots slots' : List Nat} (h : slots.Perm slots')
    (hs : countsUp slots = true) : countsUp slots' = true := by
  rw [countsUp_iff] at hs ⊢
  rw [← h.length_eq]
  exact h.symm.trans hs

/-- Of dense slots, those below a limit are dense. -/
theorem countsUp_filter_lt {slots : List Nat} (h : slots.Perm (List.range slots.length)) (n : Nat) :
    countsUp (slots.filter fun k => decide (k < n)) = true := by
  rw [countsUp_iff]
  have hperm : (slots.filter fun k => decide (k < n)).Perm (List.range (min slots.length n)) := by
    rw [List.perm_ext_iff_of_nodup ((h.nodup_iff.2 List.nodup_range).filter _) List.nodup_range]
    intro k
    rw [List.mem_filter, h.mem_iff, List.mem_range, List.mem_range, decide_eq_true_eq]
    omega
  rw [hperm.length_eq, List.length_range]
  exact hperm

namespace Effect

variable {l : Layout} {v : Viewpoint} {ts : List (Nat × Planned)} {c c' : Contents}

/-- Items without a share keep their slots. -/
theorem slots_perm_of_not_mem (h : Effect l v ts c c') {item : String}
    (hne : ∀ t ∈ ts, t.2.name ≠ item) (hseg : ∀ t ∈ ts, IsSegment t.2.name) :
    (c.slots l item).Perm (c'.slots l item) := by
  by_cases hi : IsSegment item
  · refine Contents.slots_perm_of_keys fun k _ hk => ?_
    unfold Contents.value?
    rw [h.get?_eq_of_not_mem hseg hi hne hk]
  · rw [Contents.slots_eq_nil l c hi, Contents.slots_eq_nil l c' hi]

/-- Shares of items with dense slots leave dense slots. -/
theorem isDense (h : Effect l v ts c c') (hl : v.layout = l)
    (hof : ∀ t ∈ ts, ReplicasOf l t.2.name t.2.replicas) (hd : c.IsDense l) : c'.IsDense l := by
  subst hl
  intro item
  by_cases hex : ∃ t ∈ ts, t.2.name = item
  · obtain ⟨t, ht, rfl⟩ := hex
    have hseg := (hof t ht).segment
    have hslots := (h.before t ht).slots_perm hseg
    have hall : ((t.2.replicas.map (·.slot)).filter fun n => decide (n < Layout.slotLimit)) =
        t.2.replicas.map (·.slot) := by
      rw [List.filter_eq_self]
      intro n hn
      obtain ⟨r, hr, rfl⟩ := List.mem_map.1 hn
      simpa using (hof t ht).slot_lt hr
    rw [hall] at hslots
    have hdense := countsUp_iff.1 (countsUp_of_perm hslots (hd t.2.name))
    rw [List.length_map] at hdense
    have hafter := Viewpoint.dense_outcome (hof t ht) hdense t.1
    rw [← List.length_map (f := (·.slot))] at hafter
    exact countsUp_of_perm ((h.after t ht).slots_perm hseg).symm (countsUp_filter_lt hafter _)
  · have hne : ∀ t ∈ ts, t.2.name ≠ item := fun t ht he => hex ⟨t, ht, he⟩
    exact countsUp_of_perm (h.slots_perm_of_not_mem hne fun t ht => (hof t ht).segment) (hd item)

end Effect

/-- A commit of a proposal keeps the slots dense, however old its snapshot is. -/
theorem Commits.isDense {l : Layout} {log : Chronicle} {s s' : Store} {m : MemberId} {b : Bounds}
    {p : Proposal} {snapshot : Snapshot} (h : Commits l log s m b p snapshot s')
    (hd : s.live.IsDense l) : s'.live.IsDense l := by
  obtain ⟨entry, ts, hm⟩ := Proposal.made_of_ofSnapshot h.proposed
  exact (h.effect hm).isDense h.layout_eq (fun t ht => h.replicasOf hm ht) hd

/-- Writes elsewhere keep the slots dense. -/
theorem isDense_of_leavesAssignments {l : Layout} {t : Transaction} {c : Contents} (n : Int)
    (ht : t.LeavesAssignments l) (hd : c.IsDense l) : (c.write n t.writes).IsDense l := by
  intro item
  refine countsUp_of_perm (Contents.slots_perm_of_keys fun k hk _ => ?_) (hd item)
  unfold Contents.value?
  rw [Contents.get?_write_of_ne]
  intro w hw he
  rw [← he, ht w hw] at hk
  exact nomatch hk

namespace World

variable {l : Layout} {w w' : World}

/-- Slots that are dense in the beginning are dense after every run. -/
theorem dense_of_run (h₀ : w.IsStart) (hd : ∀ item, countsUp (w.store.live.slots l item) = true)
    (h : Run l (Rules.tame l) w w') (item : String) :
    countsUp (w'.store.live.slots l item) = true := by
  have hinv : w'.store.live.IsDense l := h.live_induct h₀.sound hd
    (fun _ _ n ht hc => isDense_of_leavesAssignments n ht hc) fun h hc => h.isDense hc
  exact hinv item

/-- A draft that is submitted after the store has moved on adds the first replica of its item. -/
theorem dense_of_staleDraft :
    ∃ w, Run ⟨"/r"⟩ (Rules.tame ⟨"/r"⟩) fresh w ∧ w.store.live.slots ⟨"/r"⟩ "job" = [0] ∧
      ∀ item, countsUp (w.store.live.slots ⟨"/r"⟩ item) = true := by
  have hreplay : ((fresh.replay ⟨"/r"⟩ (Rules.tame ⟨"/r"⟩)
      (staleDraft ++ [.submit 0])).any fun w => w.store.live.slots ⟨"/r"⟩ "job" == [0]) = true := by
    simp only [staleDraft, List.cons_append, List.nil_append, replay, play, submitted, advance,
      Store.commit, Store.response?, Store.holds_eq, Chronicle.snapshotAt, Contents.entriesUnder,
      Proposal.ofSnapshot, Proposal.works, Roster.ofSnapshot, Roster.itemIds, Snapshot.members,
      Snapshot.items, Snapshot.assignments, Snapshot.view, Snapshot.under_eq]
    cbv
  obtain ⟨w, hw, hslots⟩ := (Option.any_eq_true _ _).1 hreplay
  have hrun := run_of_replay hw
  have hempty : ∀ item, countsUp (fresh.store.live.slots ⟨"/r"⟩ item) = true :=
    fun _ => countsUp_iff.2 (List.Perm.refl [])
  exact ⟨w, hrun, eq_of_beq hslots, dense_of_run isStart_fresh hempty hrun⟩

end World

end Allotment
