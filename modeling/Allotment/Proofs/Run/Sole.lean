import Allotment.Proofs.Run.Capacity

/-!
# Nobody holds an item twice

A member may vanish and come back, an item may be deleted and put again, and drafts may be as old as they
like, while orphans stay behind.  But whoever claims a replica sees all the replicas of the item through the
guards of the commit, and it exists, so that its own replicas are no orphans and it claims no second one
(`Effect.isSole`).  As long as the other writers put no assignments, no two assignment keys ever come to
stand for one item and one holder (`sole_of_run`).
-/

namespace Allotment

/-! ### Contents -/

/-- No two assignment keys have the same item and the same holder. -/
def Contents.IsSole (l : Layout) (c : Contents) : Prop :=
  ((c.keys.filterMap l.holding?).map fun a => (a.item, a.holder)).Nodup

namespace Contents

variable {l : Layout} {c c' : Contents}

instance (l : Layout) (c : Contents) : Decidable (c.IsSole l) :=
  inferInstanceAs (Decidable (List.Nodup _))

theorem isSole_iff : c.IsSole l ↔ ∀ k ∈ c.keys, ∀ k' ∈ c.keys, ∀ a a', l.holding? k = some a →
    l.holding? k' = some a' → a.item = a'.item → a.holder = a'.holder → k = k' := by
  have hmap : (c.keys.filterMap l.holding?).map (fun a => (a.item, a.holder)) =
      c.keys.filterMap fun k => (l.holding? k).map fun a => (a.item, a.holder) :=
    List.map_filterMap
  unfold IsSole
  rw [hmap, List.Nodup, List.pairwise_filterMap]
  constructor
  · intro h k hk k' hk' a a' ha ha' hitem hholder
    by_contra hne
    have hsymm : Std.Symm fun k k' : String =>
        ∀ b, ((l.holding? k).map fun a => (a.item, a.holder)) = some b →
        ∀ b', ((l.holding? k').map fun a => (a.item, a.holder)) = some b' → b ≠ b' :=
      ⟨fun _ _ h b hb b' hb' => (h b' hb' b hb).symm⟩
    have hpair := List.Pairwise.forall h hk hk' hne
    exact hpair _ (by rw [ha]; rfl) _ (by rw [ha']; rfl) (Prod.ext hitem hholder)
  · intro h
    refine c.nodup_keys.imp_of_mem fun {k k'} hk hk' hne b hb b' hb' => ?_
    obtain ⟨a, ha, rfl⟩ := Option.map_eq_some_iff.1 hb
    obtain ⟨a', ha', rfl⟩ := Option.map_eq_some_iff.1 hb'
    intro he
    obtain ⟨hitem, hholder⟩ := Prod.mk.inj he
    exact hne (h k hk k' hk' a a' ha ha' hitem hholder)

/-- Without new assignment keys no item is held twice. -/
theorem IsSole.of_keys (h : c.IsSole l)
    (hk : ∀ k, (l.holding? k).isSome = true → k ∈ c'.keys → k ∈ c.keys) : c'.IsSole l := by
  rw [isSole_iff] at h ⊢
  intro k hk₁ k' hk₂ a a' ha ha'
  exact h k (hk k (by rw [ha]; rfl) hk₁) k' (hk k' (by rw [ha']; rfl) hk₂) a a' ha ha'

variable {item : String} {rs : List Replica}

/-- The replicas that an item shows have different holders. -/
theorem IsSole.nodup_holders (h : c.IsSole l) (hof : ReplicasOf l item rs) (hshows : c.Shows l item rs) :
    (rs.map (·.holder)).Nodup := by
  refine List.Nodup.map_on (fun r hr q hq he => ?_) hof.nodup_self
  have hholding : ∀ r ∈ rs, l.holding? r.key = some ⟨item, r.holder, r.slot⟩ := fun r hr => by
    rw [(hof.named hr).holding?_eq hof.segment, if_pos (hof.slot_lt hr)]
  have hkey : ∀ r ∈ rs, r.key ∈ c.keys := fun r hr => by
    rw [mem_keys_iff, hshows.value r hr]
    rfl
  have heq := isSole_iff.1 h _ (hkey r hr) _ (hkey q hq) _ _ (hholding r hr) (hholding q hq) rfl he
  exact List.inj_on_of_nodup_map hof.nodup hr hq heq

end Contents

/-! ### Commits -/

/-- Shares of items that nobody holds twice leave them so, if the member itself exists. -/
theorem Effect.isSole {l : Layout} {v : Viewpoint} {ts : List (Nat × Planned)} {c c' : Contents}
    (h : Effect l v ts c c') (hof : ∀ t ∈ ts, ReplicasOf l t.2.name t.2.replicas)
    (hafter : ∀ t ∈ ts, (t.2.replicas.map (·.holder)).Nodup →
      ((v.outcome t.1 t.2).map (·.holder)).Nodup) (hc : c.IsSole l) : c'.IsSole l := by
  rw [Contents.isSole_iff]
  intro k hk k' hk' a a' ha ha' hitem hholder
  have hp := Layout.holding?_eq_some_iff.1 ha
  have hp' := Layout.holding?_eq_some_iff.1 ha'
  obtain ⟨-, -, hseg, -⟩ := Layout.parse_eq_assignment_iff.1 hp
  have hscope : k.startsWith (l.itemScope a.item) = true := (Layout.startsWith_itemScope_iff hp hseg).2 rfl
  have hscope' : k'.startsWith (l.itemScope a.item) = true :=
    (Layout.startsWith_itemScope_iff hp' hseg).2 hitem.symm
  by_cases hex : ∃ t ∈ ts, t.2.name = a.item
  case neg =>
    have helsewhere : ∀ k, k.startsWith (l.itemScope a.item) = true → k ∈ c'.keys → k ∈ c.keys := by
      intro k hk hmem
      rw [Contents.mem_keys_iff] at hmem ⊢
      unfold Contents.value? at hmem ⊢
      rwa [← h.get?_eq_of_not_mem (fun t ht => (hof t ht).segment) hseg (fun t ht he => hex ⟨t, ht, he⟩) hk]
    exact Contents.isSole_iff.1 hc k (helsewhere k hscope hk) k' (helsewhere k' hscope' hk') a a' ha ha'
      hitem hholder
  case pos =>
    obtain ⟨t, ht, hname⟩ := hex
    have hshows := h.after t ht
    have hreplica : ∀ k a, l.holding? k = some a → k.startsWith (l.itemScope a.item) = true →
        a.item = t.2.name → k ∈ c'.keys →
          ∃ r ∈ v.outcome t.1 t.2, r.key = k ∧ r.holder = a.holder := by
      intro k a ha hk hi hmem
      obtain ⟨r, hr, rfl⟩ := List.mem_map.1 (hshows.only k (hi ▸ hk) (Contents.mem_keys_iff.1 hmem))
      rw [(hshows.named r hr).holding?_eq (hof t ht).segment] at ha
      split at ha
      next => exact ⟨r, hr, rfl, congrArg Holding.holder (Option.some.inj ha)⟩
      next => exact nomatch ha
    obtain ⟨r, hr, hkey, hr'⟩ := hreplica k a ha hscope hname.symm hk
    obtain ⟨q, hq, hkey', hq'⟩ := hreplica k' a' ha' (hitem ▸ hscope') (hitem ▸ hname.symm) hk'
    have hnodup := hafter t ht (hc.nodup_holders (hof t ht) (h.before t ht))
    have he := List.inj_on_of_nodup_map hnodup hr hq (hr'.trans (hholder.trans hq'.symm))
    rw [← hkey, ← hkey', he]

/-- A commit of a proposal gives nobody a second replica, however old its snapshot is. -/
theorem Commits.isSole {l : Layout} {log : Chronicle} {s s' : Store} {m : MemberId} {b : Bounds}
    {p : Proposal} {snapshot : Snapshot} (h : Commits l log s m b p snapshot s')
    (hs : s.live.IsSole l) : s'.live.IsSole l := by
  obtain ⟨entry, ts, hm⟩ := Proposal.made_of_ofSnapshot h.proposed
  refine (h.effect hm).isSole (fun t ht => h.replicasOf hm ht) (fun t ht hnodup => ?_) hs
  refine Viewpoint.nodup_holders_outcome (hm.fits h.faithful ht) (fun r hr he => ?_) hnodup t.1
  have hself : r.holder = m := he
  rw [hm.orphan_eq h.faithful ht hr, hself, hm.member]
  rfl

/-! ### Runs -/

/-- Other writers put no assignments, and members plan as they like. -/
def Rules.sparing (l : Layout) : Rules :=
  ⟨Transaction.PutsNoAssignment l, fun _ _ _ => True⟩

instance Rules.decidableEditsSparing (l : Layout) : DecidablePred (Rules.sparing l).edits := fun t =>
  inferInstanceAs (Decidable (∀ w ∈ t.writes, w.value?.isSome = true → l.holding? w.key = none))

instance Rules.decidablePlansSparing (l : Layout) (w : World) (m : MemberId) (revision : Int) :
    Decidable ((Rules.sparing l).plans w m revision) :=
  inferInstanceAs (Decidable True)

namespace World

variable {l : Layout} {w w' : World}

/-- If nobody holds an item twice in the beginning, then nobody does so at any time in a run. -/
theorem sole_of_run (h₀ : w.IsStart) (hs : w.store.live.IsSole l) (h : Run l (Rules.sparing l) w w') :
    w'.store.live.IsSole l :=
  h.live_induct h₀.sound hs (fun _ _ _ ht hc => hc.of_keys fun _ hk hmem => ht.mem_keys hk hmem)
    fun h hc => h.isSole hc

/-- A member claims a replica twice from the same revision.  When it has vanished and come back, the second
claim is submitted, too. -/
def revenant : List Move :=
  [.edit ⟨[], [.put "/r/items/job" (Item.encode 1), .put "/r/members/east/one" (Member.encode 1)]⟩,
    .plan ⟨"east", "one"⟩ Bounds.standard 1, .plan ⟨"east", "one"⟩ ⟨0, 0⟩ 1, .submit 0,
    .edit ⟨[], [.delete "/r/members/east/one"]⟩,
    .edit ⟨[], [.put "/r/members/east/one" (Member.encode 2)]⟩, .submit 0]

/-- The second claim is refused, so that the member holds the item once. -/
theorem sole_of_revenant :
    ∃ w, Run ⟨"/r"⟩ (Rules.sparing ⟨"/r"⟩) fresh w ∧ w.store.revision = 4 ∧
      w.store.live.keys.filterMap (Layout.mk "/r").holding? = [⟨"job", ⟨"east", "one"⟩, 0⟩] ∧
        w.store.live.IsSole ⟨"/r"⟩ := by
  have hreplay : ((fresh.replay ⟨"/r"⟩ (Rules.sparing ⟨"/r"⟩) revenant).any fun w =>
      w.store.revision == 4 && w.store.live.keys.filterMap (Layout.mk "/r").holding? ==
        [⟨"job", ⟨"east", "one"⟩, 0⟩]) = true := by
    simp only [revenant, replay, play, submitted, advance, Store.commit, Store.response?,
      Store.holds_eq, Chronicle.snapshotAt, Contents.entriesUnder, Proposal.ofSnapshot,
      Proposal.works, Roster.ofSnapshot, Roster.itemIds, Snapshot.members, Snapshot.items,
      Snapshot.assignments, Snapshot.view, Snapshot.under_eq, ← Bool.cond_eq_ite]
    cbv
  obtain ⟨w, hw, hfacts⟩ := (Option.any_eq_true _ _).1 hreplay
  rw [Bool.and_eq_true, beq_iff_eq, beq_iff_eq] at hfacts
  have hrun := run_of_replay hw
  have hempty : fresh.store.live.IsSole ⟨"/r"⟩ := List.nodup_nil
  exact ⟨w, hrun, hfacts.1, hfacts.2, sole_of_run isStart_fresh hempty hrun⟩

end World

end Allotment
