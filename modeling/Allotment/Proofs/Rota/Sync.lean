import Allotment.Proofs.Rota.Reached

/-!
# Rotas in step with their store

A rota is in step with its store if its cache has caught up with it and its task can follow it on
(`Rota.InStep`).  Then the latest snapshot is the one that the cache has published, and it is decoded from
what the store holds (`InStep.latest_eq`, `InStep.decoded`).  A rota whose task runs without fault gets into
step when it looks for the latest snapshot (`Sound.exists_latest`), and after a commit it gets into step
again if everything that the commit writes can be read (`InStep.commit`).
-/

namespace Allotment

theorem Hub.exists_commit {h : Hub} {t : Transaction} {s : Store} {reply : Reply}
    (hc : h.store.commit t = .ok (s, reply)) :
    ∃ h', h.commit t = .ok (h', reply) ∧ h'.store = s := by
  unfold commit
  rw [hc]
  exact ⟨_, rfl, rfl⟩

theorem Hub.commit_eq_error {h : Hub} {t : Transaction} {e : StoreError}
    (hc : h.store.commit t = .error e) : h.commit t = .error e := by
  unfold commit
  rw [hc]
  rfl

/-- An available store carries out a transaction whose guards all hold. -/
theorem Store.exists_commit {s : Store} {t : Transaction} (havailable : s.available = true)
    (hguards : t.guards.all s.holds = true) :
    ∃ s' reply, s.commit t = .ok (s', reply) ∧ reply.succeeded = true ∧ s'.available = true ∧
      s'.compacted = s.compacted := by
  cases hr : s.response? t with
  | some r => exact ⟨_, _, commit_eq_ok_iff.2 ⟨havailable, .inl ⟨r, hr, rfl, rfl⟩⟩, rfl, havailable, rfl⟩
  | none => exact ⟨_, _, commit_eq_ok_iff.2 ⟨havailable, .inr ⟨hr, rfl, rfl⟩⟩, hguards, havailable, rfl⟩

/-- A commit does not close watches. -/
theorem Observer.IsReady.commit {o : Observer} {h h' : Hub} (hready : o.IsReady h) {t : Transaction}
    {reply : Reply} (hc : h.commit t = .ok (h', reply)) : o.IsReady h' := by
  refine hready.imp_right ?_
  rintro ⟨id, w, hf, hw, hopen⟩
  have hw' := Hub.watch?_of_commit hc id
  rw [hw] at hw'
  refine ⟨id, _, hf, hw', ?_⟩
  cases h.store.response? t with
  | some r => exact (w.closed_publish r).trans hopen
  | none => exact hopen

namespace Rota

/-- The cache has caught up with an available store, and the task can follow the store on. -/
structure InStep (l : Layout) (log : Chronicle) (r : Rota) : Prop where
  sound : r.Sound l log
  available : r.hub.store.available = true
  current : r.observer.cache.revision = r.hub.store.revision
  ready : r.observer.IsReady r.hub
  failure : r.observer.cache.failure = none

variable {l : Layout} {log : Chronicle} {r : Rota}

namespace InStep

theorem latest_eq (h : r.InStep l log) : r.latest = (r, .ok r.observer.cache.snapshot) := by
  have hready : (Wait.mk r.hub.store.revision false).ready? r.observer.cache =
      some (.reached r.observer.cache.snapshot) := by
    unfold Wait.ready?
    rw [if_pos (Int.le_of_eq h.current.symm)]
  unfold Rota.latest Observer.attempt
  simp only [hready]

/-- The latest snapshot is decoded from what the store holds. -/
theorem decoded (h : r.InStep l log) :
    Snapshot.ofEntries l r.hub.store.revision (r.hub.store.live.entriesUnder l.scope) =
      .ok r.observer.cache.snapshot := by
  have hattests : log.snapshotAt r.observer.cache.layout r.observer.cache.revision =
      .ok r.observer.cache.snapshot := h.sound.sound.tracks.published
  rw [h.sound.sound.layout, h.current] at hattests
  rw [← h.sound.reached.explains.contentsAt_revision]
  exact hattests

/-- The report has no part in it. -/
theorem withReport (h : r.InStep l log) (report : RotaReport) : InStep l log { r with report } :=
  ⟨h.sound, h.available, h.current, h.ready, h.failure⟩

end InStep

/-- A rota whose task runs without fault gets into step when it looks for the latest snapshot. -/
theorem Sound.exists_latest (hs : r.Sound l log) (havailable : r.hub.store.available = true)
    (hfailure : r.observer.cache.failure = none) (hrun : r.observer.IsRunning r.hub) :
    ∃ r', r.latest = (r', .ok r'.observer.cache.snapshot) ∧ r'.InStep l log ∧
      r'.hub.store = r.hub.store ∧ r'.bounds = r.bounds := by
  obtain ⟨hready, -⟩ := hs.sound.of_isRunning hs.remembers hs.numbered hrun
  by_cases hcurrent : r.hub.store.revision ≤ r.observer.cache.revision
  · have hwithin := hs.sound.tracks.within
    have hin : r.InStep l log := ⟨hs, havailable, by omega, hready, hfailure⟩
    exact ⟨r, hin.latest_eq, hin, rfl, rfl⟩
  · obtain ⟨hsound, hstore, -⟩ := hs.sound.run hs.remembers hs.numbered
    have hrevision := hs.sound.revision_run hs.remembers hs.numbered hs.inside hrun
    refine ⟨{ r with observer := (r.observer.run r.hub).1, hub := (r.observer.run r.hub).2 }, ?_,
      ⟨Observed.run hs, hstore ▸ havailable, hstore ▸ hrevision, .inr hrun,
        (Observer.Sound.failure_run hrun).trans hfailure⟩, hstore, rfl⟩
    have hwaits : (Wait.mk r.hub.store.revision false).ready? r.observer.cache = none := by
      unfold Wait.ready?
      rw [if_neg hcurrent, hfailure]
      rfl
    have hreached : (Wait.mk r.hub.store.revision false).ready? (r.observer.run r.hub).1.cache =
        some (.reached (r.observer.run r.hub).1.cache.snapshot) := by
      unfold Wait.ready?
      rw [if_pos (Int.le_of_eq hrevision.symm)]
    unfold Rota.latest Observer.attempt
    simp only [hwaits, hreached]

namespace InStep

/-- A transaction whose guards all hold is carried out, and the task can follow the store further if all
that is written can be read. -/
theorem commit (h : r.InStep l log) {t : Transaction} (hguards : t.guards.all r.hub.store.holds = true)
    (hscope : ∀ w ∈ t.writes, w.key.startsWith l.scope = true)
    (hread : ∀ e ∈ Write.changes (r.hub.store.revision + 1) t.writes r.hub.store.live, e.IsReadable l) :
    ∃ hub reply log', r.hub.commit t = .ok (hub, reply) ∧ reply.succeeded = true ∧
      hub.store.available = true ∧ Observed l log' r.observer hub ∧ r.observer.IsRunning hub := by
  obtain ⟨s, reply, hc, hsucceeded, havailable, hcompacted⟩ := Store.exists_commit h.available hguards
  obtain ⟨hub, hcommit, rfl⟩ := Hub.exists_commit hc
  have ho := Observed.commit h.sound hcommit hscope
  refine ⟨hub, reply, _, hcommit, hsucceeded, havailable, ho,
    ho.sound.isRunning (h.ready.commit hcommit) ho.remembers ho.numbered havailable ?_ ?_⟩
  · rw [hcompacted, h.current]
    exact h.sound.reached.explains.compacted_le.2
  · intro e he hlt
    rw [Chronicle.changes_append] at he
    rcases List.mem_append.1 he with hold | hnew
    · have hbound := (h.sound.reached.explains.bounded e hold).2
      rw [h.current] at hlt
      omega
    · obtain ⟨response, hr, hmem⟩ := List.mem_flatMap.1 hnew
      obtain ⟨-, -, rfl⟩ := Store.response?_eq_some_iff.1 (Option.mem_toList.1 hr)
      exact hread e hmem

end InStep

end Rota

end Allotment
