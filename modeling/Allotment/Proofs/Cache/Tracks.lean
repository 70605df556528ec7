import Allotment.Cache.Basic
import Allotment.Proofs.Cache.Apply
import Allotment.Proofs.Commit
import Allotment.Proofs.Store.Watches

/-!
# A cache that tracks its store

The chronicle attests a snapshot that shows the contents right after its revision
(`Chronicle.Attests`), and it attests what a snapshot becomes by the next response of its scope
(`Attests.next`).  A cache tracks its store while its snapshot and its draft are attested and its stream, if
it has one, follows from where the draft stands (`Cache.Tracks`).  Loading, following and everything that
happens to the store keep it on track; the lemmas here are one for each of these.
-/

namespace Allotment

/-! ### Attested snapshots -/

namespace Chronicle

/-- The snapshot shows the contents right after its revision. -/
def Attests (log : Chronicle) (s : Snapshot) : Prop :=
  log.snapshotAt s.layout s.revision = .ok s

variable {log : Chronicle} {s s' : Snapshot} {store : Store}

theorem attests_iff : log.Attests s ↔ s.Mirrors (log.contentsAt s.revision) := by
  unfold Attests snapshotAt
  rw [Snapshot.ofEntries_entriesUnder_eq_ok_iff]
  simp

theorem attests_empty (h : log.Remembers store) (l : Layout) : log.Attests (Snapshot.empty l) := by
  have hnone : ∀ k, (log.contentsAt 0).get? k = none := fun k => by
    cases hk : (log.contentsAt 0).get? k with
    | none => rfl
    | some v =>
      have := h.modified_of_get?_contentsAt hk
      omega
  rw [attests_iff]
  exact ⟨fun k _ => (Snapshot.agreesAt_none (hnone k)).2 rfl, fun k _ => rfl⟩

theorem Attests.append (h : log.Attests s) {t : Transaction} {r : Response}
    (hr : store.response? t = some r) (hs : s.revision ≤ store.revision) :
    Attests (log ++ [r]) s := by
  unfold Attests snapshotAt at h ⊢
  rw [contentsAt_append_of_le log hr hs, h]

/-- What is read from the store is attested. -/
theorem attests_of_read (h : log.Remembers store) {l : Layout} {revision : Int} {reading : Reading}
    (hr : store.read l.scope revision = .ok reading)
    (hs : Snapshot.ofEntries l reading.revision reading.entries = .ok s) :
    log.Attests s ∧ s.layout = l ∧ 0 ≤ s.revision ∧ s.revision ≤ store.revision := by
  obtain ⟨hlow, hhigh, hentries⟩ := h.of_read hr
  obtain ⟨hl, hrev, -⟩ := Snapshot.ofEntries_eq_ok hs
  have hc := h.compacted_le
  rw [hentries, ← hrev, ← hl] at hs
  exact ⟨hs, hl, by omega, by omega⟩

/-- The next response of the scope leads to an attested snapshot. -/
theorem Attests.next (h : log.Attests s) (hlog : log.IsOrdered) {r : Response} {rest : List Response}
    (hs : log.since s.layout.scope s.revision = r :: rest) (ha : s.apply r = .ok s') :
    log.Attests s' ∧ s'.layout = s.layout ∧ s'.revision = r.revision ∧ s.revision < r.revision := by
  obtain ⟨hlt, -, -, hunder, hget⟩ := hlog.next_of_since_eq_cons hs
  have hmirrors := (attests_iff.1 h).apply (fun e he => (hunder e he).2) ha
  obtain ⟨-, entries, -, rfl⟩ := Snapshot.apply_eq_ok_iff.1 ha
  exact ⟨attests_iff.2 (hmirrors.congr hget), rfl, rfl, hlt⟩

/-- A snapshot since whose revision nothing has happened in its scope shows the live contents. -/
theorem Attests.live (h : log.Attests s) (hstore : log.Remembers store)
    (hle : s.revision ≤ store.revision) (hs : log.since s.layout.scope s.revision = []) :
    Snapshot.ofEntries s.layout s.revision (store.live.entriesUnder s.layout.scope) = .ok s := by
  rw [Snapshot.ofEntries_entriesUnder_eq_ok_iff]
  refine ⟨rfl, rfl, (attests_iff.1 h).congr fun k hk => ?_⟩
  rw [← hstore.contentsAt_revision, hstore.get?_of_since_eq_nil hs hle hk]

end Chronicle

/-! ### Tracking -/

namespace Cache

/-- The snapshot that the deliveries so far lead to. -/
def tip (c : Cache) : Snapshot :=
  c.draft.getD c.snapshot

theorem tip_eq_snapshot {c : Cache} (h : c.draft = none) : c.tip = c.snapshot := by
  unfold tip
  rw [h]
  rfl

theorem tip_of_draft {c : Cache} {s : Snapshot} (h : c.draft = some s) : c.tip = s := by
  unfold tip
  rw [h]
  rfl

theorem draft_flush (c : Cache) : c.flush.draft = none := by
  unfold flush
  cases hd : c.draft with
  | none => exact hd
  | some s => rfl

theorem snapshot_flush (c : Cache) : c.flush.snapshot = c.tip := by
  unfold flush tip
  cases c.draft with
  | none => rfl
  | some s => rfl

theorem tip_flush (c : Cache) : c.flush.tip = c.tip :=
  (tip_eq_snapshot c.draft_flush).trans c.snapshot_flush

/-- What a cache with its stream has in common with the store it follows. -/
structure Tracks (log : Chronicle) (h : Hub) (c : Cache) (stream : Option WatchId) : Prop where
  published : log.Attests c.snapshot
  drafted : log.Attests c.tip
  layout : c.tip.layout = c.layout
  within : 0 ≤ c.revision ∧ c.revision ≤ c.tip.revision ∧ c.tip.revision ≤ h.store.revision
  ahead : c.draft.isSome = true → c.revision < c.tip.revision
  follows : ∀ id, stream = some id → ∃ w, h.watch? id = some w ∧ w.scope = c.layout.scope ∧
    w.Follows log c.tip.revision
  idle : stream = none → c.draft = none

theorem load_eq_ok_iff {c c' : Cache} {reading : Except StoreError Reading} :
    c.load reading = .ok c' ↔ ∃ r s, reading = .ok r ∧
      Snapshot.ofEntries c.layout r.revision r.entries = .ok s ∧
        c' = { c.publish s with loaded := true, failure := none } := by
  unfold load
  cases reading with
  | error e => simp [Except.mapError, bind, Except.bind]
  | ok r =>
    cases hs : Snapshot.ofEntries c.layout r.revision r.entries with
    | error e => simp [Except.mapError, bind, Except.bind, hs]
    | ok s => simp [Except.mapError, bind, Except.bind, pure, Except.pure, hs, eq_comm]

theorem from?_eq_ok_iff {c : Cache} {revision : Int} :
    c.from? = .ok revision ↔ c.loaded = true ∧ revision = c.revision + 1 := by
  unfold from?
  by_cases hl : c.loaded = true
  · simp [hl, eq_comm]
  · simp [hl]

theorem deliver_response_eq_ok_iff {c c' : Cache} {r : Response} :
    c.deliver (.response r) = .ok c' ↔
      ∃ s, c.tip.apply r = .ok s ∧ c' = { c with draft := some s } := by
  unfold deliver tip
  cases hs : (c.draft.getD c.snapshot).apply r <;> simp [hs, Except.map, eq_comm]

namespace Tracks

variable {log : Chronicle} {h h' : Hub} {c c' : Cache} {stream : Option WatchId} {id : WatchId}

/-- A cache that is not loaded tracks every store. -/
theorem empty (hlog : log.Remembers h.store) (l : Layout) :
    Tracks log h (Cache.empty l) none where
  published := Chronicle.attests_empty hlog l
  drafted := Chronicle.attests_empty hlog l
  layout := rfl
  within := ⟨Int.le_refl 0, Int.le_refl 0, Int.le_trans hlog.compacted_le.1 hlog.compacted_le.2⟩
  ahead := fun hd => nomatch hd
  follows := fun _ hid => nomatch hid
  idle := fun _ => rfl

theorem serves (hc : c.Tracks log h stream) :
    h.Serves log stream c.layout.scope c.tip.revision :=
  hc.follows

/-! ### What happens to the store -/

/-- Nothing that leaves the revision of the store and the watch of the cache alone is noticed. -/
theorem frame (hc : c.Tracks log h stream) (hrev : h'.store.revision = h.store.revision)
    (hw : ∀ id, stream = some id → h'.watch? id = h.watch? id) : c.Tracks log h' stream where
  published := hc.published
  drafted := hc.drafted
  layout := hc.layout
  within := by
    rw [hrev]
    exact hc.within
  ahead := hc.ahead
  follows := hc.serves.frame hw
  idle := hc.idle

theorem commit (hc : c.Tracks log h stream) {t : Transaction} {reply : Reply}
    (ht : h.commit t = .ok (h', reply)) :
    c.Tracks (log ++ (h.store.response? t).toList) h' stream := by
  have hserves := hc.serves.commit ht hc.within.2.2
  obtain ⟨-, ⟨r, hr, hs, -⟩ | ⟨hr, hs, -⟩⟩ := Store.commit_eq_ok_iff.1 (Hub.of_commit ht).1
  · have hrev : r.revision = h.store.revision + 1 := by
      obtain ⟨-, -, rfl⟩ := Store.response?_eq_some_iff.1 hr
      rfl
    have hstore : h'.store.revision = r.revision := by rw [hs]; rfl
    obtain ⟨hlow, hmid, hhigh⟩ := hc.within
    rw [hr] at hserves ⊢
    exact ⟨hc.published.append hr (Int.le_trans hmid hhigh), hc.drafted.append hr hhigh, hc.layout,
      ⟨hlow, hmid, by omega⟩, hc.ahead, hserves, hc.idle⟩
  · rw [hr, Option.toList_none, List.append_nil] at hserves ⊢
    exact ⟨hc.published, hc.drafted, hc.layout, by rw [hs]; exact hc.within, hc.ahead, hserves, hc.idle⟩

theorem closeWatches (hc : c.Tracks log h stream) : c.Tracks log h.closeWatches stream where
  published := hc.published
  drafted := hc.drafted
  layout := hc.layout
  within := hc.within
  ahead := hc.ahead
  follows := hc.serves.closeWatches
  idle := hc.idle

/-! ### What the cache does -/

theorem load (hc : c.Tracks log h none) (hlog : log.Remembers h.store) {revision : Int}
    (hl : c.load (h.store.read c.layout.scope revision) = .ok c') :
    c'.Tracks log h none ∧ c'.layout = c.layout := by
  obtain ⟨r, s, hr, hs, rfl⟩ := load_eq_ok_iff.1 hl
  obtain ⟨hattests, hlayout, hlow, hhigh⟩ := Chronicle.attests_of_read hlog hr hs
  have hdraft : c.draft = none := hc.idle rfl
  have htip : Cache.tip { c.publish s with loaded := true, failure := none } = s := by
    show c.draft.getD s = s
    rw [hdraft]
    rfl
  refine ⟨⟨hattests, by rw [htip]; exact hattests, by rw [htip]; rfl, ?_, fun hd => ?_,
    fun _ hid => (nomatch hid), fun _ => hdraft⟩, hlayout⟩
  · rw [htip]
    exact ⟨hlow, Int.le_refl _, hhigh⟩
  · have hd : c.draft.isSome = true := hd
    rw [hdraft] at hd
    exact nomatch hd

theorem watch (hc : c.Tracks log h none) (hlog : log.Remembers h.store) (hh : h.IsNumbered)
    (hw : h.watch c.layout.scope (c.revision + 1) = .ok (h', id)) : c.Tracks log h' (some id) := by
  have hserves := Hub.Serves.of_watch hlog hh hw
  rw [Int.add_sub_cancel, revision, ← tip_eq_snapshot (hc.idle rfl)] at hserves
  exact ⟨hc.published, hc.drafted, hc.layout, Hub.store_of_watch hw ▸ hc.within, hc.ahead, hserves,
    fun hid => nomatch hid⟩

/-- A response that has been taken and applied keeps the cache on track. -/
theorem deliver (hc : c.Tracks log h (some id)) (hlog : log.IsOrdered) {w : Watch} {r : Response}
    {rest : List Response} (hw : h.watch? id = some w) (hp : w.pending = r :: rest)
    (hr : r.revision ≤ h.store.revision) (hd : c.deliver (.response r) = .ok c') :
    c'.Tracks log (h.leave id rest) (some id) ∧ c'.draft.isSome = true ∧
      c'.snapshot = c.snapshot := by
  obtain ⟨s, hs, rfl⟩ := deliver_response_eq_ok_iff.1 hd
  obtain ⟨late, hsince⟩ := hc.serves.exists_since_eq hw hp
  rw [← hc.layout] at hsince
  obtain ⟨hattests, hl, hrev, hlt⟩ := hc.drafted.next hlog hsince hs
  obtain ⟨hlow, hmid, -⟩ := hc.within
  have htip : Cache.tip { c with draft := some s } = s := rfl
  refine ⟨⟨hc.published, hattests, ?_, ?_, fun _ => ?_, ?_, fun hid => nomatch hid⟩, rfl, rfl⟩
  · rw [htip, hl]
    exact hc.layout
  · rw [htip, hrev]
    exact ⟨hlow, Int.le_trans hmid (Int.le_of_lt hlt), hr⟩
  · rw [htip, hrev]
    exact Int.lt_of_le_of_lt hmid hlt
  · rw [htip, hrev]
    exact hc.serves.next hlog hw hp

theorem flush (hc : c.Tracks log h stream) : c.flush.Tracks log h stream := by
  unfold Cache.flush
  cases hd : c.draft with
  | none => exact hc
  | some s =>
    have htip : c.tip = s := tip_of_draft hd
    have hlayout : s.layout = c.layout := htip ▸ hc.layout
    refine ⟨htip ▸ hc.drafted, htip ▸ hc.drafted, rfl, ?_, fun hn => (nomatch hn), fun id hid => ?_,
      fun _ => rfl⟩
    · obtain ⟨hlow, hmid, hhigh⟩ := hc.within
      rw [htip] at hmid hhigh
      exact ⟨Int.le_trans hlow hmid, Int.le_refl _, hhigh⟩
    · obtain ⟨w, hw, hscope, hfollows⟩ := hc.follows id hid
      rw [htip] at hfollows
      exact ⟨w, hw, hscope.trans (congrArg Layout.scope hlayout.symm), hfollows⟩

theorem stop (hc : c.Tracks log h stream) (fault : Option CacheError) :
    (c.stop fault).Tracks log h none where
  published := hc.published
  drafted := hc.published
  layout := rfl
  within := ⟨hc.within.1, Int.le_refl _, Int.le_trans hc.within.2.1 hc.within.2.2⟩
  ahead := fun hd => nomatch hd
  follows := fun _ hid => nomatch hid
  idle := fun _ => rfl

/-- Once everything has been taken from an open stream and published, nothing in its scope is new to the
cache. -/
theorem since_eq_nil (hc : c.Tracks log h (some id)) {w : Watch} (hw : h.watch? id = some w)
    (hopen : w.closed = false) (hp : w.pending = []) (hd : c.draft = none) :
    log.since c.layout.scope c.revision = [] := by
  obtain ⟨w', hw', hscope, hfollows⟩ := hc.follows id rfl
  obtain rfl : w = w' := Option.some.inj (hw.symm.trans hw')
  have hsince := hfollows.since_eq hopen
  rwa [hp, hscope, tip_eq_snapshot hd] at hsince

/-- Once everything has been taken from an open stream and published, the cache shows the live
contents. -/
theorem live (hc : c.Tracks log h (some id)) (hlog : log.Remembers h.store) {w : Watch}
    (hw : h.watch? id = some w) (hopen : w.closed = false) (hp : w.pending = [])
    (hd : c.draft = none) :
    Snapshot.ofEntries c.layout c.revision (h.store.live.entriesUnder c.layout.scope) =
      .ok c.snapshot :=
  hc.published.live hlog (Int.le_trans hc.within.2.1 hc.within.2.2) (hc.since_eq_nil hw hopen hp hd)

end Tracks

end Cache

end Allotment
