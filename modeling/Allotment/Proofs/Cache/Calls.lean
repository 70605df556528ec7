import Allotment.Cache.Script
import Allotment.Proofs.Cache.Watched

/-!
# Calls of a cache

A cache is called to load and to follow a stream, in any order and whatever the store answers (`Cache.call`).
While it follows a stream, what it has published is always what complete batches of responses have led to, and
an error takes back nothing and adds nothing (`Cache.snapshot_follow`, `Cache.exists_failing`).  How the cache
stands after some calls can be read off their results: it is decided by the last load that has succeeded or the
last stream that has been followed, whichever came later (`Cache.Stands`, `Cache.Called.stands`).
-/

namespace Allotment

/-! ### Batches -/

/-- The response that a signal hands over, if it does. -/
def Signal.response? : Signal → Option Response
  | .handed (.response r) => some r
  | _ => none

/-- The signals up to the last pause. -/
def Signal.complete : List Signal → List Signal
  | [] => []
  | .pause :: rest => .pause :: complete rest
  | .handed d :: rest => if (complete rest).isEmpty then [] else .handed d :: complete rest

theorem Signal.complete_handed_of_nil {d : Delivery} {rest : List Signal} (h : complete rest = []) :
    complete (.handed d :: rest) = [] :=
  if_pos (List.isEmpty_iff.2 h)

theorem Signal.complete_handed_of_ne_nil {d : Delivery} {rest : List Signal} (h : complete rest ≠ []) :
    complete (.handed d :: rest) = .handed d :: complete rest :=
  if_neg fun hnil => h (List.isEmpty_iff.1 hnil)

/-- What opening the stream of a script leads to. -/
def Script.opening (s : Script) : Except StoreError (List Signal) :=
  match s.ending with
  | .refused e => .error e
  | .closed => .ok (s.signals ++ [.handed (.failure .closed)])
  | .opened => .ok s.signals

namespace Snapshot

/-- The snapshot cannot go on with a delivery. -/
inductive Refuses (s : Snapshot) : Delivery → CacheError → Prop
  | response {r : Response} {e : CacheError} (h : s.apply r = .error e) : Refuses s (.response r) e
  | failure (e : StoreError) : Refuses s (.failure e) (.store e)

theorem applyChange_ne_notLoaded (s : Snapshot) (expected : Int) (m : KeyMap (Stamped Resource))
    (e : Change) : s.applyChange expected m e ≠ .error .notLoaded := by
  unfold applyChange
  split
  · simp
  · cases e with
    | put stored => cases h : addEntry s.layout m stored <;> simp [h, Except.mapError]
    | delete k r => simp

theorem foldlM_applyChange_ne_notLoaded (s : Snapshot) (expected : Int) (es : List Change)
    (m : KeyMap (Stamped Resource)) :
    es.foldlM (s.applyChange expected) m ≠ .error .notLoaded := by
  induction es generalizing m with
  | nil => simp [pure, Except.pure]
  | cons e es ih =>
    rw [List.foldlM_cons]
    cases h : s.applyChange expected m e with
    | error fault => exact fun he => s.applyChange_ne_notLoaded expected m e (h.trans he)
    | ok m' => exact ih m'

/-- No delivery fails for the reason that the cache is not loaded. -/
theorem Refuses.ne_notLoaded {s : Snapshot} {d : Delivery} {e : CacheError} (h : s.Refuses d e) :
    e ≠ .notLoaded := by
  cases h with
  | failure e => simp
  | @response r _ h =>
    rintro rfl
    unfold apply at h
    split at h
    · simp at h
    · cases hf : r.changes.foldlM (s.applyChange r.revision) s.entries with
      | error fault =>
        rw [hf] at h
        exact s.foldlM_applyChange_ne_notLoaded _ _ _ (hf.trans (congrArg _ (Except.error.inj h)))
      | ok entries =>
        rw [hf] at h
        exact nomatch h

end Snapshot

namespace Cache

variable {c c' : Cache} {signals rest : List Signal} {d : Delivery} {e : CacheError}

theorem deliver_eq_error_iff : c.deliver d = .error e ↔ c.tip.Refuses d e := by
  cases d with
  | response r =>
    unfold deliver
    constructor
    · intro h
      cases hr : (c.draft.getD c.snapshot).apply r with
      | error fault =>
        simp only [hr, Except.map] at h
        exact .response (Except.error.inj h ▸ hr)
      | ok s => simp [hr, Except.map] at h
    · rintro ⟨h⟩
      unfold tip at h
      simp only [h, Except.map]
  | failure f =>
    constructor
    · intro h
      cases h
      exact .failure f
    · rintro ⟨⟩
      rfl

theorem follow_append (h : (c.follow signals).fault = none) (rest : List Signal) :
    (c.follow (signals ++ rest)).cache = ((c.follow signals).cache.follow rest).cache ∧
      (c.follow (signals ++ rest)).fault = ((c.follow signals).cache.follow rest).fault := by
  induction signals generalizing c with
  | nil => exact ⟨rfl, rfl⟩
  | cons s signals ih =>
    cases s with
    | pause => exact ih h
    | handed d =>
      cases hd : c.deliver d with
      | error e =>
        rw [follow_of_deliver_eq_error hd] at h
        exact nomatch h
      | ok next =>
        rw [List.cons_append, follow_of_deliver_eq_ok hd, follow_of_deliver_eq_ok hd]
        rw [follow_of_deliver_eq_ok hd] at h
        exact ih h

theorem follow_append_of_fault (h : (c.follow signals).fault = some e) (rest : List Signal) :
    (c.follow (signals ++ rest)).cache = (c.follow signals).cache ∧
      (c.follow (signals ++ rest)).fault = some e := by
  induction signals generalizing c with
  | nil => exact nomatch h
  | cons s signals ih =>
    cases s with
    | pause => exact ih h
    | handed d =>
      cases hd : c.deliver d with
      | error fault =>
        rw [List.cons_append, follow_of_deliver_eq_error hd, follow_of_deliver_eq_error hd]
        rw [follow_of_deliver_eq_error hd] at h
        exact ⟨rfl, h⟩
      | ok next =>
        rw [List.cons_append, follow_of_deliver_eq_ok hd, follow_of_deliver_eq_ok hd]
        rw [follow_of_deliver_eq_ok hd] at h
        exact ih h

theorem fault_eq_none_of_earlier {earlier : List Signal} (h : (c.follow signals).fault = none)
    (hp : earlier <+: signals) : (c.follow earlier).fault = none := by
  obtain ⟨rest, rfl⟩ := hp
  cases hf : (c.follow earlier).fault with
  | none => rfl
  | some e => exact nomatch h.symm.trans (follow_append_of_fault hf rest).2

/-- A stream fails at the first delivery that the cache cannot go on with. -/
theorem exists_failing (h : (c.follow signals).fault = some e) :
    ∃ seen d rest, signals = seen ++ .handed d :: rest ∧ (c.follow seen).fault = none ∧
      (c.follow seen).cache.tip.Refuses d e ∧
        (c.follow signals).cache = (c.follow seen).cache.stop (some e) := by
  induction signals generalizing c with
  | nil => exact nomatch h
  | cons s signals ih =>
    cases s with
    | pause =>
      obtain ⟨seen, d, rest, rfl, hseen, hrefuses, hcache⟩ := ih h
      exact ⟨.pause :: seen, d, rest, rfl, hseen, hrefuses, hcache⟩
    | handed d =>
      cases hd : c.deliver d with
      | error fault =>
        rw [follow_of_deliver_eq_error hd] at h ⊢
        obtain rfl := Option.some.inj h
        exact ⟨[], d, signals, rfl, rfl, deliver_eq_error_iff.1 hd, rfl⟩
      | ok next =>
        rw [follow_of_deliver_eq_ok hd] at h ⊢
        obtain ⟨seen, d', rest, rfl, hseen, hrefuses, hcache⟩ := ih h
        refine ⟨.handed d :: seen, d', rest, rfl, ?_⟩
        rw [follow_of_deliver_eq_ok hd]
        exact ⟨hseen, hrefuses, hcache⟩

/-- The draft is what all responses have led to. -/
theorem tip_follow (h : (c.follow signals).fault = none) :
    c.tip.applyAll (signals.filterMap Signal.response?) = .ok (c.follow signals).cache.tip := by
  induction signals generalizing c with
  | nil => rfl
  | cons s signals ih =>
    cases s with
    | pause =>
      rw [← tip_flush]
      exact ih h
    | handed d =>
      cases hd : c.deliver d with
      | error e =>
        rw [follow_of_deliver_eq_error hd] at h
        exact nomatch h
      | ok next =>
        rw [follow_of_deliver_eq_ok hd] at h ⊢
        cases d with
        | failure f => exact nomatch hd
        | response r =>
          obtain ⟨s, hs, rfl⟩ := deliver_response_eq_ok_iff.1 hd
          exact (Snapshot.applyAll_cons hs _).trans (ih h)

/-- What is published is what the responses up to the last pause have led to. -/
theorem snapshot_follow_cases (h : (c.follow signals).fault = none) :
    (Signal.complete signals = [] → (c.follow signals).cache.snapshot = c.snapshot) ∧
      (Signal.complete signals ≠ [] → c.tip.applyAll ((Signal.complete signals).filterMap Signal.response?) =
        .ok (c.follow signals).cache.snapshot) := by
  induction signals generalizing c with
  | nil => exact ⟨fun _ => rfl, fun hne => absurd rfl hne⟩
  | cons s signals ih =>
    cases s with
    | pause =>
      obtain ⟨hnil, hne⟩ := ih h
      rw [snapshot_flush] at hnil
      rw [tip_flush] at hne
      refine ⟨fun he => (nomatch he), fun _ => ?_⟩
      show c.tip.applyAll ((Signal.complete signals).filterMap Signal.response?) =
        .ok (c.flush.follow signals).cache.snapshot
      -- after the last pause nothing more is published, whatever is handed to the cache
      by_cases hlast : Signal.complete signals = []
      · rw [hlast, hnil hlast]
        rfl
      · exact hne hlast
    | handed d =>
      cases hd : c.deliver d with
      | error e =>
        rw [follow_of_deliver_eq_error hd] at h
        exact nomatch h
      | ok next =>
        rw [follow_of_deliver_eq_ok hd] at h ⊢
        cases d with
        | failure f => exact nomatch hd
        | response r =>
          obtain ⟨s, hs, rfl⟩ := deliver_response_eq_ok_iff.1 hd
          obtain ⟨hnil, hne⟩ := ih h
          by_cases hlast : Signal.complete signals = []
          · exact ⟨fun _ => hnil hlast, fun hc => absurd (Signal.complete_handed_of_nil hlast) hc⟩
          · rw [Signal.complete_handed_of_ne_nil hlast]
            exact ⟨fun hc => (nomatch hc), fun _ => (Snapshot.applyAll_cons hs _).trans (hne hlast)⟩

theorem snapshot_follow (hd : c.draft = none) (h : (c.follow signals).fault = none) :
    c.snapshot.applyAll ((Signal.complete signals).filterMap Signal.response?) =
      .ok (c.follow signals).cache.snapshot := by
  obtain ⟨hnil, hne⟩ := snapshot_follow_cases h
  by_cases hlast : Signal.complete signals = []
  · rw [hlast, hnil hlast]
    rfl
  · rw [← tip_eq_snapshot hd]
    exact hne hlast

/-! ### One call -/

/-- A call of a cache, with the answer of the store.  A stream that is followed until somebody puts an end to
it ends behind its signals; a stream that is closed hands this over as a failure. -/
inductive Call where
  | load (reading : Except StoreError Reading)
  | watch (opening : Except StoreError (List Signal))

/-- The cache after it has followed a stream, and the error that has ended the stream, if one has. -/
def watch (c : Cache) (opening : Except StoreError (List Signal)) : Cache × Option CacheError :=
  match c.from?, opening with
  | .error e, _ => (c, some e)
  | .ok _, .error e => (c.stop (some (.store e)), some (.store e))
  | .ok _, .ok signals =>
    let followed := c.follow signals
    match followed.fault with
    | some e => (followed.cache, some e)
    | none => (followed.cache.flush.stop none, none)

/-- The cache after a call, and the error of the call, if it has failed. -/
def call (c : Cache) : Call → Cache × Option CacheError
  | .load reading =>
    match c.load reading with
    | .ok next => (next, none)
    | .error e => (c, some e)
  | .watch opening => c.watch opening

theorem watch_of_not_loaded (h : c.loaded = false) (opening : Except StoreError (List Signal)) :
    c.watch opening = (c, some .notLoaded) := by
  unfold watch from?
  rw [h]
  rfl

theorem from?_of_loaded (h : c.loaded = true) : c.from? = .ok (c.revision + 1) :=
  from?_eq_ok_iff.2 ⟨h, rfl⟩

theorem watch_error (h : c.loaded = true) (e : StoreError) :
    c.watch (.error e) = (c.stop (some (.store e)), some (.store e)) := by
  unfold watch
  rw [from?_of_loaded h]

theorem watch_of_fault (h : c.loaded = true) (hf : (c.follow signals).fault = some e) :
    c.watch (.ok signals) = ((c.follow signals).cache, some e) := by
  unfold watch
  simp only [from?_of_loaded h, hf]

theorem watch_of_no_fault (h : c.loaded = true) (hf : (c.follow signals).fault = none) :
    c.watch (.ok signals) = ((c.follow signals).cache.flush.stop none, none) := by
  unfold watch
  simp only [from?_of_loaded h, hf]

/-- A scripted stream is followed like any other. -/
theorem watch_opening (s : Script) (c : Cache) (log : List Note) (loadFault : Option CacheError) :
    c.watch s.opening =
      (if (s.follow c log loadFault).running then (s.follow c log loadFault).cache.stop none
        else (s.follow c log loadFault).cache, (s.follow c log loadFault).watchFault) := by
  cases hl : c.loaded with
  | false =>
    rw [watch_of_not_loaded hl]
    simp [Script.follow, from?, hl]
  | true =>
    obtain ⟨reading, signals, ending⟩ := s
    have hfrom := from?_of_loaded hl
    cases ending with
    | refused e =>
      rw [Script.opening, watch_error hl]
      simp [Script.follow, hfrom]
    | opened =>
      cases hf : (c.follow signals).fault with
      | none =>
        rw [Script.opening, watch_of_no_fault hl hf]
        simp [Script.follow, hfrom, hf]
      | some e =>
        rw [Script.opening, watch_of_fault hl hf]
        simp [Script.follow, hfrom, hf]
    | closed =>
      cases hf : (c.follow signals).fault with
      | none =>
        obtain ⟨hcache, hfault⟩ := follow_append hf [.handed (.failure .closed)]
        rw [Script.opening, watch_of_fault hl hfault, hcache]
        simp [Script.follow, hfrom, hf, follow, deliver]
      | some e =>
        obtain ⟨hcache, hfault⟩ := follow_append_of_fault hf [.handed (.failure .closed)]
        rw [Script.opening, watch_of_fault hl hfault, hcache]
        simp [Script.follow, hfrom, hf]

/-- Where a stream has failed, the published snapshot is that of the last complete batch, and so it was at
each moment before. -/
theorem snapshot_watch_of_fault (hl : c.loaded = true) (hd : c.draft = none)
    (h : (c.watch (.ok signals)).2 = some e) :
    ∃ seen d rest, signals = seen ++ .handed d :: rest ∧
      (∃ t, c.snapshot.applyAll (seen.filterMap Signal.response?) = .ok t ∧ t.Refuses d e) ∧
      (∀ earlier, earlier <+: seen →
        c.snapshot.applyAll ((Signal.complete earlier).filterMap Signal.response?) =
          .ok (c.follow earlier).cache.snapshot) ∧
      c.snapshot.applyAll ((Signal.complete seen).filterMap Signal.response?) =
        .ok (c.watch (.ok signals)).1.snapshot := by
  cases hf : (c.follow signals).fault with
  | none =>
    rw [watch_of_no_fault hl hf] at h
    exact nomatch h
  | some fault =>
    rw [watch_of_fault hl hf] at h ⊢
    obtain rfl := Option.some.inj h
    obtain ⟨seen, d, rest, rfl, hseen, hrefuses, hcache⟩ := exists_failing hf
    have htip := tip_follow hseen
    rw [tip_eq_snapshot hd] at htip
    refine ⟨seen, d, rest, rfl, ⟨_, htip, hrefuses⟩, fun earlier hp => ?_, ?_⟩
    · exact snapshot_follow hd (fault_eq_none_of_earlier hseen hp)
    · rw [hcache]
      exact snapshot_follow hd hseen

/-- Only a cache that is not loaded turns a stream down. -/
theorem watch_eq_notLoaded_iff {opening : Except StoreError (List Signal)} :
    (c.watch opening).2 = some .notLoaded ↔ c.loaded = false := by
  refine ⟨fun h => Bool.eq_false_iff.2 fun hl => ?_, fun h => by rw [watch_of_not_loaded h]⟩
  cases opening with
  | error e =>
    rw [watch_error hl] at h
    simp at h
  | ok signals =>
    cases hf : (c.follow signals).fault with
    | none =>
      rw [watch_of_no_fault hl hf] at h
      exact nomatch h
    | some e =>
      rw [watch_of_fault hl hf] at h
      obtain ⟨_, _, _, -, -, hrefuses, -⟩ := exists_failing hf
      exact hrefuses.ne_notLoaded (Option.some.inj h)

/-- Who waits for a later revision is told of the failure of the cache. -/
theorem ready?_eq_failed_iff {w : Wait} (hlt : c.revision < w.revision) :
    w.ready? c = some (.failed e) ↔ c.failure = some e := by
  unfold Wait.ready?
  rw [if_neg (Int.not_le.2 hlt)]
  cases c.failure with
  | none => cases w.cancelled <;> simp
  | some fault => simp

/-! ### All calls -/

/-- A load that has succeeded, or a stream that the cache was ready to follow. -/
def decides : Call × Option CacheError → Bool
  | (.load _, e) => e.isNone
  | (.watch _, e) => decide (e ≠ some .notLoaded)

/-- The last call that decides how the cache stands, if there is one. -/
def decision? (history : List (Call × Option CacheError)) : Option (Call × Option CacheError) :=
  (history.filter decides).getLast?

/-- Calls with these results, one after another, lead from an empty cache to this one. -/
inductive Called (l : Layout) : List (Call × Option CacheError) → Cache → Prop
  | empty : Called l [] (Cache.empty l)
  | step {history : List (Call × Option CacheError)} {c : Cache} (h : Called l history c) (a : Call) :
      Called l (history ++ [(a, (c.call a).2)]) (c.call a).1

/-- How a cache stands after calls with these results. -/
structure Stands (history : List (Call × Option CacheError)) (c : Cache) : Prop where
  draft : c.draft = none
  loaded : c.loaded = true ↔ ∃ reading, decision? history = some (.load reading, none)
  failure : ∀ e, c.failure = some e ↔ ∃ opening, decision? history = some (.watch opening, some e)

variable {history : List (Call × Option CacheError)} {a : Call} {fault : Option CacheError}

theorem decision?_append_of_decides (h : decides (a, fault) = true) :
    decision? (history ++ [(a, fault)]) = some (a, fault) := by
  unfold decision?
  rw [List.filter_append, List.filter_cons_of_pos h, List.filter_nil, List.getLast?_concat]

theorem decision?_append_of_not_decides (h : decides (a, fault) = false) :
    decision? (history ++ [(a, fault)]) = decision? history := by
  unfold decision?
  rw [List.filter_append, List.filter_cons_of_neg (by simpa using h), List.filter_nil, List.append_nil]

namespace Stands

theorem empty (l : Layout) : Stands [] (Cache.empty l) where
  draft := rfl
  loaded := ⟨fun h => (nomatch h), fun ⟨_, h⟩ => (nomatch h)⟩
  failure := fun _ => ⟨fun h => (nomatch h), fun ⟨_, h⟩ => (nomatch h)⟩

/-- A call that decides nothing has changed nothing. -/
theorem frame (h : Stands history c) (hd : decides (a, fault) = false) :
    Stands (history ++ [(a, fault)]) c := by
  have hsame : decision? (history ++ [(a, fault)]) = decision? history :=
    decision?_append_of_not_decides hd
  exact ⟨h.draft, hsame ▸ h.loaded, hsame ▸ h.failure⟩

theorem of_load {reading : Except StoreError Reading} (hdraft : c.draft = none)
    (hloaded : c.loaded = true) (hfailure : c.failure = none) :
    Stands (history ++ [(.load reading, none)]) c := by
  refine ⟨hdraft, ?_, fun e => ?_⟩
  · rw [decision?_append_of_decides rfl]
    exact ⟨fun _ => ⟨reading, rfl⟩, fun _ => hloaded⟩
  · rw [decision?_append_of_decides rfl, hfailure]
    exact ⟨fun he => (nomatch he), fun ⟨_, he⟩ => (nomatch he)⟩

theorem of_watch {opening : Except StoreError (List Signal)} (hdraft : c.draft = none)
    (hloaded : c.loaded = false) (hfailure : c.failure = fault) (hne : fault ≠ some .notLoaded) :
    Stands (history ++ [(.watch opening, fault)]) c := by
  have hdecides : decides (.watch opening, fault) = true := decide_eq_true hne
  refine ⟨hdraft, ?_, fun e => ?_⟩
  · rw [decision?_append_of_decides hdecides, hloaded]
    exact ⟨fun he => (nomatch he), fun ⟨_, he⟩ => (nomatch he)⟩
  · rw [decision?_append_of_decides hdecides, hfailure]
    exact ⟨fun he => ⟨opening, by rw [he]⟩, fun ⟨_, he⟩ => (Prod.mk.inj (Option.some.inj he)).2⟩

/-- A loaded cache has not failed. -/
theorem failure_eq_none (h : Stands history c) (hl : c.loaded = true) : c.failure = none := by
  obtain ⟨reading, hdecision⟩ := h.loaded.1 hl
  cases hf : c.failure with
  | none => rfl
  | some e =>
    obtain ⟨opening, he⟩ := (h.failure e).1 hf
    exact nomatch hdecision.symm.trans he

theorem load (h : Stands history c) (reading : Except StoreError Reading) :
    Stands (history ++ [(.load reading, (c.call (.load reading)).2)]) (c.call (.load reading)).1 := by
  unfold call
  dsimp only
  cases hl : c.load reading with
  | error e => exact h.frame rfl
  | ok next =>
    obtain ⟨r, s, -, -, rfl⟩ := load_eq_ok_iff.1 hl
    exact of_load h.draft rfl rfl

theorem watch (h : Stands history c) (opening : Except StoreError (List Signal)) :
    Stands (history ++ [(.watch opening, (c.watch opening).2)]) (c.watch opening).1 := by
  cases hl : c.loaded with
  | false =>
    rw [watch_of_not_loaded hl]
    exact h.frame rfl
  | true =>
    cases opening with
    | error e =>
      rw [watch_error hl]
      exact of_watch rfl rfl rfl (by simp)
    | ok signals =>
      cases hf : (c.follow signals).fault with
      | none =>
        rw [watch_of_no_fault hl hf]
        refine of_watch rfl rfl ?_ (by simp)
        show (c.follow signals).cache.flush.failure = none
        rw [failure_flush, failure_follow hf, h.failure_eq_none hl]
      | some e =>
        rw [watch_of_fault hl hf]
        obtain ⟨seen, d, rest, -, -, hrefuses, hcache⟩ := exists_failing hf
        refine of_watch ?_ ?_ (failure_of_follow hf) fun he => hrefuses.ne_notLoaded (Option.some.inj he)
        · rw [hcache]
          rfl
        · rw [hcache]
          rfl

end Stands

/-- The results of all calls say how the cache stands. -/
theorem Called.stands {l : Layout} (h : Called l history c) : Stands history c := by
  induction h with
  | empty => exact Stands.empty l
  | step _ a ih =>
    cases a with
    | load reading => exact ih.load reading
    | watch opening => exact ih.watch opening

/-- Whatever a cache has been called for: a load that fails changes nothing.  If a stream that it follows fails,
then what it shows, at each moment up to then and afterwards, is what the responses up to the last pause have led
to, which the failing response and those since that pause have no part in.  Once a stream has ended, the cache
follows no other until it has been loaded again, and being asked to changes nothing.  Who waits for a later
revision is told of the error by which the last stream has ended, unless it has ended without one or the cache
has been loaded since. -/
theorem Called.atomic {l : Layout} (h : Called l history c) :
    (∀ reading e, (c.call (.load reading)).2 = some e → (c.call (.load reading)).1 = c) ∧
      (∀ signals e, c.loaded = true → (c.call (.watch (.ok signals))).2 = some e →
        ∃ seen d rest, signals = seen ++ .handed d :: rest ∧
          (∃ t, c.snapshot.applyAll (seen.filterMap Signal.response?) = .ok t ∧ t.Refuses d e) ∧
          (∀ earlier, earlier <+: seen →
            c.snapshot.applyAll ((Signal.complete earlier).filterMap Signal.response?) =
              .ok (c.follow earlier).cache.snapshot) ∧
          c.snapshot.applyAll ((Signal.complete seen).filterMap Signal.response?) =
            .ok (c.call (.watch (.ok signals))).1.snapshot) ∧
      (∀ e, c.loaded = true → (c.call (.watch (.error e))).1.snapshot = c.snapshot ∧
        (c.call (.watch (.error e))).2 = some (.store e)) ∧
      (∀ opening, (c.call (.watch opening)).2 = some .notLoaded ↔
        ∀ reading, decision? history ≠ some (.load reading, none)) ∧
      (∀ opening, (c.call (.watch opening)).2 = some .notLoaded → (c.call (.watch opening)).1 = c) ∧
      ∀ (w : Wait) (e : CacheError), c.revision < w.revision →
        (w.ready? c = some (.failed e) ↔ ∃ opening, decision? history = some (.watch opening, some e)) := by
  have hstands := h.stands
  refine ⟨fun reading e he => ?_, fun signals e hl he => ?_, fun e hl => ?_, fun opening => ?_,
    fun opening he => ?_, fun w e hlt => ?_⟩
  · cases hload : c.load reading with
    | ok next =>
      simp only [call, hload] at he
      exact nomatch he
    | error fault => simp only [call, hload]
  · exact snapshot_watch_of_fault hl hstands.draft he
  · show (c.watch (.error e)).1.snapshot = c.snapshot ∧ (c.watch (.error e)).2 = _
    rw [watch_error hl]
    exact ⟨rfl, rfl⟩
  · refine watch_eq_notLoaded_iff.trans ?_
    rw [← Bool.not_eq_true, hstands.loaded, not_exists]
  · have hl := watch_eq_notLoaded_iff.1 he
    exact congrArg Prod.fst (watch_of_not_loaded hl opening)
  · exact (ready?_eq_failed_iff hlt).trans (hstands.failure e)

/-- An item is put, and at the next revision it is deleted and something else is said to happen. -/
def stumble : List Signal :=
  [.handed (.response ⟨2, [.put ⟨⟨Item.encode 1, 2, 2⟩, "/r/items/job"⟩]⟩), .pause,
    .handed (.response ⟨3, [.delete "/r/items/job" 3]⟩), .handed (.response ⟨3, []⟩), .pause]

/-- A cache that has been loaded before there was anything. -/
def blank : Cache :=
  ((Cache.empty ⟨"/r"⟩).call (.load (.ok ⟨1, []⟩))).1

/-- The same cache after it has stumbled. -/
def stumbled : Cache :=
  (blank.call (.watch (.ok stumble))).1

/-- The first batch of this stream is published and the second is not.  After that the cache follows no other
stream, and who waits for the next revision is told of the gap. -/
theorem Called.atomic_of_stumble :
    Called ⟨"/r"⟩ [(.load (.ok ⟨1, []⟩), none)] blank ∧ blank.loaded = true ∧
      blank.call (.watch (.ok stumble)) = (stumbled, some (.gap 3 3)) ∧ stumbled.revision = 2 ∧
      stumbled.snapshot.size = 1 ∧
      (∃ seen d rest, stumble = seen ++ .handed d :: rest ∧
        (∃ t, blank.snapshot.applyAll (seen.filterMap Signal.response?) = .ok t ∧ t.Refuses d (.gap 3 3)) ∧
        blank.snapshot.applyAll ((Signal.complete seen).filterMap Signal.response?) = .ok stumbled.snapshot) ∧
      stumbled.call (.watch (.ok [])) = (stumbled, some .notLoaded) ∧
      (Wait.mk 3 false).ready? stumbled = some (.failed (.gap 3 3)) := by
  have hloaded : Called ⟨"/r"⟩ [(.load (.ok ⟨1, []⟩), none)] blank := Called.empty.step (.load (.ok ⟨1, []⟩))
  have hfault : (blank.call (.watch (.ok stumble))).2 = some (.gap 3 3) := by decide +kernel
  have hended := hloaded.step (.watch (.ok stumble))
  rw [hfault] at hended
  obtain ⟨seen, d, rest, hsignals, hrefuses, -, hsnapshot⟩ := hloaded.atomic.2.1 stumble _ rfl hfault
  obtain ⟨-, -, -, hturned, hsame, hwait⟩ := hended.atomic
  have hnotLoaded : (stumbled.call (.watch (.ok []))).2 = some .notLoaded :=
    (hturned (.ok [])).2 fun reading he => by cases he
  have hrevision : stumbled.revision = 2 := by decide +kernel
  refine ⟨hloaded, rfl, Prod.ext rfl hfault, hrevision, by decide +kernel,
    ⟨seen, d, rest, hsignals, hrefuses, hsnapshot⟩, Prod.ext (hsame _ hnotLoaded) hnotLoaded, ?_⟩
  refine (hwait ⟨3, false⟩ _ ?_).2 ⟨_, rfl⟩
  show stumbled.revision < 3
  rw [hrevision]
  decide

end Cache

end Allotment
