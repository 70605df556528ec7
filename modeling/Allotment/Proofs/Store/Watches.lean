import Allotment.Proofs.Store.Recall
import Allotment.Store.Hub

/-!
# What a watch is given

A watch follows the chronicle of its store from a position if what waits in it is what has happened in its
scope since then (`Watch.Follows`).  A new watch follows from just before the revision it asked for
(`Hub.follows_of_watch`), commits keep it following (`Watch.Follows.publish`), and taking the next response
moves its position to the revision of that response (`Watch.Follows.next`).  A watch that has been closed
is only given the beginning of what happens.  The stream of one reader goes on whatever is done to the store
and to other watches (`Hub.Serves`).
-/

namespace Allotment

namespace Hub

/-- The hub after the responses in a watch have been taken down to `rest`. -/
def leave (h : Hub) (id : WatchId) (rest : List Response) : Hub :=
  { h with
    watches := h.watches.map fun w => if w.1 == id then (w.1, { w.2 with pending := rest }) else w }

/-- The numbers of all watches are below the next one. -/
def IsNumbered (h : Hub) : Prop :=
  ∀ id ∈ h.watches.map (·.1), id < h.next

variable {h h' : Hub} {id id' : WatchId} {rest : List Response}

theorem take_eq_leave (h : Hub) (id : WatchId) : h.take id = h.leave id [] :=
  rfl

/-! ### Finding a watch -/

theorem lookup_map (f : WatchId → Watch → Watch) (ws : List (WatchId × Watch)) (id : WatchId) :
    (ws.map fun w => (w.1, f w.1 w.2)).lookup id = (ws.lookup id).map (f id) := by
  induction ws with
  | nil => rfl
  | cons w ws ih =>
    obtain ⟨i, w⟩ := w
    rw [List.map_cons, List.lookup_cons, List.lookup_cons, ih]
    by_cases hi : id = i
    · simp [hi]
    · simp [beq_false_of_ne hi]

theorem lookup_filter_ne (ws : List (WatchId × Watch)) (id id' : WatchId) :
    (ws.filter (·.1 != id)).lookup id' = if id' = id then none else ws.lookup id' := by
  induction ws with
  | nil => simp
  | cons w ws ih =>
    obtain ⟨i, w⟩ := w
    by_cases hi : i = id
    · subst hi
      rw [List.filter_cons_of_neg (by simp), ih, List.lookup_cons]
      by_cases hid : id' = i
      · simp [hid]
      · simp [hid, beq_false_of_ne hid]
    · rw [List.filter_cons_of_pos (by simpa using hi), List.lookup_cons, List.lookup_cons, ih]
      by_cases hid : id' = i
      · simp [hid, hi]
      · simp [beq_false_of_ne hid]

theorem watch?_mapWatches (h : Hub) (f : Watch → Watch) (id : WatchId) :
    (h.mapWatches f).watch? id = (h.watch? id).map f :=
  lookup_map (fun _ => f) h.watches id

theorem watches_leave (h : Hub) (id : WatchId) (rest : List Response) :
    (h.leave id rest).watches =
      h.watches.map fun w => (w.1, if w.1 == id then { w.2 with pending := rest } else w.2) := by
  unfold leave
  apply List.map_congr_left
  intro w _
  split <;> rfl

theorem watch?_leave (h : Hub) (id id' : WatchId) (rest : List Response) :
    (h.leave id rest).watch? id' =
      (h.watch? id').map fun w => if id' == id then { w with pending := rest } else w := by
  unfold watch?
  rw [watches_leave]
  exact lookup_map (fun i w => if i == id then { w with pending := rest } else w) h.watches id'

theorem watch?_leave_self {w : Watch} (hw : h.watch? id = some w) (rest : List Response) :
    (h.leave id rest).watch? id = some { w with pending := rest } := by
  rw [watch?_leave, hw]
  simp

theorem watch?_leave_of_ne (hne : id' ≠ id) : (h.leave id rest).watch? id' = h.watch? id' := by
  rw [watch?_leave]
  simp [hne]

theorem leave_leave (h : Hub) (id : WatchId) (rest rest' : List Response) :
    (h.leave id rest).leave id rest' = h.leave id rest' := by
  have hw : ((h.leave id rest).leave id rest').watches = (h.leave id rest').watches := by
    rw [watches_leave, watches_leave, watches_leave, List.map_map]
    apply List.map_congr_left
    intro w _
    by_cases hi : w.1 = id <;> simp [hi]
  exact congrArg (fun ws => ({ h with watches := ws } : Hub)) hw

theorem watch?_drop (h : Hub) (id id' : WatchId) :
    (h.drop id).watch? id' = if id' = id then none else h.watch? id' :=
  lookup_filter_ne h.watches id id'

theorem watch?_drop_of_ne (hne : id' ≠ id) : (h.drop id).watch? id' = h.watch? id' := by
  rw [watch?_drop, if_neg hne]

/-- A commit gives its response to every watch. -/
theorem of_commit {t : Transaction} {reply : Reply} (hc : h.commit t = .ok (h', reply)) :
    h.store.commit t = .ok (h'.store, reply) ∧ h'.next = h.next ∧
      h'.watches = h.watches.map fun w =>
        (w.1, match h.store.response? t with
          | some r => w.2.publish r
          | none => w.2) := by
  unfold commit at hc
  cases hs : h.store.commit t with
  | error e => simp [hs, bind, Except.bind] at hc
  | ok answer =>
    obtain ⟨s, reply'⟩ := answer
    simp only [hs, bind, Except.bind, pure, Except.pure, Except.ok.injEq, Prod.mk.injEq] at hc
    obtain ⟨rfl, rfl⟩ := hc
    cases h.store.response? t with
    | some r => exact ⟨rfl, rfl, rfl⟩
    | none => exact ⟨rfl, rfl, by simp⟩

theorem watch?_of_commit {t : Transaction} {reply : Reply} (hc : h.commit t = .ok (h', reply))
    (id : WatchId) :
    h'.watch? id = (h.watch? id).map fun w =>
      match h.store.response? t with
      | some r => w.publish r
      | none => w := by
  unfold watch?
  rw [(of_commit hc).2.2]
  exact lookup_map (fun _ w => match h.store.response? t with
    | some r => w.publish r
    | none => w) h.watches id

/-- A watch that is not refused is the only new one, and starts with what the store remembers. -/
theorem watch_eq_ok_iff {scope : String} {revision : Int} :
    h.watch scope revision = .ok (h', id) ↔
      h.store.available = true ∧ ¬ (0 < h.store.compacted ∧ revision ≤ h.store.compacted) ∧
        id = h.next ∧
          h' = { h with
            watches := h.watches ++ [(h.next, ⟨scope, h.store.since scope revision, false⟩)]
            next := h.next + 1 } := by
  unfold watch Store.guardAvailable
  by_cases ha : h.store.available
  · by_cases hc : 0 < h.store.compacted ∧ revision ≤ h.store.compacted
    · simp [ha, hc, bind, Except.bind]
    · simp only [ha, hc, ↓reduceIte, bind, Except.bind, pure, Except.pure, Except.ok.injEq,
        Prod.mk.injEq, not_false_eq_true, true_and]
      constructor
      · rintro ⟨rfl, rfl⟩
        exact ⟨rfl, rfl⟩
      · rintro ⟨rfl, rfl⟩
        exact ⟨rfl, rfl⟩
  · simp [ha, bind, Except.bind]

theorem store_of_watch {scope : String} {revision : Int} (hw : h.watch scope revision = .ok (h', id)) :
    h'.store = h.store := by
  obtain ⟨-, -, -, rfl⟩ := watch_eq_ok_iff.1 hw
  rfl

namespace IsNumbered

theorem empty : IsNumbered Hub.empty :=
  fun _ hid => nomatch hid

/-- Whatever keeps the numbers keeps them in order. -/
theorem congr (hh : h.IsNumbered) (hids : h'.watches.map (·.1) = h.watches.map (·.1))
    (hnext : h'.next = h.next) : h'.IsNumbered := by
  unfold IsNumbered
  rw [hids, hnext]
  exact hh

theorem mapWatches (hh : h.IsNumbered) (f : Watch → Watch) : (h.mapWatches f).IsNumbered :=
  hh.congr (by simp [Hub.mapWatches, Function.comp_def]) rfl

theorem leave (hh : h.IsNumbered) (id : WatchId) (rest : List Response) :
    (h.leave id rest).IsNumbered :=
  hh.congr (by rw [watches_leave]; simp [Function.comp_def]) rfl

theorem drop (hh : h.IsNumbered) (id : WatchId) : (h.drop id).IsNumbered := by
  intro i hi
  obtain ⟨w, hw, rfl⟩ := List.mem_map.1 hi
  exact hh _ (List.mem_map.2 ⟨w, (List.mem_filter.1 hw).1, rfl⟩)

theorem commit {t : Transaction} {reply : Reply} (hh : h.IsNumbered)
    (hc : h.commit t = .ok (h', reply)) : h'.IsNumbered := by
  obtain ⟨-, hnext, hwatches⟩ := of_commit hc
  exact hh.congr (by rw [hwatches]; simp [Function.comp_def]) hnext

theorem watch {scope : String} {revision : Int} (hh : h.IsNumbered)
    (hw : h.watch scope revision = .ok (h', id)) : h'.IsNumbered := by
  obtain ⟨-, -, -, rfl⟩ := watch_eq_ok_iff.1 hw
  intro i hi
  rw [List.map_append, List.mem_append] at hi
  show i < h.next + 1
  rcases hi with hi | hi
  · exact Nat.lt_succ_of_lt (hh i hi)
  · rw [List.mem_singleton.1 hi]
    exact Nat.lt_succ_self _

theorem lt_next {w : Watch} (hh : h.IsNumbered) (hw : h.watch? id = some w) : id < h.next := by
  obtain ⟨before, later, hws, -⟩ := List.lookup_eq_some_iff.1 hw
  exact hh id (by rw [hws]; simp)

theorem watch?_of_watch {scope : String} {revision : Int} (hh : h.IsNumbered)
    (hw : h.watch scope revision = .ok (h', id)) :
    h'.watch? id = some ⟨scope, h.store.since scope revision, false⟩ ∧
      ∀ id' w, h.watch? id' = some w → h'.watch? id' = some w := by
  obtain ⟨-, -, rfl, rfl⟩ := watch_eq_ok_iff.1 hw
  have hnew : h.watch? h.next = none := by
    cases hn : h.watch? h.next with
    | none => rfl
    | some w => exact absurd (hh.lt_next hn) (Nat.lt_irrefl _)
  unfold watch? at hnew ⊢
  refine ⟨?_, fun id' w hw' => ?_⟩
  · simp [List.lookup_append, hnew]
  · simp [List.lookup_append, hw']

end IsNumbered

end Hub

/-! ### Following a chronicle -/

namespace Watch

/-- What waits in the watch is what has happened in its scope after a revision, or, if the watch is
closed, the beginning of that. -/
def Follows (w : Watch) (log : Chronicle) (position : Int) : Prop :=
  ∃ late, log.since w.scope position = w.pending ++ late ∧ (w.closed = false → late = [])

@[simp]
theorem scope_publish (w : Watch) (r : Response) : (w.publish r).scope = w.scope := by
  unfold publish
  split <;> rfl

@[simp]
theorem closed_publish (w : Watch) (r : Response) : (w.publish r).closed = w.closed := by
  unfold publish
  split <;> rfl

namespace Follows

variable {w : Watch} {log : Chronicle} {position : Int}

theorem since_eq (h : w.Follows log position) (hw : w.closed = false) :
    log.since w.scope position = w.pending := by
  obtain ⟨late, hl, hclosed⟩ := h
  rw [hl, hclosed hw, List.append_nil]

theorem publish (h : w.Follows log position) {r : Response} (hr : position < r.revision) :
    (w.publish r).Follows (log ++ [r]) position := by
  obtain ⟨late, hl, hclosed⟩ := h
  unfold Watch.publish
  cases hw : w.closed with
  | true =>
    refine ⟨late ++ (r.restrict? w.scope).toList, ?_, fun hopen => ?_⟩
    · show Chronicle.since (log ++ [r]) w.scope position = w.pending ++ _
      rw [Chronicle.since_append_singleton log w.scope hr, hl, List.append_assoc]
    · exact absurd (hw.symm.trans hopen) (by decide)
  | false =>
    refine ⟨[], ?_, fun _ => rfl⟩
    show Chronicle.since (log ++ [r]) w.scope position =
      (w.pending ++ (r.restrict? w.scope).toList) ++ []
    rw [Chronicle.since_append_singleton log w.scope hr, hl, hclosed hw, List.append_nil,
      List.append_nil]

theorem close (h : w.Follows log position) : { w with closed := true }.Follows log position := by
  obtain ⟨late, hl, -⟩ := h
  exact ⟨late, hl, fun hopen => nomatch hopen⟩

/-- Taking the next response moves the position to its revision. -/
theorem next (h : w.Follows log position) (hlog : log.IsOrdered) {r : Response}
    {rest : List Response} (hp : w.pending = r :: rest) :
    { w with pending := rest }.Follows log r.revision := by
  obtain ⟨late, hl, hclosed⟩ := h
  rw [hp, List.cons_append] at hl
  exact ⟨late, (hlog.next_of_since_eq_cons hl).2.1, hclosed⟩

end Follows

end Watch

/-- A new watch follows from just before the revision it has asked for. -/
theorem Hub.follows_of_watch {h h' : Hub} {log : Chronicle} {scope : String} {revision : Int}
    {id : WatchId} (hlog : log.Remembers h.store) (hh : h.IsNumbered)
    (hw : h.watch scope revision = .ok (h', id)) :
    ∃ w, h'.watch? id = some w ∧ w.scope = scope ∧ w.closed = false ∧
      w.Follows log (revision - 1) := by
  obtain ⟨-, hc, -, -⟩ := watch_eq_ok_iff.1 hw
  refine ⟨_, (hh.watch?_of_watch hw).1, rfl, rfl, [], ?_, fun _ => rfl⟩
  rw [List.append_nil]
  exact (hlog.since_eq scope hc).symm

/-! ### Streams of one reader -/

namespace Hub

/-- The watch of a stream, if there is one, follows the chronicle in a scope from a position on. -/
def Serves (h : Hub) (log : Chronicle) (stream : Option WatchId) (scope : String) (position : Int) :
    Prop :=
  ∀ id, stream = some id → ∃ w, h.watch? id = some w ∧ w.scope = scope ∧ w.Follows log position

namespace Serves

variable {h h' : Hub} {log : Chronicle} {stream : Option WatchId} {scope : String} {position : Int}
  {id : WatchId}

theorem of_none (h : Hub) (log : Chronicle) (scope : String) (position : Int) :
    h.Serves log none scope position :=
  fun _ hid => nomatch hid

theorem frame (hs : h.Serves log stream scope position)
    (hw : ∀ id, stream = some id → h'.watch? id = h.watch? id) :
    h'.Serves log stream scope position := fun id hid => by
  rw [hw id hid]
  exact hs id hid

theorem commit (hs : h.Serves log stream scope position) {t : Transaction} {reply : Reply}
    (hc : h.commit t = .ok (h', reply)) (hle : position ≤ h.store.revision) :
    h'.Serves (log ++ (h.store.response? t).toList) stream scope position := fun id hid => by
  obtain ⟨w, hw, hscope, hfollows⟩ := hs id hid
  rw [watch?_of_commit hc id, hw]
  cases hr : h.store.response? t with
  | none => exact ⟨w, rfl, hscope, by simpa using hfollows⟩
  | some r =>
    have hrev : r.revision = h.store.revision + 1 := by
      obtain ⟨-, -, rfl⟩ := Store.response?_eq_some_iff.1 hr
      rfl
    exact ⟨w.publish r, rfl, (w.scope_publish r).trans hscope, hfollows.publish (by omega)⟩

theorem closeWatches (hs : h.Serves log stream scope position) :
    h.closeWatches.Serves log stream scope position := fun id hid => by
  obtain ⟨w, hw, hscope, hfollows⟩ := hs id hid
  refine ⟨{ w with closed := true }, ?_, hscope, hfollows.close⟩
  unfold Hub.closeWatches
  rw [watch?_mapWatches, hw]
  rfl

/-- A watch that somebody else opens changes nothing. -/
theorem watch?_of_watch (hs : h.Serves log stream scope position) (hh : h.IsNumbered) {scope' : String}
    {revision : Int} {other : WatchId} (hw : h.watch scope' revision = .ok (h', other))
    (hid : stream = some id) : h'.watch? id = h.watch? id := by
  obtain ⟨w, hwatch, -, -⟩ := hs id hid
  rw [hwatch]
  exact (hh.watch?_of_watch hw).2 id w hwatch

/-- A new stream starts just before the revision that it has asked for. -/
theorem of_watch (hlog : log.Remembers h.store) (hh : h.IsNumbered) {revision : Int}
    (hw : h.watch scope revision = .ok (h', id)) :
    h'.Serves log (some id) scope (revision - 1) := fun id' hid => by
  obtain rfl := Option.some.inj hid
  obtain ⟨w, hwatch, hscope, -, hfollows⟩ := follows_of_watch hlog hh hw
  exact ⟨w, hwatch, hscope, hfollows⟩

/-- The next response of a stream is the next that has happened in its scope. -/
theorem exists_since_eq (hs : h.Serves log (some id) scope position) {w : Watch} {r : Response}
    {rest : List Response} (hw : h.watch? id = some w) (hp : w.pending = r :: rest) :
    ∃ late, log.since scope position = r :: (rest ++ late) := by
  obtain ⟨w', hw', rfl, late, hlate, -⟩ := hs id rfl
  obtain rfl : w = w' := Option.some.inj (hw.symm.trans hw')
  rw [hp] at hlate
  exact ⟨late, hlate⟩

/-- Taking the next response of a stream moves it to the revision of that response. -/
theorem next (hs : h.Serves log (some id) scope position) (hlog : log.IsOrdered) {w : Watch}
    {r : Response} {rest : List Response} (hw : h.watch? id = some w) (hp : w.pending = r :: rest) :
    (h.leave id rest).Serves log (some id) scope r.revision := fun id' hid => by
  obtain rfl := Option.some.inj hid
  obtain ⟨w', hw', hscope, hfollows⟩ := hs id rfl
  obtain rfl : w = w' := Option.some.inj (hw.symm.trans hw')
  exact ⟨{ w with pending := rest }, watch?_leave_self hw rest, hscope, hfollows.next hlog hp⟩

/-- What waits in a stream has been committed by the store. -/
theorem le_revision_of_pending (hs : h.Serves log (some id) scope position)
    (hlog : log.Remembers h.store) {w : Watch} (hw : h.watch? id = some w) {r : Response}
    (hr : r ∈ w.pending) : r.revision ≤ h.store.revision := by
  obtain ⟨w', hw', -, late, hlate, -⟩ := hs id rfl
  obtain rfl : w = w' := Option.some.inj (hw.symm.trans hw')
  have hmem : r ∈ log.since w.scope position := by
    rw [hlate]
    exact List.mem_append_left _ hr
  obtain ⟨r', hr', hrestrict⟩ := List.mem_filterMap.1 hmem
  rw [Response.eq_of_restrict? hrestrict]
  exact (hlog.within r' (List.mem_filter.1 hr').1).2

end Serves

end Hub

end Allotment
