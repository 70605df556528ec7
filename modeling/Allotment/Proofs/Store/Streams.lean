import Allotment.Proofs.Store.Runs

/-!
# What a stream delivers

A watch is first given what the store still remembers from a revision on, and then each response when it is
committed.  Between them nothing is lost and nothing is given twice: while the watch is open, what has been
taken from it and what waits in it are together what has happened in its scope from that revision on
(`Hub.Streams`), and every move keeps it so (`Hub.Streams.play`), compactions included, since what waits in a
watch is not forgotten with the history of the store.  `Hub.given_of_run` reads this off for a whole run.
-/

namespace Allotment

namespace Response

theorem restrict?_eq_some_iff {scope : String} {r x : Response} :
    r.restrict? scope = some x ↔
      x.revision = r.revision ∧ x.changes = r.changes.filter (fun e => e.key.startsWith scope) ∧
        x.changes ≠ [] := by
  obtain ⟨revision, changes⟩ := x
  unfold restrict?
  cases r.changes.filter fun e => e.key.startsWith scope with
  | nil => simp
  | cons e es =>
    simp only [Option.some.injEq, Response.mk.injEq, eq_comm, ne_eq]
    constructor
    · rintro ⟨rfl, rfl⟩
      exact ⟨rfl, rfl, List.cons_ne_nil _ _⟩
    · rintro ⟨rfl, rfl, -⟩
      exact ⟨rfl, rfl⟩

end Response

namespace Chronicle

variable {log : Chronicle} {scope : String} {revision : Int}

theorem mem_since_iff {x : Response} :
    x ∈ log.since scope revision ↔
      ∃ r ∈ log, revision < r.revision ∧ x.revision = r.revision ∧
        x.changes = r.changes.filter (fun e => e.key.startsWith scope) ∧ x.changes ≠ [] := by
  unfold since after
  simp only [List.mem_filterMap, List.mem_filter, decide_eq_true_eq, Response.restrict?_eq_some_iff,
    and_assoc]

theorem IsOrdered.pairwise_since (h : IsOrdered log) (scope : String) (revision : Int) :
    (log.since scope revision).Pairwise fun a b => a.revision < b.revision := by
  unfold since after
  refine List.Pairwise.filterMap _ (fun a b hab x hx y hy => ?_)
    (h.inOrder.sublist List.filter_sublist)
  rw [(Response.restrict?_eq_some_iff.1 hx).1, (Response.restrict?_eq_some_iff.1 hy).1]
  exact hab

end Chronicle

namespace Hub

/-- The move neither closes a watch nor gives it up. -/
def Move.keeps (id : WatchId) : Move → Bool
  | .drop id' => id' != id
  | .closeWatches => false
  | _ => true

/-- What a move takes from a watch. -/
def taken (h : Hub) (id : WatchId) : Move → List Response
  | .take id' count => if id' = id then (h.pending id).take count else []
  | _ => []

/-- What some moves take from a watch, in turn. -/
def takenIn (h : Hub) (id : WatchId) : List Move → List Response
  | [] => []
  | move :: moves => h.taken id move ++ (h.play move).takenIn id moves

/-- What a watch has delivered in some moves: what has been taken from it, and then what waits in it. -/
def given (h : Hub) (id : WatchId) (moves : List Move) : List Response :=
  h.takenIn id moves ++ (h.playAll moves).pending id

theorem pending_eq {h : Hub} {id : WatchId} {w : Watch} (hw : h.watch? id = some w) :
    h.pending id = w.pending := by
  simp [pending, hw]

/-- An open watch whose responses, those that have been taken from it and those that wait in it, are what has
happened in its scope after a revision. -/
structure Streams (log : Chronicle) (h : Hub) (id : WatchId) (scope : String) (position : Int)
    (received : List Response) : Prop where
  reached : Chronicle.Reached log h.store
  numbered : h.IsNumbered
  behind : position ≤ h.store.revision
  watching : ∃ w, h.watch? id = some w ∧ w.scope = scope ∧ w.closed = false ∧
    log.since scope position = received ++ w.pending

namespace Streams

variable {h h' : Hub} {log : Chronicle} {id : WatchId} {scope : String} {position : Int}
  {received : List Response}

/-- A new watch has delivered what it starts with. -/
theorem of_watch {revision : Int} (hlog : Chronicle.Reached log h.store) (hh : h.IsNumbered)
    (hw : h.watch scope revision = .ok (h', id)) (hle : revision ≤ h.store.revision + 1) :
    Streams log h' id scope (revision - 1) [] := by
  obtain ⟨w, hid, hscope, hopen, hfollows⟩ := follows_of_watch hlog.remembers hh hw
  have hstore := store_of_watch hw
  refine ⟨hstore ▸ hlog, hh.watch hw, ?_, w, hid, hscope, hopen, ?_⟩
  · rw [hstore]
    omega
  · rw [← hscope, hfollows.since_eq hopen, List.nil_append]

/-- A transaction adds to the watch what it has committed in the scope. -/
theorem commit (hs : Streams log h id scope position received) {t : Transaction} {reply : Reply}
    (hc : h.commit t = .ok (h', reply)) :
    Streams (log ++ (h.store.response? t).toList) h' id scope position received := by
  have hstore := (of_commit hc).1
  have hrev := Store.revision_le_of_commit hstore
  have hbehind := hs.behind
  obtain ⟨w, hid, rfl, hopen, hsince⟩ := hs.watching
  refine ⟨hs.reached.commit hstore, hs.numbered.commit hc, by omega, ?_⟩
  have hid' := watch?_of_commit hc id
  rw [hid, Option.map_some] at hid'
  cases hr : h.store.response? t with
  | none =>
    rw [hr] at hid'
    exact ⟨w, hid', rfl, hopen, by simpa using hsince⟩
  | some r =>
    rw [hr] at hid'
    obtain ⟨-, -, rfl⟩ := Store.response?_eq_some_iff.1 hr
    refine ⟨_, hid', Watch.scope_publish w _, (Watch.closed_publish w _).trans hopen, ?_⟩
    rw [Option.toList_some, Chronicle.since_append_singleton log w.scope (Int.lt_add_one_of_le hbehind),
      hsince, List.append_assoc]
    simp [Watch.publish, hopen]

/-- Taking the next responses moves them from those that wait to those that have been taken. -/
theorem take (hs : Streams log h id scope position received) (count : Nat) :
    Streams log (h.leave id ((h.pending id).drop count)) id scope position
      (received ++ (h.pending id).take count) := by
  obtain ⟨w, hid, hscope, hopen, hsince⟩ := hs.watching
  refine ⟨hs.reached, hs.numbered.leave id _, hs.behind, _, watch?_leave_self hid _, hscope, hopen, ?_⟩
  rw [pending_eq hid, List.append_assoc, List.take_append_drop, hsince]

/-- A move that commits nothing and leaves the watch alone leaves what the watch has delivered. -/
theorem frame (hs : Streams log h id scope position received) {move : Move}
    (hcommitted : h.committed move = []) (htaken : h.taken id move = [])
    (hrev : (h.play move).store.revision = h.store.revision)
    (hid : (h.play move).watch? id = h.watch? id) :
    Streams (log ++ h.committed move) (h.play move) id scope position (received ++ h.taken id move) := by
  have hlog := reached_play hs.reached move
  rw [hcommitted, List.append_nil] at hlog ⊢
  rw [htaken, List.append_nil]
  exact ⟨hlog, hs.numbered.play move, hrev ▸ hs.behind, hid ▸ hs.watching⟩

/-- Whatever happens while the watch is kept, it has delivered what has happened in its scope. -/
theorem play (hs : Streams log h id scope position received) {move : Move}
    (hkeep : move.keeps id = true) :
    Streams (log ++ h.committed move) (h.play move) id scope position
      (received ++ h.taken id move) := by
  obtain ⟨w, hw, -⟩ := hs.watching
  cases move with
  | commit t =>
    show Streams _ _ id scope position (received ++ [])
    rw [List.append_nil]
    rcases play_commit h t with ⟨reply, hc, hr⟩ | ⟨hplay, hr⟩
    · rw [hr]
      exact hs.commit hc
    · rw [hplay, hr, List.append_nil]
      exact hs
  | watch scope' revision =>
    refine hs.frame rfl rfl (by rw [store_play_watch]) ?_
    rcases play_watch h scope' revision with ⟨id', hopened⟩ | hplay
    · rw [hw]
      exact (hs.numbered.watch?_of_watch hopened).2 id w hw
    · rw [hplay]
  | take id' count =>
    by_cases hid : id' = id
    · subst hid
      show Streams (log ++ []) _ id' scope position (received ++ if id' = id' then _ else [])
      rw [if_pos rfl, List.append_nil]
      exact hs.take count
    · exact hs.frame rfl (if_neg hid) rfl (watch?_leave_of_ne fun he => hid he.symm)
  | drop id' =>
    refine hs.frame rfl rfl rfl ((watch?_drop h id' id).trans (if_neg ?_))
    rintro rfl
    simp [Move.keeps] at hkeep
  | compact revision => exact hs.frame rfl rfl (Store.revision_compact _ _) rfl
  | setAvailable available => exact hs.frame rfl rfl rfl rfl
  | closeWatches => exact nomatch hkeep

theorem playAll (hs : Streams log h id scope position received) {moves : List Move}
    (hkeep : ∀ move ∈ moves, move.keeps id = true) :
    Streams (log ++ h.chronicle moves) (h.playAll moves) id scope position
      (received ++ h.takenIn id moves) := by
  induction moves generalizing h log received with
  | nil => simpa [chronicle, takenIn] using hs
  | cons move moves ih =>
    obtain ⟨hfirst, hrest⟩ := List.forall_mem_cons.1 hkeep
    have hstep := ih (hs.play hfirst) hrest
    rwa [List.append_assoc, List.append_assoc] at hstep

end Streams

/-- What a watch delivers in a run, from the moment that it is opened on and as long as it is kept: each
revision from the one that it has asked for on which changes something in its scope, once and in order, with
exactly its changes there. -/
theorem given_of_run {past later : List Move} {h h' : Hub} {id : WatchId} {scope : String}
    {revision : Int} (hpast : empty.playAll past = h) (hw : h.watch scope revision = .ok (h', id))
    (hle : revision ≤ h.store.revision + 1) (hkeep : ∀ move ∈ later, move.keeps id = true) :
    (h'.given id later).Pairwise (fun x y => x.revision < y.revision) ∧
      ∀ x, x ∈ h'.given id later ↔
        ∃ r ∈ empty.chronicle (past ++ .watch scope revision :: later),
          revision ≤ r.revision ∧ x.revision = r.revision ∧
            x.changes = r.changes.filter (fun e => e.key.startsWith scope) ∧ x.changes ≠ [] := by
  subst hpast
  have hopened := Streams.of_watch (reached_run past) (IsNumbered.empty.playAll past) hw hle
  have hrun := hopened.playAll hkeep
  have hchronicle : empty.chronicle (past ++ .watch scope revision :: later) =
      empty.chronicle past ++ h'.chronicle later := by
    rw [chronicle_append, chronicle]
    simp [committed, play, hw]
  obtain ⟨w, hid, -, -, hsince⟩ := hrun.watching
  have hgiven : h'.given id later =
      Chronicle.since (empty.chronicle past ++ h'.chronicle later) scope (revision - 1) := by
    rw [hsince, given, pending_eq hid, List.nil_append]
  rw [hgiven, hchronicle]
  refine ⟨hrun.reached.remembers.pairwise_since scope _, fun x => ?_⟩
  rw [Chronicle.mem_since_iff]
  simp only [Int.sub_one_lt_iff]

/-- A stream is opened on the last of two revisions that the store still has, and the store forgets them
before anything is taken. -/
def opening : List Move :=
  [.commit ⟨[], [.put "/r/a" [1]]⟩, .commit ⟨[], [.put "/r/b" [2], .put "/s" [], .delete "/r/a"]⟩]

/-- What happens while the stream of `opening` is kept. -/
def sequel : List Move :=
  [.compact 2, .commit ⟨[], [.put "/s" [3]]⟩, .watch "/" 3, .take 0 1, .setAvailable false,
    .setAvailable true, .commit ⟨[], [.delete "/r/b"]⟩, .drop 1]

theorem given_of_sequel :
    ∃ h h', empty.playAll opening = h ∧ h.watch "/r/" 2 = .ok (h', 0) ∧
      (h'.given 0 sequel).map (·.revision) = [2, 4] ∧
      ∀ x, x ∈ h'.given 0 sequel ↔
        ∃ r ∈ empty.chronicle (opening ++ .watch "/r/" 2 :: sequel),
          2 ≤ r.revision ∧ x.revision = r.revision ∧
            x.changes = r.changes.filter (fun e => e.key.startsWith "/r/") ∧ x.changes ≠ [] := by
  have hfacts : (match (empty.playAll opening).watch "/r/" 2 with
      | .ok w => decide (w.2 = 0) && decide ((w.1.given 0 sequel).map (·.revision) = [2, 4])
      | .error _ => false) = true := by
    decide +kernel
  have hrev : (2 : Int) ≤ (empty.playAll opening).store.revision + 1 := by
    decide +kernel
  split at hfacts
  next w hw =>
    obtain ⟨h', id⟩ := w
    simp only [Bool.and_eq_true, decide_eq_true_eq] at hfacts
    obtain ⟨rfl, hgiven⟩ := hfacts
    exact ⟨_, h', rfl, hw, hgiven, (given_of_run rfl hw hrev (by decide)).2⟩
  next => exact nomatch hfacts

end Hub

end Allotment
