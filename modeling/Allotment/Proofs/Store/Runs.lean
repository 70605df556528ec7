import Allotment.Proofs.Store.Watches
import Mathlib.Data.List.Induction

/-!
# Runs of a hub

A hub is written, compacted, made unavailable and watched in any order (`Hub.Move`).  A move that is refused
changes nothing, so that every list of moves is a run (`Hub.playAll`).  A run has a chronicle, which is what
its transactions have committed; the store always remembers it (`Hub.reached_run`).  Revisions are made
one at a time: each of them is the work of one transaction of the run (`Hub.exists_commits`), and what is live
right after it is what the chronicle says of that revision ever after (`Hub.Commits.live_eq`).
-/

namespace Allotment

namespace Hub

/-- What may happen to a hub. -/
inductive Move where
  | commit (t : Transaction)
  | compact (revision : Int)
  | setAvailable (available : Bool)
  | watch (scope : String) (revision : Int)
  /-- The next responses are taken from a watch, at most so many. -/
  | take (id : WatchId) (count : Nat)
  /-- A watch is given up. -/
  | drop (id : WatchId)
  | closeWatches

/-- What waits in a watch. -/
def pending (h : Hub) (id : WatchId) : List Response :=
  ((h.watch? id).map (·.pending)).getD []

/-- The hub after a move. -/
def play (h : Hub) : Move → Hub
  | .commit t =>
    match h.commit t with
    | .ok (h', _) => h'
    | .error _ => h
  | .compact revision => h.compact revision
  | .setAvailable available => h.setAvailable available
  | .watch scope revision =>
    match h.watch scope revision with
    | .ok (h', _) => h'
    | .error _ => h
  | .take id count => h.leave id ((h.pending id).drop count)
  | .drop id => h.drop id
  | .closeWatches => h.closeWatches

/-- The hub after some moves, made one after another. -/
def playAll (h : Hub) (moves : List Move) : Hub :=
  moves.foldl play h

/-- What a move commits. -/
def committed (h : Hub) : Move → Chronicle
  | .commit t => if h.store.available then (h.store.response? t).toList else []
  | _ => []

/-- What some moves commit, oldest first. -/
def chronicle (h : Hub) : List Move → Chronicle
  | [] => []
  | move :: moves => h.committed move ++ (h.play move).chronicle moves

/-- In a run from `h`, the transaction that makes a revision has just been committed, which has led to `m`. -/
structure Commits (h : Hub) (moves : List Move) (revision : Int) (m : Hub) : Prop where
  exists_moves : ∃ before t later, moves = before ++ .commit t :: later ∧
    (h.playAll before).store.revision < revision ∧ m = (h.playAll before).play (.commit t)
  revision_eq : m.store.revision = revision

variable {h h' : Hub} {log : Chronicle} {move : Move} {moves before later : List Move} {revision : Int}

@[simp]
theorem playAll_nil (h : Hub) : h.playAll [] = h :=
  rfl

@[simp]
theorem playAll_cons (h : Hub) (move : Move) (moves : List Move) :
    h.playAll (move :: moves) = (h.play move).playAll moves :=
  rfl

@[simp]
theorem playAll_append (h : Hub) (before later : List Move) :
    h.playAll (before ++ later) = (h.playAll before).playAll later :=
  List.foldl_append

@[simp]
theorem chronicle_append (h : Hub) (before later : List Move) :
    h.chronicle (before ++ later) = h.chronicle before ++ (h.playAll before).chronicle later := by
  induction before generalizing h with
  | nil => rfl
  | cons move before ih => simp [chronicle, ih]

/-! ### One move -/

/-- A transaction is either committed and published, or the store refuses it. -/
theorem play_commit (h : Hub) (t : Transaction) :
    (∃ reply, h.commit t = .ok (h.play (.commit t), reply) ∧
        h.committed (.commit t) = (h.store.response? t).toList) ∨
      (h.play (.commit t) = h ∧ h.committed (.commit t) = []) := by
  cases hc : h.commit t with
  | ok answer =>
    refine .inl ⟨answer.2, by simp [play, hc], ?_⟩
    have ha := (Store.commit_eq_ok_iff.1 (of_commit hc).1).1
    simp [committed, ha]
  | error e =>
    refine .inr ⟨by simp [play, hc], ?_⟩
    have ha : h.store.available = false := by
      cases ha : h.store.available with
      | false => rfl
      | true =>
        cases hr : h.store.response? t <;>
          simp [Hub.commit, Store.commit, Store.guardAvailable, ha, hr, bind, Except.bind, pure,
            Except.pure] at hc
    simp [committed, ha]

/-- A watch is either opened, or it is refused. -/
theorem play_watch (h : Hub) (scope : String) (revision : Int) :
    (∃ id, h.watch scope revision = .ok (h.play (.watch scope revision), id)) ∨
      h.play (.watch scope revision) = h := by
  cases hw : h.watch scope revision with
  | ok answer => exact .inl ⟨answer.2, by simp [play, hw]⟩
  | error e => exact .inr (by simp [play, hw])

@[simp]
theorem store_play_watch (h : Hub) (scope : String) (revision : Int) :
    (h.play (.watch scope revision)).store = h.store := by
  rcases play_watch h scope revision with ⟨id, hw⟩ | hplay
  · exact store_of_watch hw
  · rw [hplay]

/-- A move keeps the store one that its chronicle leads to. -/
theorem reached_play (hlog : Chronicle.Reached log h.store) (move : Move) :
    Chronicle.Reached (log ++ h.committed move) (h.play move).store := by
  cases move with
  | commit t =>
    rcases play_commit h t with ⟨reply, hc, hr⟩ | ⟨hplay, hr⟩
    · rw [hr]
      exact hlog.commit (of_commit hc).1
    · rw [hplay, hr, List.append_nil]
      exact hlog
  | watch scope revision =>
    rw [store_play_watch]
    exact (List.append_nil log).symm ▸ hlog
  | compact revision => exact (List.append_nil log).symm ▸ hlog.compact revision
  | setAvailable available => exact (List.append_nil log).symm ▸ hlog.setAvailable available
  | take id count => exact (List.append_nil log).symm ▸ hlog
  | drop id => exact (List.append_nil log).symm ▸ hlog
  | closeWatches => exact (List.append_nil log).symm ▸ hlog

theorem IsNumbered.play (hh : h.IsNumbered) (move : Move) : (h.play move).IsNumbered := by
  cases move with
  | commit t =>
    rcases play_commit h t with ⟨reply, hc, -⟩ | ⟨hplay, -⟩
    · exact hh.commit hc
    · rw [hplay]
      exact hh
  | watch scope revision =>
    rcases play_watch h scope revision with ⟨id, hw⟩ | hplay
    · exact hh.watch hw
    · rw [hplay]
      exact hh
  | compact revision => exact hh
  | setAvailable available => exact hh
  | take id count => exact hh.leave id _
  | drop id => exact hh.drop id
  | closeWatches => exact hh.mapWatches _

/-- A move leads to the next revision only if it is a transaction, and otherwise leaves the revision. -/
theorem revision_play (h : Hub) (move : Move) :
    (h.play move).store.revision = h.store.revision ∨
      (∃ t, move = .commit t) ∧ (h.play move).store.revision = h.store.revision + 1 := by
  cases move with
  | commit t =>
    rcases play_commit h t with ⟨reply, hc, -⟩ | ⟨hplay, -⟩
    · exact (Store.revision_of_commit (of_commit hc).1).imp_right fun hrev => ⟨⟨t, rfl⟩, hrev⟩
    · exact .inl (by rw [hplay])
  | watch scope revision => exact .inl (by rw [store_play_watch])
  | compact revision => exact .inl (Store.revision_compact _ _)
  | setAvailable available => exact .inl rfl
  | take id count => exact .inl rfl
  | drop id => exact .inl rfl
  | closeWatches => exact .inl rfl

/-- A move does not alter what the chronicle says of the revisions before it. -/
theorem contentsAt_committed (log : Chronicle) (move : Move) (hle : revision ≤ h.store.revision) :
    Chronicle.contentsAt (log ++ h.committed move) revision = log.contentsAt revision := by
  cases move with
  | commit t =>
    rcases play_commit h t with ⟨-, -, hr⟩ | ⟨-, hr⟩
    · rw [hr]
      exact Chronicle.contentsAt_append_response? log t hle
    · rw [hr, List.append_nil]
  | _ => simp [committed]

/-! ### Runs -/

theorem reached_playAll (hlog : Chronicle.Reached log h.store) (moves : List Move) :
    Chronicle.Reached (log ++ h.chronicle moves) (h.playAll moves).store := by
  induction moves generalizing h log with
  | nil => simpa [chronicle] using hlog
  | cons move moves ih =>
    have hstep := ih (reached_play hlog move)
    rwa [List.append_assoc] at hstep

theorem reached_run (moves : List Move) :
    Chronicle.Reached (empty.chronicle moves) (empty.playAll moves).store :=
  reached_playAll (h := empty) .empty moves

theorem IsNumbered.playAll (hh : h.IsNumbered) (moves : List Move) : (h.playAll moves).IsNumbered := by
  induction moves generalizing h with
  | nil => exact hh
  | cons move moves ih => exact ih (hh.play move)

/-- Later moves do not alter what the chronicle says of earlier revisions. -/
theorem contentsAt_chronicle (log : Chronicle) (moves : List Move) (hle : revision ≤ h.store.revision) :
    Chronicle.contentsAt (log ++ h.chronicle moves) revision = log.contentsAt revision := by
  induction moves generalizing h log with
  | nil => simp [chronicle]
  | cons move moves ih =>
    have hnext : revision ≤ (h.play move).store.revision := by
      rcases revision_play h move with hrev | ⟨-, hrev⟩ <;> omega
    rw [chronicle, ← List.append_assoc, ih _ hnext, contentsAt_committed log move hle]

/-- Each revision that a run has come by is made by one of its transactions. -/
theorem exists_commits (hlow : h.store.revision < revision)
    (hhigh : revision ≤ (h.playAll moves).store.revision) : ∃ m, h.Commits moves revision m := by
  induction moves using List.reverseRecOn with
  | nil => exact absurd hlow (Int.not_lt.2 hhigh)
  | append_singleton moves move ih =>
    by_cases hle : revision ≤ (h.playAll moves).store.revision
    · obtain ⟨m, ⟨before, t, later, rfl, hbefore, hm⟩, hrev⟩ := ih hle
      exact ⟨m, ⟨before, t, later ++ [move], by simp, hbefore, hm⟩, hrev⟩
    · have hlast : revision ≤ ((h.playAll moves).play move).store.revision := by simpa using hhigh
      rcases revision_play (h.playAll moves) move with hrev | ⟨⟨t, rfl⟩, hrev⟩
      · omega
      · exact ⟨_, ⟨moves, t, [], rfl, by omega, rfl⟩, by omega⟩

/-- The contents that the chronicle of a run has for a revision were live when the revision had been made. -/
theorem Commits.live_eq {m : Hub} (hm : empty.Commits moves revision m) :
    m.store.live = Chronicle.contentsAt (empty.chronicle moves) revision := by
  obtain ⟨⟨before, t, later, rfl, -, rfl⟩, hrev⟩ := hm
  have hreached := reached_play (reached_run before) (.commit t)
  rw [← hreached.explains.contentsAt_revision, hrev, chronicle_append, chronicle, ← List.append_assoc,
    contentsAt_chronicle _ _ (Int.le_of_eq hrev.symm)]

end Hub

end Allotment
