import Allotment.Proofs.Store.Runs
import Mathlib.Data.Int.Range
import Mathlib.Data.List.Sort

/-!
# How the parts of a store fit together

A store holds the same past several times over: in what is live, in the contents at its compaction point with
the responses since then, and in the deletions that are not forgotten.  Each transaction and each compaction
changes several of these parts.  `Store.IsCoherent` says how they fit together, and they do so whatever has
happened to the store (`Hub.coherent_of_run`): the responses and the deletions follow from the chronicle that
the store remembers, and the creation revisions from what one write does to the contents
(`Contents.IsDated.write`).  A transaction leaves everything as it is exactly if it is refused, or if it deletes
nothing but what is absent (`Hub.play_commit_eq_iff`).
-/

namespace Allotment

/-! ### Stamps -/

namespace Contents

/-- Every key was created at some revision from one on and changed last at that one or a later one, which a
bound allows. -/
def IsDated (c : Contents) (bound : Int) : Prop :=
  ∀ k v, c.get? k = some v → 1 ≤ v.created ∧ v.created ≤ v.modified ∧ v.modified ≤ bound

namespace IsDated

variable {c : Contents} {bound : Int}

theorem empty (bound : Int) : IsDated KeyMap.empty bound :=
  fun _ _ hv => nomatch hv

theorem mono (h : c.IsDated bound) {later : Int} (hle : bound ≤ later) : c.IsDated later := by
  intro k v hv
  obtain ⟨hpos, hcreated, hmodified⟩ := h k v hv
  exact ⟨hpos, hcreated, Int.le_trans hmodified hle⟩

theorem write_singleton (h : c.IsDated bound) (hpos : 1 ≤ bound) (w : Write) :
    (c.write bound [w]).IsDated bound := by
  intro k v hv
  cases w with
  | put key value =>
    rw [write_put, KeyMap.get?_insert] at hv
    split at hv
    · obtain rfl := Option.some.inj hv
      -- a key that is live keeps the revision of its creation
      cases hold : c.get? key with
      | none => exact ⟨hpos, Int.le_refl _, Int.le_refl _⟩
      | some old =>
        obtain ⟨hcreated, hle, hbound⟩ := h key old hold
        exact ⟨hcreated, Int.le_trans hle hbound, Int.le_refl _⟩
    · exact h k v hv
  | delete key =>
    rw [write_delete, KeyMap.get?_erase] at hv
    split at hv
    · exact nomatch hv
    · exact h k v hv

/-- Writes at the last revision leave entries that are stamped up to it. -/
theorem write (h : c.IsDated bound) (hpos : 1 ≤ bound) (ws : List Write) :
    (c.write bound ws).IsDated bound := by
  induction ws generalizing c with
  | nil => exact h
  | cons w ws ih =>
    rw [write_cons]
    exact ih (h.write_singleton hpos w)

end IsDated

end Contents

namespace Write

theorem change?_eq_none_iff (revision : Int) {w : Write} {c : Contents} :
    w.change? revision c = none ↔ ∃ k, w = .delete k ∧ c.get? k = none := by
  cases w with
  | put k v => simp [change?]
  | delete k => cases hk : c.get? k <;> simp [change?, KeyMap.contains, hk]

/-- Some writes change nothing exactly if all of them delete what is absent. -/
theorem changes_eq_nil_iff (revision : Int) {ws : List Write} {c : Contents} :
    changes revision ws c = [] ↔ ∀ w ∈ ws, ∃ k, w = .delete k ∧ c.get? k = none := by
  induction ws with
  | nil => simp [changes]
  | cons w ws ih =>
    rw [List.forall_mem_cons, ← change?_eq_none_iff revision]
    cases hw : w.change? revision c with
    | none => simp [changes, hw, ih]
    | some e => simp [changes, hw]

end Write

/-! ### Parts of a store -/

namespace Store

/-- The parts of a store fit together: the contents at the compaction point and the responses since then make up
what is live and what is deleted. -/
structure IsCoherent (s : Store) : Prop where
  compacted_le : 0 ≤ s.compacted ∧ s.compacted ≤ s.revision
  /-- There is one response for every revision after the compaction point, in order. -/
  revisions : s.history.map (·.revision) = Int.range (s.compacted + 1) (s.revision + 1)
  /-- Each response changes something, and all its changes have its revision. -/
  stamped : ∀ r ∈ s.history, r.changes ≠ [] ∧ ∀ e ∈ r.changes, e.revision = r.revision
  live_eq : s.base.replay (Chronicle.changes s.history) = s.live
  /-- The deletions are those that are the last change of their key in the history. -/
  tombstone_iff : ∀ k r, s.tombstones.get? k = some r ↔
    lastOn Change.key (Chronicle.changes s.history) k = some (.delete k r)
  not_live : ∀ k r, s.tombstones.get? k = some r → s.live.get? k = none
  dated : s.live.IsDated s.revision

end Store

namespace Chronicle

/-- What is live is stamped with revisions that the store has come by. -/
theorem Reached.isDated {log : Chronicle} {s : Store} (h : Reached log s) : s.live.IsDated s.revision := by
  induction h with
  | empty => exact Contents.IsDated.empty _
  | @commit log s s' t reply h hc ih =>
    obtain ⟨-, ⟨r, hr, rfl, -⟩ | ⟨-, rfl, -⟩⟩ := Store.commit_eq_ok_iff.1 hc
    · obtain ⟨-, -, rfl⟩ := Store.response?_eq_some_iff.1 hr
      have hlow := h.explains.compacted_le
      exact (ih.mono (Int.le_add_one (Int.le_refl _))).write (by omega) t.writes
    · exact ih
  | @compact log s h revision ih =>
    rw [Store.live_compact, Store.revision_compact]
    exact ih
  | setAvailable h available ih => exact ih

namespace Remembers

variable {log : Chronicle} {s : Store}

theorem isOrdered_history (h : Remembers log s) : IsOrdered s.history := by
  rw [h.history]
  exact h.toIsOrdered.sublist List.filter_sublist

theorem mem_history_iff (h : Remembers log s) {r : Response} :
    r ∈ s.history ↔ r ∈ log ∧ s.compacted < r.revision := by
  rw [h.history]
  simp [after]

/-- The responses that are remembered stand for the revisions after the compaction point, one by one. -/
theorem revisions (h : Remembers log s) :
    s.history.map (·.revision) = Int.range (s.compacted + 1) (s.revision + 1) := by
  have hlow := h.compacted_le
  have hascending : (s.history.map (·.revision)).Pairwise (· < ·) :=
    List.pairwise_map.2 h.isOrdered_history.inOrder
  have hrange : (Int.range (s.compacted + 1) (s.revision + 1)).Pairwise (· < ·) := by
    refine List.pairwise_map.2 (List.pairwise_lt_range.imp fun hlt => ?_)
    omega
  refine hascending.eq_of_mem_iff hrange fun i => ?_
  rw [Int.mem_range_iff, List.mem_map]
  constructor
  · rintro ⟨r, hr, rfl⟩
    obtain ⟨hr, hlt⟩ := h.mem_history_iff.1 hr
    exact ⟨hlt, Int.lt_add_one_of_le (h.within r hr).2⟩
  · rintro ⟨hcompacted, hrevision⟩
    obtain ⟨r, hr, rfl⟩ := h.complete i (by omega) (by omega)
    exact ⟨r, h.mem_history_iff.2 ⟨hr, hcompacted⟩, rfl⟩

/-- The contents at the compaction point and the responses since then lead to what is live. -/
theorem replay_history (h : Remembers log s) : s.base.replay (changes s.history) = s.live := by
  have hall : (log.after s.compacted).upTo s.revision = log.after s.compacted :=
    List.filter_eq_self.2 fun r hr => decide_eq_true (h.within r (List.mem_filter.1 hr).1).2
  rw [h.history, h.base, ← h.contentsAt_revision, ← h.replay_contentsAt h.compacted_le.2, hall]

/-- The last change of a key is remembered exactly if it lies after the compaction point. -/
theorem lastOn_history (h : Remembers log s) (k : String) :
    lastOn Change.key (changes s.history) k =
      (lastOn Change.key log.changes k).filter fun e => decide (s.compacted < e.revision) := by
  have hsplit := h.upTo_append_after s.compacted
  rw [← h.history] at hsplit
  have hlast : lastOn Change.key log.changes k =
      (lastOn Change.key (changes s.history) k).or (lastOn Change.key (log.upTo s.compacted).changes k) := by
    rw [← lastOn_append, ← changes_append, hsplit]
  rw [hlast]
  cases hk : lastOn Change.key (changes s.history) k with
  | some e =>
    obtain ⟨r, hr, he⟩ := List.mem_flatMap.1 (mem_of_lastOn hk).1
    have hlt := (h.mem_history_iff.1 hr).2
    rw [← h.isOrdered_history.stamped r hr e he] at hlt
    rw [Option.some_or, Option.filter_some, if_pos (decide_eq_true hlt)]
  | none =>
    cases hold : lastOn Change.key (log.upTo s.compacted).changes k with
    | none => rfl
    | some e =>
      obtain ⟨r, hr, he⟩ := List.mem_flatMap.1 (mem_of_lastOn hold).1
      obtain ⟨hr, hle⟩ := List.mem_filter.1 hr
      rw [← h.stamped r hr e he] at hle
      have hlt : ¬ s.compacted < e.revision := Int.not_lt.2 (of_decide_eq_true hle)
      rw [Option.none_or, Option.filter_some, if_neg (by simpa using hlt)]

/-- The deletions are those that are the last change of their key in the history. -/
theorem tombstone_iff (h : Remembers log s) (k : String) (r : Int) :
    s.tombstones.get? k = some r ↔ lastOn Change.key (changes s.history) k = some (.delete k r) := by
  rw [h.tombstones, h.lastOn_history]
  cases hk : lastOn Change.key log.changes k with
  | none => simp
  | some e =>
    obtain rfl := (mem_of_lastOn hk).2
    cases e with
    | put e => simp [Change.burial?, Option.filter_eq_some_iff]
    | delete key revision =>
      show (some revision).filter (fun r => decide (s.compacted < r)) = some r ↔
        (some (Change.delete key revision)).filter (fun e => decide (s.compacted < e.revision)) =
          some (.delete key r)
      rw [Option.filter_eq_some_iff, Option.filter_eq_some_iff]
      constructor
      · rintro ⟨hr, hlt⟩
        obtain rfl := Option.some.inj hr
        exact ⟨rfl, hlt⟩
      · rintro ⟨he, hlt⟩
        obtain ⟨-, rfl⟩ := Change.delete.inj (Option.some.inj he)
        exact ⟨rfl, hlt⟩

theorem not_live_of_tombstone (h : Remembers log s) {k : String} {r : Int}
    (hr : s.tombstones.get? k = some r) : s.live.get? k = none := by
  rw [h.tombstone_iff, h.lastOn_history, Option.filter_eq_some_iff] at hr
  rw [h.live, hr.1]
  rfl

end Remembers

/-- The parts of every store that requests lead to fit together. -/
theorem Reached.isCoherent {log : Chronicle} {s : Store} (h : Reached log s) : s.IsCoherent where
  compacted_le := h.remembers.compacted_le
  revisions := h.remembers.revisions
  stamped r hr :=
    ⟨h.remembers.nonempty r (h.remembers.mem_history_iff.1 hr).1, h.remembers.isOrdered_history.stamped r hr⟩
  live_eq := h.remembers.replay_history
  tombstone_iff := h.remembers.tombstone_iff
  not_live _ _ hr := h.remembers.not_live_of_tombstone hr
  dated := h.isDated

end Chronicle

/-! ### Transactions without effect -/

/-- A transaction has nothing to commit exactly if a guard fails or if it only deletes what is absent. -/
theorem Store.response?_eq_none_iff {s : Store} {t : Transaction} :
    s.response? t = none ↔
      (∃ g ∈ t.guards, s.holds g = false) ∨ ∀ w ∈ t.writes, ∃ k, w = .delete k ∧ s.live.get? k = none := by
  have hguards : (∃ g ∈ t.guards, s.holds g = false) ↔ ¬ t.guards.all s.holds = true := by
    simp
  rw [hguards, ← Write.changes_eq_nil_iff (s.revision + 1), ← Option.not_isSome_iff_eq_none,
    Option.isSome_iff_exists]
  simp only [response?_eq_some_iff]
  constructor
  · intro hnone
    by_contra hsome
    rw [not_or, not_not] at hsome
    exact hnone ⟨_, hsome.1, hsome.2, rfl⟩
  · rintro (hg | hw) ⟨r, hall, hne, -⟩
    · exact hg hall
    · exact hne hw

namespace Hub

variable {h : Hub} {moves : List Move}

/-- A transaction leaves a hub as it is exactly if the store is unavailable, a guard fails or nothing is written
but deletions of what is absent. -/
theorem play_commit_eq_iff (h : Hub) (t : Transaction) :
    h.play (.commit t) = h ↔
      h.store.available = false ∨ (∃ g ∈ t.guards, h.store.holds g = false) ∨
        ∀ w ∈ t.writes, ∃ k, w = .delete k ∧ h.store.live.get? k = none := by
  rw [← Store.response?_eq_none_iff]
  rcases play_commit h t with ⟨reply, hc, -⟩ | ⟨hplay, hnone⟩
  · obtain ⟨hstore, hnext, hwatches⟩ := of_commit hc
    obtain ⟨ha, ⟨r, hr, hs, -⟩ | ⟨hr, hs, -⟩⟩ := Store.commit_eq_ok_iff.1 hstore
    · refine iff_of_false (fun hplay => ?_) (by simp [ha, hr])
      have hrev : r.revision = h.store.revision + 1 := by rw [(Store.response?_eq_some_iff.1 hr).2.2]
      rw [hplay] at hs
      have hsame : h.store.revision = r.revision := congrArg Store.revision hs
      omega
    · refine iff_of_true ?_ (.inr hr)
      have hparts : h.play (.commit t) =
          ⟨(h.play (.commit t)).store, (h.play (.commit t)).watches, (h.play (.commit t)).next⟩ := rfl
      rw [hparts, hs, hwatches, hnext, hr, List.map_id']
  · refine iff_of_true hplay ?_
    cases ha : h.store.available with
    | false => exact .inl rfl
    | true => exact .inr (by simpa [committed, ha] using hnone)

/-- Whatever has happened to a store, its parts fit together, and a transaction leaves them as they are exactly
if the store is unavailable, a guard fails or nothing is written but deletions of what is absent. -/
theorem coherent_of_run (hrun : empty.playAll moves = h) :
    h.store.IsCoherent ∧
      ∀ t, h.play (.commit t) = h ↔
        h.store.available = false ∨ (∃ g ∈ t.guards, h.store.holds g = false) ∨
          ∀ w ∈ t.writes, ∃ k, w = .delete k ∧ h.store.live.get? k = none := by
  subst hrun
  exact ⟨(reached_run moves).isCoherent, play_commit_eq_iff _⟩

/-- Keys come and go, some of them within one transaction, and the store forgets what is below its revision. -/
def exchanges : List Move :=
  [.commit ⟨[], [.put "/r/a" [1], .put "/r/b" [2]]⟩,
    .commit ⟨[.modified "/r/b" 1], [.delete "/r/a", .put "/r/a" [3], .delete "/r/b"]⟩, .compact 1, .watch "/r/" 2,
    .commit ⟨[], [.put "/r/c" [], .delete "/r/c"]⟩, .compact 0, .compact 2, .setAvailable false,
    .commit ⟨[], [.put "/r/d" []]⟩, .setAvailable true, .commit ⟨[], [.put "/r/b" [4], .put "/r/b" [5]]⟩]

theorem coherent_of_exchanges :
    ∃ h, empty.playAll exchanges = h ∧ h.store.compacted = 2 ∧ h.store.revision = 4 ∧
      h.store.tombstones.get? "/r/b" = none ∧ h.store.tombstones.get? "/r/c" = some 3 ∧
      h.store.IsCoherent ∧ h.play (.commit ⟨[.modified "/r/b" 2], [.put "/r/b" []]⟩) = h ∧
      h.play (.commit ⟨[], [.delete "/r/c"]⟩) = h := by
  have hfacts : ((empty.playAll exchanges).store.compacted, (empty.playAll exchanges).store.revision,
      (empty.playAll exchanges).store.tombstones.get? "/r/b",
      (empty.playAll exchanges).store.tombstones.get? "/r/c") = (2, 4, none, some 3) := by
    decide +kernel
  have hfails : (empty.playAll exchanges).store.holds (.modified "/r/b" 2) = false := by
    decide +kernel
  simp only [Prod.mk.injEq] at hfacts
  obtain ⟨hcompacted, hrev, hlive, hburied⟩ := hfacts
  obtain ⟨hcoherent, hidle⟩ := coherent_of_run (rfl : empty.playAll exchanges = _)
  refine ⟨_, rfl, hcompacted, hrev, hlive, hburied, hcoherent, ?_, ?_⟩
  · exact (hidle _).2 (.inr (.inl ⟨_, List.mem_singleton_self _, hfails⟩))
  · refine (hidle _).2 (.inr (.inr fun w hw => ⟨"/r/c", List.mem_singleton.1 hw, ?_⟩))
    exact hcoherent.not_live "/r/c" 3 hburied

end Hub

end Allotment
