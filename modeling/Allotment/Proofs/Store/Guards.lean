import Allotment.Proofs.Store.Chronicle

/-!
# Guards are exact

A store decides its guards from its live keys and from the deletions that it still remembers.  A deletion
may be overwritten by a later put, even by one of the same transaction, and it may be forgotten by
compaction.  All the same each guard says something about everything that was ever committed
(`guards_exact_of_reached`): a scope is unchanged since a revision exactly if the revision is not forgotten
and no later change lies in the scope, and a key was last changed at a revision exactly if its last change
is a put of that revision, where revision zero stands for a key without a put that has not been deleted.
-/

namespace Allotment

namespace Chronicle

variable {log : Chronicle} {s : Store}

/-- A key was last changed at a revision exactly if its last change is a put of that revision.  A key is
absent exactly if it was never changed or its last change is its deletion. -/
theorem Explains.holds_modified_iff (h : Explains log s) {key : String} {revision : Int} :
    s.holds (.modified key revision) = true ↔
      (∃ e, lastOn Change.key log.changes key = some (.put e) ∧ e.modified = revision) ∨
        revision = 0 ∧ (lastOn Change.key log.changes key = none ∨
          ∃ k r, lastOn Change.key log.changes key = some (.delete k r)) := by
  simp only [Store.holds, beq_iff_eq, h.live]
  cases hlast : lastOn Change.key log.changes key with
  | none => simp [eq_comm]
  | some c =>
    cases c with
    | put e =>
      -- a put has a positive revision, so that zero can stand for an absent key
      have hpos : 1 ≤ e.modified := (h.bounded _ (mem_of_lastOn hlast).1).1
      simp [Change.left?]
    | delete k r => simp [Change.left?, eq_comm]

/-- What a guard says on a store is what it says on all changes ever committed. -/
theorem guards_exact_of_reached (h : Reached log s) :
    (∀ scope revision, s.holds (.unchanged scope revision) = true ↔
      s.compacted ≤ revision ∧
        ¬ ∃ e ∈ log.changes, revision < e.revision ∧ e.key.startsWith scope = true) ∧
    (∀ key revision, s.holds (.modified key revision) = true ↔
      (∃ e, lastOn Change.key log.changes key = some (.put e) ∧ e.modified = revision) ∨
        revision = 0 ∧ (lastOn Change.key log.changes key = none ∨
          ∃ k r, lastOn Change.key log.changes key = some (.delete k r))) := by
  refine ⟨fun scope revision => ?_, fun key revision => h.explains.holds_modified_iff⟩
  rw [h.explains.holds_unchanged_iff]
  refine and_congr_right fun _ => ⟨?_, fun hnone e he hscope => ?_⟩
  · rintro hall ⟨e, he, hlt, hscope⟩
    exact absurd (hall e he hscope) (Int.not_le.2 hlt)
  · exact Int.not_lt.1 fun hlt => hnone ⟨e, he, hlt, hscope⟩

/-! ### A key that comes and goes -/

/-- A store and its chronicle after some transactions. -/
def commitAll : Chronicle × Store → List Transaction → Chronicle × Store
  | w, [] => w
  | w, t :: ts =>
    match w.2.commit t with
    | .ok (s, _) => commitAll (w.1 ++ (w.2.response? t).toList, s) ts
    | .error _ => commitAll w ts

theorem Reached.commitAll {w : Chronicle × Store} (h : Reached w.1 w.2) (ts : List Transaction) :
    Reached (Chronicle.commitAll w ts).1 (Chronicle.commitAll w ts).2 := by
  induction ts generalizing w with
  | nil => exact h
  | cons t ts ih =>
    unfold Chronicle.commitAll
    split
    next s reply hc => exact ih (h.commit hc)
    next => exact ih h

/-- A key is put, then deleted and put again at once, and then deleted for good. -/
def turnover : List Transaction :=
  [⟨[], [.put "/r/a" [1]]⟩, ⟨[], [.delete "/r/a", .put "/r/a" [2]]⟩,
    ⟨[], [.delete "/r/a", .put "/r/b" [3]]⟩]

theorem guards_exact_of_turnover :
    ∃ log s, Reached log s ∧ s.compacted = 2 ∧ s.holds (.unchanged "/r/a" 2) = false ∧
      s.holds (.unchanged "/r/b" 3) = true ∧ s.holds (.unchanged "/r/b" 1) = false ∧
      s.holds (.modified "/r/a" 0) = true ∧ s.holds (.modified "/r/b" 3) = true := by
  have hreached := (Reached.commitAll (w := ([], Store.empty)) .empty turnover).compact 2
  have hchanges : changes (commitAll ([], Store.empty) turnover).1 =
      [.put ⟨⟨[1], 1, 1⟩, "/r/a"⟩, .delete "/r/a" 2, .put ⟨⟨[2], 2, 2⟩, "/r/a"⟩, .delete "/r/a" 3,
        .put ⟨⟨[3], 3, 3⟩, "/r/b"⟩] := by
    decide +kernel
  have hcompacted : ((commitAll ([], Store.empty) turnover).2.compact 2).compacted = 2 := by
    decide +kernel
  obtain ⟨hunchanged, hmodified⟩ := guards_exact_of_reached hreached
  refine ⟨_, _, hreached, hcompacted, ?_, ?_, ?_, ?_, ?_⟩
  · rw [Bool.eq_false_iff, ne_eq, hunchanged, hchanges]
    exact fun h => h.2 ⟨.delete "/r/a" 3, by decide, by decide, by decide +kernel⟩
  · rw [hunchanged, hchanges, hcompacted]
    refine ⟨by decide, ?_⟩
    decide +kernel
  · rw [Bool.eq_false_iff, ne_eq, hunchanged, hcompacted]
    exact fun h => absurd h.1 (by decide)
  · rw [hmodified, hchanges]
    exact .inr ⟨rfl, .inr ⟨"/r/a", 3, by decide +kernel⟩⟩
  · rw [hmodified, hchanges]
    exact .inl ⟨⟨⟨[3], 3, 3⟩, "/r/b"⟩, by decide +kernel, rfl⟩

end Chronicle

end Allotment
