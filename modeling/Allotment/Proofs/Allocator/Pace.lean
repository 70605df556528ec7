import Allotment.Proofs.Allocator.Course

/-!
# The pace of an allocator

Whatever the store answers, an allocator goes on to wait for something later than what it has planned on
(`awaited_of_turn`).  So no round whose wait has been answered plans on the same revision as the round before
it (`Outcome.Precedes`, `Course.isChain`), and an allocator makes no more rounds than there are new revisions,
except where a wait times out (`awaited_add_length_le`).
-/

namespace Allotment

/-- The later of two waits has ended with something newer than the earlier, unless it has timed out. -/
def Outcome.Precedes (o o' : Outcome) : Prop :=
  ∀ s s', o.snapshot? = some s → o' = .reached s' → s.revision < s'.revision

namespace Allocator

open Proposal (vacant)

variable {a a' b : Allocator} {e : Encounter} {es : List Encounter} {o : Outcome}

/-! ### Rounds -/

/-- What a round has planned on is not planned on again by a round that gets what it waits for. -/
theorem precedes_of_turn (hturn : a.turn e = (a', none)) (hwait : Wait.Admits ⟨a'.awaited, false⟩ o) :
    e.outcome.Precedes o := by
  intro s s' hs hreached
  obtain ⟨planned, hplanned, hlt, -⟩ := awaited_of_turn hturn
  obtain rfl : s = planned := Option.some.inj (hs.symm.trans hplanned)
  exact Int.lt_of_lt_of_le hlt (hwait s' hreached)

/-- A round that gets what it waits for goes on to wait for more. -/
theorem awaited_lt_of_turn (hwait : Wait.Admits ⟨a.awaited, false⟩ e.outcome)
    (hturn : a.turn e = (a', none)) (hintime : ∀ s, e.outcome ≠ .timedOut s) : a.awaited < a'.awaited := by
  obtain ⟨s, hs, hlt, -⟩ := awaited_of_turn hturn
  have hlate : ¬ e.outcome.IsLate a.awaited := fun ⟨t, ht, _⟩ => hintime t ht
  exact Int.lt_of_le_of_lt (hwait.le_revision hs (Int.le_refl _) hlate) hlt

/-! ### Courses -/

theorem Course.isChain (hcourse : Course a es b) (hwait : Wait.Admits ⟨b.awaited, false⟩ o) :
    (es.map (·.outcome) ++ [o]).IsChain Outcome.Precedes := by
  induction hcourse with
  | nil a => exact .singleton o
  | cons hadmits hturn hrest ih =>
    -- what comes next is another round of the course, or the last wait
    cases hrest with
    | nil => exact .cons_cons (precedes_of_turn hturn hwait) (.singleton o)
    | cons hnext _ _ => exact .cons_cons (precedes_of_turn hturn hnext) (ih hwait)

/-- Each round of a course, and the one that comes after it, plans on a later revision than the round before
it, unless its wait has timed out: whether the round before was idle, committed or refused, and whatever the
store has answered.  The waits may be any that do not end early, and those on observers never do. -/
theorem later_of_course (a : Allocator) :
    (∀ es b o, Course a es b → Wait.Admits ⟨b.awaited, false⟩ o →
      (es.map (·.outcome) ++ [o]).IsChain Outcome.Precedes) ∧
    ∀ es b observer hub, Vigil a es b →
      (es.map (·.outcome) ++ [Observer.outcome observer hub ⟨b.awaited, false⟩]).IsChain
        Outcome.Precedes := by
  constructor
  · intro es b o hcourse hwait
    exact hcourse.isChain hwait
  · intro es b observer hub hvigil
    exact hvigil.course.isChain (observer.admits_outcome hub _)

/-- A proposal is committed at revision 2, and the next one, on revision 2, is refused.  The round after that
plans on revision 3. -/
theorem later_of_claiming : ∃ b s, Course claimant [claiming, ⟨.reached taken, .ok ⟨false, 7⟩⟩] b ∧
    Wait.Admits ⟨b.awaited, false⟩ (.reached s) ∧
    Vigil claimant [claiming, ⟨.reached taken, .ok ⟨false, 7⟩⟩] b ∧
    (Observer.resting s).outcome Hub.empty ⟨b.awaited, false⟩ = .reached s ∧
    [Outcome.reached vacant, .reached taken, .reached s].IsChain Outcome.Precedes ∧
    vacant.revision = 1 ∧ taken.revision = 2 ∧ s.revision = 3 := by
  obtain ⟨b, hvigil, hawaited⟩ := vigil_claiming
  have houtcome : (Observer.resting { taken with revision := 3 }).outcome Hub.empty ⟨b.awaited, false⟩ =
      .reached { taken with revision := 3 } :=
    Observer.outcome_resting (Int.le_of_eq hawaited) _
  have hchain := (later_of_course claimant).2 _ b (Observer.resting { taken with revision := 3 }) Hub.empty
    hvigil
  rw [houtcome] at hchain
  exact ⟨b, _, hvigil.course, houtcome ▸ Observer.admits_outcome _ _ _, hvigil, houtcome, hchain, rfl, rfl,
    rfl⟩

/-- As long as no wait times out, each round is for a revision of its own. -/
theorem awaited_add_length_le (hcourse : Course a es b) (hintime : ∀ e ∈ es, ∀ s, e.outcome ≠ .timedOut s) :
    a.awaited + es.length ≤ b.awaited := by
  induction hcourse with
  | nil a => simp
  | cons hwait hturn hrest ih =>
    obtain ⟨hfirst, hrest⟩ := List.forall_mem_cons.1 hintime
    have hlt := awaited_lt_of_turn hwait hturn hfirst
    have hle := ih hrest
    rw [List.length_cons]
    omega

end Allocator

/-! ### Rehearsals -/

/-- What a round of a rehearsal has planned on is not planned on again when the next wait has been answered. -/
theorem Rehearsal.precedes_of_round {r r' : Rehearsal} {s : Script} (hround : r.round s = (r', none)) :
    r.wait.2.Precedes r'.wait.2 := by
  obtain ⟨e, he, hturn⟩ := r.exists_encounter s
  rw [hround] at hturn
  exact he ▸ Allocator.precedes_of_turn hturn r'.admits_wait

end Allotment
