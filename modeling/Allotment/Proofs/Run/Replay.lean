import Allotment.Proofs.Run.Basic
import Mathlib

/-!
# Runs as data

A move says which step is made.  The world after a move is computed (`World.play`), and so is the world
after a list of moves, as long as the rules allow each of them (`World.replay`).  Every step is the effect
of a move that is allowed (`World.step_iff`), so that the runs are what can be replayed
(`World.run_iff_replay`).  To evaluate a replay, open it down to the scopes and guards, where closed keys
are compared letter by letter (`Snapshot.under_eq`, `Store.holds_eq`).
-/

namespace Allotment

/-- The guards as one function, whose scopes can be opened. -/
theorem Store.holds_eq (s : Store) :
    s.holds = fun
      | .modified key revision => ((s.live.get? key).map (·.modified)).getD 0 == revision
      | .unchanged scope revision =>
        decide (s.compacted ≤ revision) &&
          (s.live.under scope).all (fun b => decide (b.2.modified ≤ revision)) &&
          (s.tombstones.under scope).all (fun b => decide (b.2 ≤ revision)) := by
  funext g
  cases g <;> rfl

/-! ### Moves -/

/-- A step, as data.  A draft is named by its place among the drafts. -/
inductive Move where
  | edit (t : Transaction)
  | plan (m : MemberId) (b : Bounds) (revision : Int)
  | submit (n : Nat)
  | withdraw (n : Nat)
  | compact (revision : Int)
  | setAvailable (available : Bool)

/-- A move that the rules allow in a world. -/
def Rules.Allow (rules : Rules) (w : World) : Move → Prop
  | .edit t => rules.edits t
  | .plan m _ revision => rules.plans w m revision
  | _ => True

instance Rules.decidableAllow (rules : Rules) [DecidablePred rules.edits]
    [∀ w m revision, Decidable (rules.plans w m revision)] (w : World) :
    DecidablePred (rules.Allow w)
  | .edit t => inferInstanceAs (Decidable (rules.edits t))
  | .plan m _ revision => inferInstanceAs (Decidable (rules.plans w m revision))
  | .submit _ | .withdraw _ | .compact _ | .setAvailable _ => inferInstanceAs (Decidable True)

namespace World

variable {l : Layout} {rules : Rules} {w w' : World}

/-- The world after a move, if it can be made. -/
def play (l : Layout) (w : World) : Move → Option World
  | .edit t =>
    match w.store.commit t with
    | .ok (s, _) => some (w.advance t s)
    | .error _ => none
  | .plan m b revision =>
    if revision ≤ w.store.revision then
      match w.log.snapshotAt l revision with
      | .ok snapshot =>
        (Proposal.ofSnapshot snapshot m b).map fun p =>
          { w with drafts := ⟨m, b, snapshot, p⟩ :: w.drafts }
      | .error _ => none
    else none
  | .submit n =>
    match w.drafts.drop n with
    | [] => none
    | d :: after =>
      match w.store.commit d.proposal.transaction with
      | .ok (s, reply) => some (w.submitted d (w.drafts.take n ++ after) s reply)
      | .error _ => none
  | .withdraw n =>
    match w.drafts.drop n with
    | [] => none
    | _ :: after => some { w with drafts := w.drafts.take n ++ after }
  | .compact revision => some { w with store := w.store.compact revision }
  | .setAvailable available => some { w with store := w.store.setAvailable available }

theorem play_edit_eq_some_iff {t : Transaction} : w.play l (.edit t) = some w' ↔
    ∃ s reply, w.store.commit t = .ok (s, reply) ∧ w' = w.advance t s := by
  simp only [play]
  constructor
  · intro h
    split at h
    next s reply hc => exact ⟨s, reply, hc, (Option.some.inj h).symm⟩
    next => exact nomatch h
  · rintro ⟨s, reply, hc, rfl⟩
    simp only [hc]

theorem play_plan_eq_some_iff {m : MemberId} {b : Bounds} {revision : Int} :
    w.play l (.plan m b revision) = some w' ↔ revision ≤ w.store.revision ∧
      ∃ snapshot p, w.log.snapshotAt l revision = .ok snapshot ∧
        Proposal.ofSnapshot snapshot m b = some p ∧
          w' = { w with drafts := ⟨m, b, snapshot, p⟩ :: w.drafts } := by
  simp only [play]
  constructor
  · intro h
    split at h
    next hr =>
      split at h
      next snapshot hs =>
        obtain ⟨p, hp, rfl⟩ := Option.map_eq_some_iff.1 h
        exact ⟨hr, snapshot, p, hs, hp, rfl⟩
      next => exact nomatch h
    next => exact nomatch h
  · rintro ⟨hr, snapshot, p, hs, hp, rfl⟩
    simp only [if_pos hr, hs, hp, Option.map_some]

theorem play_submit_eq_some_iff {n : Nat} : w.play l (.submit n) = some w' ↔
    ∃ d after s reply, w.drafts.drop n = d :: after ∧
      w.store.commit d.proposal.transaction = .ok (s, reply) ∧
        w' = w.submitted d (w.drafts.take n ++ after) s reply := by
  simp only [play]
  constructor
  · intro h
    split at h
    next => exact nomatch h
    next d after hd =>
      split at h
      next s reply hc => exact ⟨d, after, s, reply, hd, hc, (Option.some.inj h).symm⟩
      next => exact nomatch h
  · rintro ⟨d, after, s, reply, hd, hc, rfl⟩
    simp only [hd, hc]

theorem play_withdraw_eq_some_iff {n : Nat} : w.play l (.withdraw n) = some w' ↔
    ∃ d after, w.drafts.drop n = d :: after ∧
      w' = { w with drafts := w.drafts.take n ++ after } := by
  simp only [play]
  constructor
  · intro h
    split at h
    next => exact nomatch h
    next d after hd => exact ⟨d, after, hd, (Option.some.inj h).symm⟩
  · rintro ⟨d, after, hd, rfl⟩
    simp only [hd]

theorem step_of_play {move : Move} (ha : rules.Allow w move) (h : w.play l move = some w') :
    Step l rules w w' := by
  have hsplit : ∀ {n : Nat} {d : Draft} {after : List Draft}, w.drafts.drop n = d :: after →
      w.drafts = w.drafts.take n ++ d :: after := fun hd => by
    rw [← hd, List.take_append_drop]
  cases move with
  | edit t =>
    obtain ⟨s, reply, hc, rfl⟩ := play_edit_eq_some_iff.1 h
    exact .edit ha hc
  | plan m b revision =>
    obtain ⟨hr, snapshot, p, hs, hp, rfl⟩ := play_plan_eq_some_iff.1 h
    exact .plan hr ha hs hp
  | submit n =>
    obtain ⟨d, after, s, reply, hd, hc, rfl⟩ := play_submit_eq_some_iff.1 h
    exact .submit (hsplit hd) hc
  | withdraw n =>
    obtain ⟨d, after, hd, rfl⟩ := play_withdraw_eq_some_iff.1 h
    exact .withdraw (hsplit hd)
  | compact revision =>
    obtain rfl := Option.some.inj h
    exact .compact revision
  | setAvailable available =>
    obtain rfl := Option.some.inj h
    exact .setAvailable available

theorem exists_play_of_step (h : Step l rules w w') :
    ∃ move, rules.Allow w move ∧ w.play l move = some w' := by
  cases h with
  | @edit t s reply ht hc => exact ⟨.edit t, ht, play_edit_eq_some_iff.2 ⟨s, reply, hc, rfl⟩⟩
  | @plan m b revision snapshot p hr hm hs hp =>
    exact ⟨.plan m b revision, hm, play_plan_eq_some_iff.2 ⟨hr, snapshot, p, hs, hp, rfl⟩⟩
  | @submit d before after s reply hd hc =>
    refine ⟨.submit before.length, trivial,
      play_submit_eq_some_iff.2 ⟨d, after, s, reply, ?_, hc, ?_⟩⟩
    · rw [hd, List.drop_left]
    · rw [hd, List.take_left]
  | @withdraw d before after hd =>
    refine ⟨.withdraw before.length, trivial, play_withdraw_eq_some_iff.2 ⟨d, after, ?_, ?_⟩⟩
    · rw [hd, List.drop_left]
    · rw [hd, List.take_left]
  | compact revision => exact ⟨.compact revision, trivial, rfl⟩
  | setAvailable available => exact ⟨.setAvailable available, trivial, rfl⟩

/-- A step is the effect of a move that is allowed. -/
theorem step_iff : Step l rules w w' ↔ ∃ move, rules.Allow w move ∧ w.play l move = some w' :=
  ⟨exists_play_of_step, fun ⟨_, ha, h⟩ => step_of_play ha h⟩

variable [DecidablePred rules.edits] [∀ w m revision, Decidable (rules.plans w m revision)]

/-- The world after some moves, if each of them is allowed and can be made. -/
def replay (l : Layout) (rules : Rules) [DecidablePred rules.edits]
    [∀ w m revision, Decidable (rules.plans w m revision)] (w : World) : List Move → Option World
  | [] => some w
  | move :: moves =>
    if rules.Allow w move then (w.play l move).bind fun w' => w'.replay l rules moves else none

theorem run_of_replay {moves : List Move} (h : w.replay l rules moves = some w') :
    Run l rules w w' := by
  have hfrom : ∀ {u}, Run l rules w u → u.replay l rules moves = some w' → Run l rules w w' := by
    clear h
    induction moves with
    | nil =>
      intro u hu h
      obtain rfl := Option.some.inj h
      exact hu
    | cons move moves ih =>
      intro u hu h
      simp only [replay] at h
      split at h
      next ha =>
        obtain ⟨v, hv, h⟩ := Option.bind_eq_some_iff.1 h
        exact ih (hu.step (step_of_play ha hv)) h
      next => exact nomatch h
  exact hfrom .refl h

theorem replay_append (moves moves' : List Move) (w : World) :
    w.replay l rules (moves ++ moves') =
      (w.replay l rules moves).bind fun u => u.replay l rules moves' := by
  induction moves generalizing w with
  | nil => rfl
  | cons move moves ih =>
    simp only [List.cons_append, replay]
    split
    next =>
      rw [Option.bind_assoc]
      exact congrArg _ (funext ih)
    next => rfl

/-- The runs are what can be replayed. -/
theorem run_iff_replay :
    Run l rules w w' ↔ ∃ moves, w.replay l rules moves = some w' := by
  refine ⟨fun h => ?_, fun ⟨_, h⟩ => run_of_replay h⟩
  induction h with
  | refl => exact ⟨[], rfl⟩
  | @step u v _ hs ih =>
    obtain ⟨moves, hm⟩ := ih
    obtain ⟨move, ha, hp⟩ := step_iff.1 hs
    refine ⟨moves ++ [move], ?_⟩
    simp only [replay_append, hm, Option.bind_some, replay, if_pos ha, hp]

/-! ### A first run -/

/-- The world of an empty store. -/
def fresh : World :=
  ⟨Store.empty, [], [], fun _ => 0⟩

theorem isStart_fresh : fresh.IsStart :=
  ⟨Chronicle.Reached.empty, rfl, fun _ => rfl⟩

/-- An item and a member with room for it are put, the member plans, and another item is put. -/
def staleDraft : List Move :=
  [.edit ⟨[], [.put "/r/items/job" (Item.encode 1), .put "/r/members/east/one" (Member.encode 1)]⟩,
    .plan ⟨"east", "one"⟩ Bounds.standard 1,
    .edit ⟨[], [.put "/r/items/more" (Item.encode 1)]⟩]

end World

end Allotment
