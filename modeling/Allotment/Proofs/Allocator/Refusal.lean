import Allotment.Proofs.Backing
import Allotment.Proofs.Cache.Watched
import Mathlib

/-!
# Why a proposal is refused

A proposal that is refused, on a snapshot whose revision the store still remembers, has been overtaken: some
key of the keyspace has changed after that revision.  So whoever waits for a later revision is woken
(`touched_of_refused`).  A proposal on a snapshot that lies behind the compaction point is refused in any
case.  If nothing has changed in the keyspace meanwhile, then nothing wakes the one who waits, not even when
there are writes elsewhere (`exists_refused_not_touched`).
-/

namespace Allotment

variable {l : Layout} {log : Chronicle} {store store' : Store} {s : Snapshot} {m : MemberId} {b : Bounds}
  {p : Proposal} {reply : Reply}

namespace Proposal

/-- Guards are what a transaction is refused by. -/
theorem guards_ne_of_refused {t : Transaction} (hc : store.commit t = .ok (store', reply))
    (hrefused : reply.succeeded = false) : t.guards.all store.holds ≠ true := by
  intro hall
  obtain ⟨-, ⟨r, -, -, rfl⟩ | ⟨-, -, rfl⟩⟩ := Store.commit_eq_ok_iff.1 hc
  · exact nomatch hrefused
  · exact nomatch hall.symm.trans hrefused

/-- A refused proposal on a snapshot that is not forgotten has been overtaken. -/
theorem touched_of_commit (hlog : log.Explains store) (hs : log.snapshotAt l s.revision = .ok s)
    (hp : ofSnapshot s m b = some p) (hc : store.commit p.transaction = .ok (store', reply))
    (hcompacted : store.compacted ≤ s.revision) (hrefused : reply.succeeded = false) :
    log.Touched l.scope s.revision :=
  Decidable.byContradiction fun hquiet =>
    guards_ne_of_refused hc hrefused (guards_hold hlog hs hcompacted hquiet hp)

/-- A proposal that writes anything is refused if the revision of its snapshot is forgotten. -/
theorem refused_of_lt_compacted (hlog : log.Explains store) (hp : ofSnapshot s m b = some p)
    (hne : p.isEmpty = false) (hc : store.commit p.transaction = .ok (store', reply))
    (hlt : s.revision < store.compacted) : reply.succeeded = false := by
  obtain ⟨item, hguard⟩ := exists_unchanged_guard hp hne
  have hfails : p.transaction.guards.all store.holds = false := by
    refine List.all_eq_false.2 ⟨_, hguard, fun hholds => ?_⟩
    exact Int.not_le.2 hlt (hlog.holds_unchanged_iff.1 hholds).1
  obtain ⟨-, ⟨r, hr, -, -⟩ | ⟨-, -, rfl⟩⟩ := Store.commit_eq_ok_iff.1 hc
  · have hall := (Store.response?_eq_some_iff.1 hr).1
    exact nomatch hfails.symm.trans hall
  · exact hfails

/-- A proposal that is refused although its snapshot is not forgotten has been overtaken by a change in the
keyspace.  So the wait for a later revision ends, whatever else has been committed meanwhile: as long as the
task of the observer is alive it either reaches the change or fails.  A proposal on a forgotten snapshot is
refused in any case, and if nothing changes in the keyspace then an observer at the revision of the snapshot
that follows the store waits in vain. -/
theorem touched_of_refused (hlog : log.Reached store) (hs : log.snapshotAt l s.revision = .ok s)
    (hp : ofSnapshot s m b = some p) (hne : p.isEmpty = false)
    (hc : store.commit p.transaction = .ok (store', reply)) :
    (store.compacted ≤ s.revision → reply.succeeded = false →
      log.Touched l.scope s.revision ∧
        ∀ (later : Chronicle) (o : Observer) (hub : Hub), Watched l (log ++ later) o hub → o.IsAlive →
          ∃ outcome, (o.attempt hub ⟨s.revision + 1, false⟩).1 = some outcome ∧
            (o.IsRunning hub → o.cache.failure = none →
              ∃ t, outcome = .reached t ∧ s.revision < t.revision)) ∧
    (s.revision < store.compacted → reply.succeeded = false ∧
      ∀ (later : Chronicle) (o : Observer) (hub : Hub), Watched l (log ++ later) o hub →
        o.IsRunning hub → o.cache.failure = none → o.cache.revision = s.revision →
          ¬ Chronicle.Touched (log ++ later) l.scope s.revision →
            (o.attempt hub ⟨s.revision + 1, false⟩).1 = none) := by
  refine ⟨fun hcompacted hrefused => ?_, fun hlt => ⟨?_, ?_⟩⟩
  · have htouched := touched_of_commit hlog.explains hs hp hc hcompacted hrefused
    refine ⟨htouched, fun later o hub hw halive => ?_⟩
    obtain ⟨outcome, houtcome⟩ := hw.exists_outcome halive (htouched.append later)
    refine ⟨outcome, houtcome, fun hrun hfailure => ?_⟩
    obtain ⟨t, ht, hle⟩ := hw.exists_reached hrun hfailure (htouched.append later)
    exact ⟨t, Option.some.inj (houtcome.symm.trans ht), hle⟩
  · exact refused_of_lt_compacted hlog.explains hp hne hc hlt
  · intro later o hub hw hrun hfailure hcurrent hquiet
    rw [← hcurrent] at hquiet ⊢
    exact hw.attempt_eq_none hrun hfailure hquiet

/-! ### Two refusals -/

/-- The task that follows a store which has been written to before, and the store after more requests. -/
def amid (l : Layout) (before later : List Request) : Option (Observer × Hub) :=
  let hub := (Hub.empty.performAll before).1
  ((Observer.empty l).load hub 0).toOption.map fun o =>
    let ran := (o.spawn hub false).1.run (o.spawn hub false).2
    (ran.1, (ran.2.performAll later).1)

theorem watched_of_amid {before later : List Request} {o : Observer} {h : Hub}
    (hamid : amid l before later = some (o, h)) : ∃ log, Watched l log o h := by
  obtain ⟨o', ho, heq⟩ := Option.map_eq_some_iff.1 hamid
  obtain ⟨rfl, rfl⟩ := Prod.mk.inj heq
  obtain ⟨log, hw, -⟩ := (Watched.empty l).steps
    (Hub.steps_performAll Hub.empty fun q _ => q.writesUnder_empty)
  have hstarted := ((hw.load (by rfl) (toOption_eq_some_iff.1 ho)).spawn false).run
  obtain ⟨log', hw', -⟩ := hstarted.steps (Hub.steps_performAll _ fun q _ => q.writesUnder_empty)
  exact ⟨_, hw'⟩

/-- An item that nobody holds, and a member with room for it. -/
def vacancy : List Request :=
  [.insert [("/r/items/job", Item.encode 1), ("/r/members/east/one", Member.encode 1)]]

/-- What the cache makes of it. -/
def vacant : Snapshot :=
  ⟨⟨"/r"⟩, 1, ⟨[("/r/items/job", ⟨.item ⟨"job", 1⟩, 1, 1⟩),
    ("/r/members/east/one", ⟨.member ⟨⟨"east", "one"⟩, 1⟩, 1, 1⟩)], by decide⟩⟩

/-- What the member proposes then. -/
def taking : Proposal where
  revision := 1
  transaction := ⟨[.modified "/r/items/job" 1, .unchanged "/r/assignments/job/" 1,
    .modified "/r/members/east/one" 1], [.put "/r/assignments/job/east/one/0" (Assignment.encode false)]⟩
  tally := { Tally.zero with added := 1 }
  drained := false
  deferred := false

theorem ofSnapshot_vacant : ofSnapshot vacant ⟨"east", "one"⟩ Bounds.standard = some taking := by
  simp only [vacant, ofSnapshot, works, Roster.ofSnapshot, Roster.itemIds, Snapshot.members,
    Snapshot.items, Snapshot.assignments, Snapshot.view, Snapshot.under_eq]
  cbv

theorem eq_vacant {s : Snapshot} (hlayout : s.layout = vacant.layout) (hrevision : s.revision = 1)
    (hentries : s.entries.bindings = vacant.entries.bindings) : s = vacant := by
  obtain ⟨l, revision, ⟨bindings, _⟩⟩ := s
  simp only at hlayout hrevision hentries
  subst hlayout hrevision hentries
  rfl

/-- What a script can be evaluated for: afterwards the task follows the store, the member's proposal is
refused, and the wait for the next revision ends, provided that the revision of the snapshot is not
forgotten. -/
def Refuses (later : List Request) (remembered : Bool) : Prop :=
  ((amid ⟨"/r"⟩ vacancy later).any fun x =>
    decide (x.1.cache.snapshot.layout = vacant.layout) && decide (x.1.cache.snapshot.revision = 1) &&
      decide (x.1.cache.snapshot.entries.bindings = vacant.entries.bindings) &&
      decide (x.1.IsFollowing x.2) && decide (x.1.IsRunning x.2) && x.1.cache.failure.isNone &&
      decide (x.2.store.compacted ≤ 1) == remembered &&
      (x.1.attempt x.2 ⟨2, false⟩).1.isSome == remembered &&
      (x.2.store.commit taking.transaction).toOption.any fun answer => !answer.2.succeeded) = true

instance (later : List Request) (remembered : Bool) : Decidable (Refuses later remembered) :=
  inferInstanceAs (Decidable (_ = _))

theorem exists_refused {later : List Request} {remembered : Bool} (h : Refuses later remembered) :
    ∃ log o hub store' reply, Watched ⟨"/r"⟩ log o hub ∧ o.IsAlive ∧ o.IsRunning hub ∧
      o.cache.failure = none ∧ log.snapshotAt ⟨"/r"⟩ vacant.revision = .ok vacant ∧
      decide (hub.store.compacted ≤ 1) = remembered ∧
      (o.attempt hub ⟨2, false⟩).1.isSome = remembered ∧
      hub.store.commit taking.transaction = .ok (store', reply) ∧ reply.succeeded = false := by
  obtain ⟨⟨o, hub⟩, hamid, hfacts⟩ := (Option.any_eq_true _ _).1 h
  simp only [Bool.and_eq_true, beq_iff_eq, decide_eq_true_eq, Option.isNone_iff_eq_none] at hfacts
  obtain ⟨⟨⟨⟨⟨⟨⟨⟨hlayout, hrevision⟩, hentries⟩, hfollowing⟩, hrun⟩, hfailure⟩, hcompacted⟩, hwait⟩,
    hanswer⟩ := hfacts
  obtain ⟨⟨store', reply⟩, hc, hrefused⟩ := (Option.any_eq_true _ _).1 hanswer
  obtain ⟨log, hw⟩ := watched_of_amid hamid
  obtain ⟨id, w, hf, -⟩ := hfollowing
  have hattests : log.Attests o.cache.snapshot := hw.sound.tracks.published
  rw [eq_vacant hlayout hrevision hentries] at hattests
  exact ⟨log, o, hub, store', reply, hw, .inr ⟨id, hf⟩, hrun, hfailure, hattests, hcompacted, hwait,
    toOption_eq_some_iff.1 hc, by simpa using hrefused⟩

/-- The item is changed, and the store forgets what came before the snapshot. -/
theorem touched_of_refused_of_change :
    ∃ log o hub store' reply, Watched ⟨"/r"⟩ log o hub ∧ o.IsAlive ∧ o.IsRunning hub ∧
      o.cache.failure = none ∧ hub.store.compacted ≤ vacant.revision ∧
      log.snapshotAt ⟨"/r"⟩ vacant.revision = .ok vacant ∧
      ofSnapshot vacant ⟨"east", "one"⟩ Bounds.standard = some taking ∧ taking.isEmpty = false ∧
      hub.store.commit taking.transaction = .ok (store', reply) ∧ reply.succeeded = false ∧
      log.Touched (Layout.mk "/r").scope vacant.revision ∧
      ∃ t, (o.attempt hub ⟨vacant.revision + 1, false⟩).1 = some (.reached t) ∧
        vacant.revision < t.revision := by
  have hrefuses : Refuses [.transaction ⟨[], [.put "/r/items/job" (Item.encode 2)]⟩, .compact 1] true := by
    decide +kernel
  obtain ⟨log, o, hub, store', reply, hw, halive, hrun, hfailure, hattests, hcompacted, -, hc, hrefused⟩ :=
    exists_refused hrefuses
  have hcompacted := of_decide_eq_true hcompacted
  obtain ⟨htouched, hwakes⟩ :=
    (touched_of_refused hw.reached hattests ofSnapshot_vacant rfl hc).1 hcompacted hrefused
  obtain ⟨outcome, houtcome, hreached⟩ := hwakes [] o hub (by rwa [List.append_nil]) halive
  obtain ⟨t, rfl, hlt⟩ := hreached hrun hfailure
  exact ⟨log, o, hub, store', reply, hw, halive, hrun, hfailure, hcompacted, hattests, ofSnapshot_vacant,
    rfl, hc, hrefused, htouched, t, houtcome, hlt⟩

/-- Something is written elsewhere, and the store forgets everything up to there.  The proposal is refused,
nothing has changed in the keyspace, and nothing wakes the one who waits. -/
theorem exists_refused_not_touched :
    ∃ log o hub store' reply, Watched ⟨"/r"⟩ log o hub ∧ o.IsAlive ∧ o.IsRunning hub ∧
      o.cache.failure = none ∧ log.snapshotAt ⟨"/r"⟩ vacant.revision = .ok vacant ∧
      ofSnapshot vacant ⟨"east", "one"⟩ Bounds.standard = some taking ∧ taking.isEmpty = false ∧
      hub.store.commit taking.transaction = .ok (store', reply) ∧ reply.succeeded = false ∧
      ¬ log.Touched (Layout.mk "/r").scope vacant.revision ∧
      (o.attempt hub ⟨vacant.revision + 1, false⟩).1 = none := by
  have hrefuses : Refuses [.transaction ⟨[], [.put "/elsewhere" []]⟩, .compact 2] false := by
    decide +kernel
  obtain ⟨log, o, hub, store', reply, hw, halive, hrun, hfailure, hattests, -, hwait, hc, hrefused⟩ :=
    exists_refused hrefuses
  have hnone := Option.isSome_eq_false_iff.1 hwait
  refine ⟨log, o, hub, store', reply, hw, halive, hrun, hfailure, hattests, ofSnapshot_vacant, rfl, hc,
    hrefused, fun htouched => ?_, Option.isNone_iff_eq_none.1 hnone⟩
  obtain ⟨outcome, houtcome⟩ := hw.exists_outcome halive htouched
  exact nomatch houtcome.symm.trans (Option.isNone_iff_eq_none.1 hnone)

end Proposal

end Allotment
