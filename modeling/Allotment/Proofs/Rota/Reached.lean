import Allotment.Proofs.Cache.Watched
import Allotment.Proofs.Rota.Commands

/-!
# The rotas that can come about

A rota is started over a store that is written under its root only, and then takes commands while others
write under the root, open watches of their own and let its task run (`Rota.Reached`).  Whatever happens,
its store has a chronicle that its cache tracks (`Rota.Sound`, `Reached.sound`): every command keeps it so,
since members write assignments of the keyspace only (`Sound.invariant`).
-/

namespace Allotment

/-! ### A hub with an observer -/

/-- The store has a chronicle, all of it under the root, that the cache tracks. -/
structure Observed (l : Layout) (log : Chronicle) (o : Observer) (h : Hub) : Prop where
  reached : log.Reached h.store
  inside : log.Inside l.scope
  numbered : h.IsNumbered
  sound : o.Sound l log h

variable {l : Layout} {log : Chronicle} {o : Observer} {h h' : Hub}

theorem Watched.observed (hw : Watched l log o h) (hinside : log.Inside l.scope) : Observed l log o h :=
  ⟨hw.reached, hinside, hw.numbered, hw.sound⟩

namespace Observed

theorem watched (ho : Observed l log o h) : Watched l log o h :=
  ⟨ho.reached, ho.numbered, ho.sound⟩

theorem remembers (ho : Observed l log o h) : log.Remembers h.store :=
  ho.reached.remembers

theorem commit (ho : Observed l log o h) {t : Transaction} {reply : Reply}
    (hc : h.commit t = .ok (h', reply)) (ht : ∀ w ∈ t.writes, w.key.startsWith l.scope = true) :
    Observed l (log ++ (h.store.response? t).toList) o h' :=
  (ho.watched.commit hc).observed (ho.inside.append (Chronicle.inside_response? ht))

theorem run (ho : Observed l log o h) : Observed l log (o.run h).1 (o.run h).2 :=
  ho.watched.run.observed ho.inside

end Observed

namespace Rota

variable {r : Rota}

/-! ### Watched stores of rotas -/

theorem watched_start {b : Bounds} (hw : Watched l log (Observer.empty l) h)
    (hr : Rota.start h l b = .ok r) : Watched l log r.observer r.hub := by
  unfold Rota.start at hr
  cases ho : (Observer.empty l).load h 0 with
  | error e =>
    rw [ho] at hr
    exact nomatch hr
  | ok o =>
    rw [ho] at hr
    obtain rfl := Except.ok.inj hr
    exact (hw.load rfl ho).spawn false

/-- What a rota takes for the latest snapshot is what its cache has published, and not older than the
store. -/
theorem watched_latest (hw : Watched l log r.observer r.hub) :
    Watched l log r.latest.1.observer r.latest.1.hub ∧ ∀ s, r.latest.2 = .ok s →
      s = r.latest.1.observer.cache.snapshot ∧ r.hub.store.revision ≤ s.revision := by
  obtain ⟨hlatest, hreached⟩ := hw.attempt ⟨r.hub.store.revision, false⟩
  refine ⟨hlatest, fun s he => hreached s ?_⟩
  unfold Rota.latest at he
  dsimp only at he
  split at he
  next hs => rw [hs, Except.ok.inj he]
  next => exact nomatch he
  next => exact nomatch he

theorem watched_submit (hw : Watched l log r.observer r.hub) (m : MemberId) {p : Proposal} {scope : String}
    (hp : ∀ w ∈ p.transaction.writes, w.key.startsWith scope = true) :
    ∃ later : Chronicle, Watched l (log ++ later) (r.submit m p).1.observer (r.submit m p).1.hub ∧
      later.Inside scope := by
  unfold Rota.submit
  split
  next => exact ⟨[], (List.append_nil log).symm ▸ hw, fun e he => nomatch he⟩
  next hub reply hc =>
    have hcommit := hw.commit hc
    refine ⟨(r.hub.store.response? p.transaction).toList, ?_, Chronicle.inside_response? hp⟩
    split
    next =>
      dsimp only
      have hlatest := watched_latest (r := { r with
        hub
        report := { r.report with
          commits := r.report.commits + 1
          changes := r.report.changes + p.tally } }) hcommit
      split
      next he =>
        rw [he] at hlatest
        exact hlatest.1
      next he =>
        rw [he] at hlatest
        exact hlatest.1
    next => exact hcommit

/-! ### Rotas over a store that is written under the root -/

/-- The rotas of a keyspace whose store is written under its root only. -/
inductive Reached (l : Layout) : Rota → Prop
  | start {qs : List Request} {b : Bounds} {r : Rota} (hqs : ∀ q ∈ qs, q.WritesUnder l.scope)
      (h : Rota.start (Hub.empty.performAll qs).1 l b = .ok r) : Reached l r
  | perform {r : Rota} (h : Reached l r) {c : Command} (hc : c.WritesUnder l.scope) :
      Reached l (r.perform c).1
  /-- The task is let run. -/
  | run {r : Rota} (h : Reached l r) :
      Reached l { r with observer := (r.observer.run r.hub).1, hub := (r.observer.run r.hub).2 }
  /-- Others do what they like with watches of their own. -/
  | others {r : Rota} {hub : Hub} (h : Reached l r) (hstore : hub.store = r.hub.store)
      (hnumbered : hub.IsNumbered)
      (hown : ∀ id, r.observer.stream = some id → hub.watch? id = r.hub.watch? id) :
      Reached l { r with hub }

/-- The store has a chronicle, all of it under the root, that the cache tracks. -/
def Sound (l : Layout) (log : Chronicle) (r : Rota) : Prop :=
  Observed l log r.observer r.hub

namespace Sound

theorem layout_eq (hs : r.Sound l log) : r.layout = l :=
  hs.sound.layout

/-- Members write assignments of the keyspace only. -/
theorem startsWith_of_proposal {s : Snapshot} (hs : log.Attests s) (hl : s.layout = l) {m : MemberId}
    {b : Bounds} {p : Proposal} (hp : Proposal.ofSnapshot s m b = some p) {w : Write}
    (hw : w ∈ p.transaction.writes) : w.key.startsWith l.scope = true := by
  obtain ⟨entry, ts, hm⟩ := Proposal.made_of_ofSnapshot hp
  rw [hm.writes] at hw
  obtain ⟨t, ht, hw⟩ := List.mem_flatMap.1 hw
  have hscope := hm.startsWith_of_mem_writes hs ht hw
  rw [hl] at hscope
  exact Layout.startsWith_scope_of_itemScope hscope

theorem submit (hs : r.Sound l log) (m : MemberId) {p : Proposal}
    (hp : ∀ w ∈ p.transaction.writes, w.key.startsWith l.scope = true) :
    ∃ log', (r.submit m p).1.Sound l log' := by
  obtain ⟨later, hw, hlater⟩ := watched_submit hs.watched m hp
  exact ⟨_, hw.observed (hs.inside.append hlater)⟩

/-- Commands that write under the root keep a rota sound. -/
theorem invariant (l : Layout) : Invariant l.scope fun r _ => ∃ log, r.Sound l log where
  rooted := by
    rintro r subs ⟨log, hs⟩ k hk
    exact hs.layout_eq ▸ hk
  hub := by
    rintro r subs hub ⟨log, hs⟩ hstep
    obtain ⟨later, hw, hlater⟩ := hs.watched.steps (.single hstep)
    exact ⟨_, hw.observed (hs.inside.append hlater)⟩
  latest := by
    rintro r subs ⟨log, hs⟩
    exact ⟨log, (watched_latest hs.watched).1.observed hs.inside⟩
  counted := fun h _ _ => h
  submit := by
    rintro r subs s m p ⟨log, hs⟩ hlatest hp -
    obtain ⟨hw, hsnapshot⟩ := watched_latest hs.watched
    rw [hlatest] at hw hsnapshot
    obtain rfl : s = r.observer.cache.snapshot := (hsnapshot s rfl).1
    exact hs.submit m fun w hmem => startsWith_of_proposal hw.sound.tracks.published hw.sound.layout hp hmem

end Sound

/-- The rota after some commands. -/
def performAll (r : Rota) (cs : List Command) : Rota :=
  cs.foldl (fun r c => (r.perform c).1) r

theorem Reached.performAll {l : Layout} {r : Rota} (h : Reached l r) {cs : List Command}
    (hcs : ∀ c ∈ cs, c.WritesUnder l.scope) : Reached l (r.performAll cs) := by
  induction cs generalizing r with
  | nil => exact h
  | cons c cs ih =>
    obtain ⟨hc, hrest⟩ := List.forall_mem_cons.1 hcs
    exact ih (h.perform hc) hrest

/-- Every rota that can come about is sound. -/
theorem Reached.sound (h : Reached l r) : ∃ log, r.Sound l log := by
  induction h with
  | start hqs h =>
    obtain ⟨log, hw, hinside⟩ := (Watched.empty l).steps (Hub.steps_performAll _ hqs)
    exact ⟨_, (watched_start hw h).observed hinside⟩
  | perform h hc ih => exact @Invariant.perform _ _ _ [] (Sound.invariant l) ih _ hc
  | run h ih =>
    obtain ⟨log, hs⟩ := ih
    exact ⟨log, Observed.run hs⟩
  | others h hstore hnumbered hown ih =>
    obtain ⟨log, hs⟩ := ih
    exact ⟨log, (hs.watched.others hstore hnumbered hown).observed hs.inside⟩

end Rota

end Allotment
