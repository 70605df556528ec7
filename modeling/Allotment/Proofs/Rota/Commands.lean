import Allotment.Proofs.Store.Requests
import Allotment.Proofs.Store.Watches
import Allotment.Rota

/-!
# What commands make of a rota

Everything that a command does to a rota is a step of its hub, a look for the latest snapshot, a count in its
report or the submission of a proposal on the latest snapshot.  So what these keep is kept by every command
(`Rota.Invariant.perform`); it may speak of the proposals that have been submitted so far, and of the store's
answers (`Rota.Submission`).
-/

namespace Allotment

/-! ### The latest snapshot -/

namespace Observer

theorem store_advance (o : Observer) (h : Hub) (id : WatchId) (cancelled : Bool) :
    (o.advance h id cancelled).2.store = h.store := by
  unfold advance
  split
  next => rfl
  next =>
    split
    next => rfl
    next =>
      dsimp only
      split
      · rfl
      · rfl

/-- The task reads the store only. -/
theorem store_run (o : Observer) (h : Hub) : (o.run h).2.store = h.store := by
  unfold run
  split
  next =>
    split
    next => rfl
    next =>
      split
      next => rfl
      next hw => exact (store_advance _ _ _ _).trans (Hub.store_of_watch hw)
  next => exact store_advance _ _ _ _
  next => rfl

theorem store_attempt (o : Observer) (h : Hub) (w : Wait) : (o.attempt h w).2.2.store = h.store := by
  unfold attempt
  cases w.ready? o.cache with
  | some outcome => rfl
  | none => exact store_run o h

/-- Who has reached a revision reaches it again at once. -/
theorem attempt_of_attempt {o o' : Observer} {h h' : Hub} {w : Wait} {outcome : Outcome}
    (ha : o.attempt h w = (some outcome, o', h')) : o'.attempt h' w = (some outcome, o', h') := by
  unfold attempt at ha
  split at ha
  next hready =>
    obtain ⟨heq, rfl, rfl⟩ := by simpa only [Prod.mk.injEq] using ha
    obtain rfl := Option.some.inj heq
    unfold attempt
    simp only [hready]
  next =>
    obtain ⟨hready, hran⟩ := Prod.mk.inj ha
    obtain rfl : (o.run h).1 = o' := congrArg Prod.fst hran
    obtain rfl : (o.run h).2 = h' := congrArg Prod.snd hran
    unfold attempt
    simp only [hready]

end Observer

namespace Rota

theorem store_latest (r : Rota) : r.latest.1.hub.store = r.hub.store :=
  Observer.store_attempt _ _ _

/-- Once the latest snapshot has been found, it is found again at once, whatever is reported. -/
theorem latest_of_latest {r r' : Rota} {s : Snapshot} (h : r.latest = (r', .ok s)) (report : RotaReport) :
    latest { r' with report } = ({ r' with report }, .ok s) := by
  unfold latest at h
  cases ha : r.observer.attempt r.hub ⟨r.hub.store.revision, false⟩ with
  | mk outcome rest =>
    obtain ⟨o, hub⟩ := rest
    simp only [ha] at h
    obtain ⟨rfl, hs⟩ := Prod.mk.inj h
    split at hs
    next t =>
      obtain rfl := Except.ok.inj hs
      have hagain := Observer.attempt_of_attempt ha
      have hstore := Observer.store_attempt r.observer r.hub ⟨r.hub.store.revision, false⟩
      rw [ha] at hstore
      dsimp only at hstore
      unfold latest
      simp only [hstore, hagain]
    next => exact nomatch hs
    next => exact nomatch hs

/-! ### Submissions -/

/-- A proposal that a member has submitted, and what the store has answered. -/
structure Submission where
  proposal : Proposal
  answer : Except StoreError Reply

/-- The store has carried out the proposal. -/
def Submission.isCarriedOut (sub : Submission) : Bool :=
  sub.answer.toOption.any (·.succeeded)

/-- What submitting a proposal is to lead to. -/
def submission (r : Rota) (p : Proposal) : Submission :=
  ⟨p, (r.hub.store.commit p.transaction).map (·.2)⟩

/-- What a member submits in a round. -/
def roundSubmissions (r : Rota) (m : MemberId) : List Submission :=
  match r.latest with
  | (_, .error _) => []
  | (r, .ok s) =>
    match Proposal.ofSnapshot s m r.bounds with
    | none => []
    | some p => if p.isEmpty then [] else [r.submission p]

/-- What some members submit in their rounds, up to a round that fails. -/
def roundsSubmissions (r : Rota) : List MemberId → List Submission
  | [] => []
  | m :: ms =>
    r.roundSubmissions m ++
      match r.round m with
      | (_, .error _) => []
      | (r, .ok _) => r.roundsSubmissions ms

/-- What all members submit in a pass. -/
def passSubmissions (r : Rota) : List Submission :=
  match r.latest with
  | (_, .error _) => []
  | (r, .ok s) => r.roundsSubmissions (s.members.map (·.value.id))

/-- What all members submit in several passes, up to one that fails or changes nothing. -/
def passesSubmissions (r : Rota) : (limit : Nat) → List Submission
  | 0 => []
  | limit + 1 =>
    r.passSubmissions ++
      match r.pass with
      | (r, .ok true) => r.passesSubmissions limit
      | _ => []

/-- What is submitted in the course of a command. -/
def submissions (r : Rota) : Command → List Submission
  | .round m => r.roundSubmissions m
  | .pass => r.passSubmissions
  | .run limit => r.passesSubmissions limit
  | _ => []

/-! ### Writes from outside -/

/-- Everything that a command asks the store to write lies under a scope. -/
def Command.WritesUnder (scope : String) : Command → Prop
  | .store q => q.WritesUnder scope
  | _ => True

instance (scope : String) : DecidablePred (Command.WritesUnder scope)
  | .store q => inferInstanceAs (Decidable (q.WritesUnder scope))
  | .createMembers _ _ | .limitMembers _ _ | .createItems _ _ | .replicateItems _ _ | .round _ | .pass
  | .run _ | .report | .latest => inferInstanceAs (Decidable True)

theorem mem_of_mem_pieces {α : Type} {size : Nat} {l piece : List α} {x : α}
    (hpiece : piece ∈ pieces size l) (hx : x ∈ piece) : x ∈ l := by
  induction l using pieces.induct size with
  | case1 l hl =>
    rw [pieces, dif_pos hl] at hpiece
    exact nomatch hpiece
  | case2 l hl _ ih =>
    rw [pieces, dif_neg hl] at hpiece
    rcases List.mem_cons.1 hpiece with rfl | hlater
    · exact List.mem_of_mem_take hx
    · exact List.mem_of_mem_drop (ih hlater)

theorem startsWith_memberBindings {l : Layout} {ms : List MemberId} {limit : Nat} :
    ∀ kv ∈ memberBindings l ms limit, kv.1.startsWith l.scope = true := by
  intro kv hkv
  obtain ⟨m, -, rfl⟩ := List.mem_map.1 hkv
  rw [String.startsWith_string_iff]
  simp [Layout.scope, Layout.memberKey]

theorem startsWith_itemBindings {l : Layout} {ids : List String} {replication : Nat} :
    ∀ kv ∈ itemBindings l ids replication, kv.1.startsWith l.scope = true := by
  intro kv hkv
  obtain ⟨id, -, rfl⟩ := List.mem_map.1 hkv
  rw [String.startsWith_string_iff]
  simp [Layout.scope, Layout.itemKey]

/-! ### Invariants -/

/-- What is kept by everything that commands are made of, as long as they write under a scope. -/
structure Invariant (scope : String) (inv : Rota → List Submission → Prop) : Prop where
  rooted : ∀ {r subs}, inv r subs → ∀ k : String, k.startsWith r.layout.scope = true →
    k.startsWith scope = true
  hub : ∀ {r subs hub}, inv r subs → Hub.Step scope r.hub hub → inv { r with hub } subs
  latest : ∀ {r subs}, inv r subs → inv r.latest.1 subs
  counted : ∀ {r subs}, inv r subs → ∀ passes rounds,
    inv { r with report := { r.report with passes, rounds } } subs
  submit : ∀ {r subs s m p}, inv r subs → r.latest = (r, .ok s) →
    Proposal.ofSnapshot s m r.bounds = some p → p.isEmpty = false →
      inv (r.submit m p).1 (subs ++ [r.submission p])

namespace Invariant

variable {scope : String} {inv : Rota → List Submission → Prop} {r : Rota} {subs : List Submission}

theorem steps (hi : Invariant scope inv) (h : inv r subs) {hub : Hub} (hs : Hub.Steps scope r.hub hub) :
    inv { r with hub } subs := by
  induction hs with
  | refl => exact h
  | @tail b c _ hstep ih => exact hi.hub (r := { r with hub := b }) ih hstep

theorem round (hi : Invariant scope inv) (h : inv r subs) (m : MemberId) :
    inv (r.round m).1 (subs ++ r.roundSubmissions m) := by
  have hlatest := hi.latest h
  unfold Rota.round roundSubmissions
  cases hl : r.latest with
  | mk r' found =>
    rw [hl] at hlatest
    cases found with
    | error e => exact (List.append_nil subs).symm ▸ hlatest
    | ok s =>
      unfold Proposal.require
      cases hp : Proposal.ofSnapshot s m r'.bounds with
      | none =>
        simp only [hp]
        exact (List.append_nil subs).symm ▸ hlatest
      | some p =>
        have hcounted := hi.counted hlatest r'.report.passes (r'.report.rounds + 1)
        simp only [hp]
        cases hempty : p.isEmpty with
        | true => exact (List.append_nil subs).symm ▸ hcounted
        | false => exact hi.submit hcounted (latest_of_latest hl _) hp hempty

theorem rounds (hi : Invariant scope inv) (h : inv r subs) (busy : Bool) (ms : List MemberId) :
    inv (r.rounds busy ms).1 (subs ++ r.roundsSubmissions ms) := by
  induction ms generalizing r subs busy with
  | nil => exact (List.append_nil subs).symm ▸ h
  | cons m ms ih =>
    have hround := hi.round h m
    unfold Rota.rounds roundsSubmissions
    cases hr : r.round m with
    | mk r' done =>
      rw [hr] at hround
      rw [← List.append_assoc]
      cases done with
      | error e => exact (List.append_nil _).symm ▸ hround
      | ok p => exact ih hround _

theorem pass (hi : Invariant scope inv) (h : inv r subs) :
    inv r.pass.1 (subs ++ r.passSubmissions) := by
  have hlatest := hi.latest h
  unfold Rota.pass passSubmissions
  cases hl : r.latest with
  | mk r' found =>
    rw [hl] at hlatest
    cases found with
    | error e => exact (List.append_nil subs).symm ▸ hlatest
    | ok s =>
      have hrounds := hi.rounds hlatest false (s.members.map (·.value.id))
      dsimp only
      split
      next he => exact he ▸ hrounds
      next r'' busy he =>
        rw [he] at hrounds
        exact hi.counted hrounds (r''.report.passes + 1) r''.report.rounds

theorem passes (hi : Invariant scope inv) (h : inv r subs) (limit : Nat) :
    inv (r.passes limit).1 (subs ++ r.passesSubmissions limit) := by
  induction limit generalizing r subs with
  | zero => exact (List.append_nil subs).symm ▸ h
  | succ limit ih =>
    have hpass := hi.pass h
    unfold Rota.passes passesSubmissions
    rw [← List.append_assoc]
    generalize r.pass = passed at hpass ⊢
    obtain ⟨r', e | _ | _⟩ := passed
    · exact (List.append_nil _).symm ▸ hpass
    · exact (List.append_nil _).symm ▸ hpass
    · exact ih hpass

theorem run (hi : Invariant scope inv) (h : inv r subs) (limit : Nat) :
    inv (r.run limit).1 (subs ++ r.passesSubmissions limit) := by
  have hpasses := hi.passes h limit
  unfold Rota.run
  generalize r.passes limit = passed at hpasses ⊢
  obtain ⟨r', e | _ | _⟩ := passed
  · exact hpasses
  · exact hpasses
  · exact hpasses

theorem written (hi : Invariant scope inv) (h : inv r subs) {written : Except EditError (Hub × Int)}
    (hw : ∀ hub revision, written = .ok (hub, revision) → Hub.Steps scope r.hub hub) :
    inv (r.written written).1 subs := by
  cases written with
  | error e => exact h
  | ok answer => exact hi.steps h (hw answer.1 answer.2 rfl)

theorem answer {α : Type} (ok : α → Result) {x : Rota × Except RotaError α} (h : inv x.1 subs) :
    inv (Rota.answer ok x).1 subs := by
  obtain ⟨r', a | e⟩ := x
  · exact h
  · exact h

/-- What everything that commands are made of keeps, a command keeps. -/
theorem perform (hi : Invariant scope inv) (h : inv r subs) {c : Command} (hc : c.WritesUnder scope) :
    inv (r.perform c).1 (subs ++ r.submissions c) := by
  have hnone : subs ++ [] = subs := List.append_nil subs
  have hrooted := hi.rooted h
  cases c with
  | store q => exact hnone.symm ▸ hi.steps h (r.hub.steps_perform hc)
  | createMembers ms limit =>
    refine hnone.symm ▸ answer _ (hi.written h fun hub revision hw => Hub.steps_insert hw ?_)
    exact fun kv hkv => hrooted kv.1 (startsWith_memberBindings kv hkv)
  | limitMembers ms limit =>
    refine hnone.symm ▸ answer _ (hi.written h fun hub revision hw => Hub.steps_update hw ?_)
    exact fun kv hkv => hrooted kv.1 (startsWith_memberBindings kv hkv)
  | createItems ids replication =>
    refine hnone.symm ▸ answer _ (hi.steps h (Hub.steps_insertAll fun kvs hkvs kv hkv => ?_))
    exact hrooted kv.1 (startsWith_itemBindings kv (mem_of_mem_pieces hkvs hkv))
  | replicateItems ids replication =>
    refine hnone.symm ▸ answer _ (hi.written h fun hub revision hw => Hub.steps_update hw ?_)
    exact fun kv hkv => hrooted kv.1 (startsWith_itemBindings kv hkv)
  | round m => exact answer _ (hi.round h m)
  | pass => exact answer _ (hi.pass h)
  | run limit => exact answer _ (hi.run h limit)
  | report => exact hnone.symm ▸ h
  | latest => exact hnone.symm ▸ answer _ (hi.latest h)

end Invariant

end Rota

end Allotment
