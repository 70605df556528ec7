import Allotment.Store.Request
import Mathlib.Logic.Relation

/-!
# What requests do to a hub

Whatever it is asked for, a hub takes a few kinds of steps only: it commits a transaction, closes its
watches, forgets responses, or becomes available or not (`Hub.Step`).  If all that a request writes lies
under a scope, then so does all that is committed on the way (`Hub.steps_perform`), so that an invariant has
to be shown for these steps alone.
-/

namespace Allotment

/-- Everything that a request writes lies under a scope. -/
def Request.WritesUnder (scope : String) : Request → Prop
  | .transaction t => ∀ w ∈ t.writes, w.key.startsWith scope = true
  | .insert kvs => ∀ kv ∈ kvs, kv.1.startsWith scope = true
  | .update kvs => ∀ kv ∈ kvs, kv.1.startsWith scope = true
  | .remove keys => ∀ k ∈ keys, k.startsWith scope = true
  | _ => True

instance (scope : String) : DecidablePred (Request.WritesUnder scope)
  | .transaction t => inferInstanceAs (Decidable (∀ w ∈ t.writes, w.key.startsWith scope = true))
  | .insert kvs => inferInstanceAs (Decidable (∀ kv ∈ kvs, kv.1.startsWith scope = true))
  | .update kvs => inferInstanceAs (Decidable (∀ kv ∈ kvs, kv.1.startsWith scope = true))
  | .remove keys => inferInstanceAs (Decidable (∀ k ∈ keys, k.startsWith scope = true))
  | .range _ _ | .get _ | .count _ | .revision | .compact _ | .setAvailable _ | .closeWatches =>
    inferInstanceAs (Decidable True)

/-- Every key lies under the empty scope. -/
theorem startsWith_empty (key : String) : key.startsWith "" = true := by
  rw [String.startsWith_string_iff]
  exact List.nil_prefix

theorem Request.writesUnder_empty (q : Request) : q.WritesUnder "" := by
  cases q with
  | transaction t => exact fun w _ => startsWith_empty w.key
  | insert kvs => exact fun kv _ => startsWith_empty kv.1
  | update kvs => exact fun kv _ => startsWith_empty kv.1
  | remove keys => exact fun k _ => startsWith_empty k
  | _ => trivial

namespace Hub

/-- A step of a hub that writes under a scope only. -/
inductive Step (scope : String) : Hub → Hub → Prop
  | commit {h h' : Hub} {t : Transaction} {reply : Reply} (hc : h.commit t = .ok (h', reply))
      (ht : ∀ w ∈ t.writes, w.key.startsWith scope = true) : Step scope h h'
  | closeWatches (h : Hub) : Step scope h h.closeWatches
  | compact (h : Hub) (revision : Int) : Step scope h (h.compact revision)
  | setAvailable (h : Hub) (available : Bool) : Step scope h (h.setAvailable available)

/-- Some steps of a hub, one after another. -/
abbrev Steps (scope : String) : Hub → Hub → Prop :=
  Relation.ReflTransGen (Step scope)

variable {scope : String} {h h' : Hub} {revision : Int} {kvs : List (String × Bytes)}

theorem steps_write {guards : List Guard} (hw : h.write guards kvs = .ok (h', revision))
    (hkvs : ∀ kv ∈ kvs, kv.1.startsWith scope = true) : Steps scope h h' := by
  unfold write at hw
  split at hw
  next => exact nomatch hw
  next h'' reply hc =>
    split at hw
    next =>
      obtain ⟨rfl, -⟩ := Prod.mk.inj (Except.ok.inj hw)
      refine .single (.commit hc fun w hmem => ?_)
      obtain ⟨kv, hkv, rfl⟩ := List.mem_map.1 hmem
      exact hkvs kv hkv
    next => exact nomatch hw

theorem steps_insert (hw : h.insert kvs = .ok (h', revision))
    (hkvs : ∀ kv ∈ kvs, kv.1.startsWith scope = true) : Steps scope h h' :=
  steps_write hw hkvs

theorem steps_insertAll {batches : List (List (String × Bytes))}
    (hkvs : ∀ kvs ∈ batches, ∀ kv ∈ kvs, kv.1.startsWith scope = true) :
    Steps scope h (h.insertAll batches).1 := by
  induction batches generalizing h with
  | nil => exact .refl
  | cons kvs batches ih =>
    obtain ⟨hfirst, hrest⟩ := List.forall_mem_cons.1 hkvs
    unfold insertAll
    split
    next => exact .refl
    next h' revision hw => exact (steps_insert hw hfirst).trans (ih hrest)

theorem steps_update (hw : h.update kvs = .ok (h', revision))
    (hkvs : ∀ kv ∈ kvs, kv.1.startsWith scope = true) : Steps scope h h' := by
  unfold update at hw
  cases hguards : kvs.mapM fun kv => h.currentGuard kv.1 with
  | error e =>
    rw [hguards] at hw
    exact nomatch hw
  | ok guards =>
    rw [hguards] at hw
    exact steps_write hw hkvs

theorem steps_remove {keys : List String} (hw : h.remove keys = .ok (h', revision))
    (hkeys : ∀ k ∈ keys, k.startsWith scope = true) : Steps scope h h' := by
  unfold remove at hw
  split at hw
  next => exact nomatch hw
  next h'' reply hc =>
    obtain ⟨rfl, -⟩ := Prod.mk.inj (Except.ok.inj hw)
    refine .single (.commit hc fun w hmem => ?_)
    obtain ⟨k, hk, rfl⟩ := List.mem_map.1 hmem
    exact hkeys k hk

theorem steps_answerWrite {written : Except EditError (Hub × Int)}
    (hw : ∀ h' revision, written = .ok (h', revision) → Steps scope h h') :
    Steps scope h (h.answerWrite written).1 := by
  cases written with
  | error e => exact .refl
  | ok answer => exact hw answer.1 answer.2 rfl

/-- A request that writes under a scope leads to steps that do. -/
theorem steps_perform (h : Hub) {q : Request} (hq : q.WritesUnder scope) :
    Steps scope h (h.perform q).1 := by
  cases q with
  | transaction t =>
    simp only [perform]
    cases hc : h.commit t with
    | ok answer => exact .single (.commit hc hq)
    | error e => exact .refl
  | range scope revision =>
    simp only [perform]
    cases h.store.read scope revision with
    | ok reading => exact .refl
    | error e => exact .refl
  | get key => exact .refl
  | count scope => exact .refl
  | revision => exact .refl
  | compact revision => exact .single (.compact h revision)
  | setAvailable available => exact .single (.setAvailable h available)
  | closeWatches => exact .single (.closeWatches h)
  | insert kvs => exact steps_answerWrite fun h' revision hw => steps_insert hw hq
  | update kvs => exact steps_answerWrite fun h' revision hw => steps_update hw hq
  | remove keys => exact steps_answerWrite fun h' revision hw => steps_remove hw hq

theorem steps_performAll (h : Hub) {qs : List Request} (hqs : ∀ q ∈ qs, q.WritesUnder scope) :
    Steps scope h (h.performAll qs).1 := by
  induction qs generalizing h with
  | nil => exact .refl
  | cons q qs ih =>
    obtain ⟨hq, hrest⟩ := List.forall_mem_cons.1 hqs
    exact (h.steps_perform hq).trans (ih (h.perform q).1 hrest)

end Hub

end Allotment
