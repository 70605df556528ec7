import Allotment.Proofs.Store.Changes
import Allotment.Store.Versioned

/-!
# Chronicles

A store forgets its responses when it is compacted.  Its chronicle is the list of all responses it has
ever committed, so that `Chronicle.contentsAt` are the contents right after any revision.  `Reached`
says which stores transactions, compactions and changes of availability lead to from the empty one,
and `Chronicle.Explains` what such a store has in common with its chronicle: the last change of a key
decides what is live and what is buried.  From this a guard that holds is a statement on the whole
chronicle, compacted or not (`Explains.holds_unchanged_iff`, `Explains.get?_eq_of_holds_modified`).
-/

namespace Allotment

/-! ### Committing -/

namespace Store

theorem response?_eq_some_iff {s : Store} {t : Transaction} {r : Response} :
    s.response? t = some r ↔
      t.guards.all s.holds = true ∧
        Write.changes (s.revision + 1) t.writes s.live ≠ [] ∧
        r = ⟨s.revision + 1, Write.changes (s.revision + 1) t.writes s.live⟩ := by
  unfold response?
  split
  next hg =>
    cases hc : Write.changes (s.revision + 1) t.writes s.live with
    | nil => simp
    | cons e es => simp [hg, eq_comm]
  next hg => simp [hg]

/-- A transaction records its response, if it has one, and otherwise leaves the store alone. -/
theorem commit_eq_ok_iff {s s' : Store} {t : Transaction} {reply : Reply} :
    s.commit t = .ok (s', reply) ↔
      s.available = true ∧
        ((∃ r, s.response? t = some r ∧ s' = s.record r ∧ reply = ⟨true, r.revision⟩) ∨
          (s.response? t = none ∧ s' = s ∧ reply = ⟨t.guards.all s.holds, s.revision⟩)) := by
  unfold commit guardAvailable
  by_cases ha : s.available
  · cases hr : s.response? t with
    | none => simp [ha, bind, Except.bind, pure, Except.pure, eq_comm]
    | some r => simp [ha, bind, Except.bind, pure, Except.pure, eq_comm]
  · simp [ha, bind, Except.bind]

/-- A transaction that succeeds has all its guards fulfilled and all its writes applied. -/
theorem live_of_commit {s s' : Store} {t : Transaction} {reply : Reply}
    (h : s.commit t = .ok (s', reply)) (hs : reply.succeeded = true) :
    t.guards.all s.holds = true ∧ s'.live = s.live.write (s.revision + 1) t.writes := by
  obtain ⟨-, ⟨r, hr, rfl, rfl⟩ | ⟨hr, rfl, rfl⟩⟩ := commit_eq_ok_iff.1 h
  · obtain ⟨hg, -, rfl⟩ := response?_eq_some_iff.1 hr
    exact ⟨hg, rfl⟩
  · have hg : t.guards.all s'.holds = true := hs
    refine ⟨hg, ?_⟩
    have hnil : Write.changes (s'.revision + 1) t.writes s'.live = [] := by
      refine Decidable.byContradiction fun hne => ?_
      rw [response?_eq_some_iff.2 ⟨hg, hne, rfl⟩] at hr
      exact nomatch hr
    unfold Contents.write
    rw [hnil]
    rfl

/-- A transaction that does not succeed leaves the store alone. -/
theorem eq_of_commit_of_not_succeeded {s s' : Store} {t : Transaction} {reply : Reply}
    (h : s.commit t = .ok (s', reply)) (hs : reply.succeeded = false) : s' = s := by
  obtain ⟨-, ⟨r, hr, rfl, rfl⟩ | ⟨hr, rfl, rfl⟩⟩ := commit_eq_ok_iff.1 h
  · exact nomatch hs
  · rfl

end Store

namespace Write

/-- Every change is made by one of the writes. -/
theorem exists_of_mem_changes {revision : Int} {ws : List Write} {c : Contents} {e : Change}
    (h : e ∈ changes revision ws c) : ∃ w ∈ ws, ∃ c', w.change? revision c' = some e := by
  induction ws generalizing c with
  | nil => exact absurd h List.not_mem_nil
  | cons w ws ih =>
    have hlater : ∀ {c : Contents}, e ∈ changes revision ws c →
        ∃ w' ∈ w :: ws, ∃ c', w'.change? revision c' = some e := fun he => by
      obtain ⟨w', hw', he'⟩ := ih he
      exact ⟨w', List.mem_cons_of_mem _ hw', he'⟩
    simp only [changes] at h
    cases hw : w.change? revision c with
    | none =>
      rw [hw] at h
      exact hlater h
    | some a =>
      rw [hw] at h
      rcases List.mem_cons.1 h with rfl | h
      · exact ⟨w, List.mem_cons_self, c, hw⟩
      · exact hlater h

theorem of_change?_eq_some {w : Write} {revision : Int} {c : Contents} {e : Change}
    (h : w.change? revision c = some e) :
    e.revision = revision ∧ w.key = e.key ∧
      ∀ stored, e = .put stored → w = .put stored.key stored.value := by
  cases w with
  | put k v =>
    obtain rfl := Option.some.inj h
    refine ⟨rfl, rfl, fun stored he => ?_⟩
    obtain rfl := Change.put.inj he
    rfl
  | delete k =>
    simp only [change?] at h
    split at h
    · obtain rfl := Option.some.inj h
      refine ⟨rfl, rfl, fun stored he => ?_⟩
      cases he
    · cases h

theorem mem_changes {revision : Int} {ws : List Write} {c : Contents} {e : Change}
    (h : e ∈ changes revision ws c) : e.revision = revision ∧ ∃ w ∈ ws, w.key = e.key := by
  obtain ⟨w, hw, c', he⟩ := exists_of_mem_changes h
  obtain ⟨hr, hk, -⟩ := of_change?_eq_some he
  exact ⟨hr, w, hw, hk⟩

/-- What is put is what some write puts. -/
theorem mem_of_put_mem_changes {revision : Int} {ws : List Write} {c : Contents} {stored : Entry Bytes}
    (h : .put stored ∈ changes revision ws c) : .put stored.key stored.value ∈ ws := by
  obtain ⟨w, hw, c', he⟩ := exists_of_mem_changes h
  obtain ⟨-, -, hput⟩ := of_change?_eq_some he
  exact hput stored rfl ▸ hw

end Write

/-! ### Chronicles -/

/-- All responses that a store has committed since it was empty, oldest first. -/
abbrev Chronicle := List Response

namespace Chronicle

/-- All changes, oldest first. -/
def changes (log : Chronicle) : List Change :=
  log.flatMap (·.changes)

/-- The contents right after a revision. -/
def contentsAt (log : Chronicle) (revision : Int) : Contents :=
  Contents.replay KeyMap.empty (log.changes.filter fun e => decide (e.revision ≤ revision))

theorem changes_append (log log' : Chronicle) :
    changes (log ++ log') = log.changes ++ changes log' := by
  simp [changes]

theorem get?_contentsAt (log : Chronicle) (revision : Int) (k : String) :
    (log.contentsAt revision).get? k =
      (lastOn Change.key (log.changes.filter fun e => decide (e.revision ≤ revision)) k).bind
        Change.left? := by
  unfold contentsAt
  rw [Change.get?_replay]
  cases lastOn Change.key _ k <;> rfl

/-- The stores that requests lead to from the empty one, each with its chronicle. -/
inductive Reached : Chronicle → Store → Prop
  | empty : Reached [] Store.empty
  | commit {log : Chronicle} {s s' : Store} {t : Transaction} {reply : Reply}
      (h : Reached log s) (hc : s.commit t = .ok (s', reply)) :
      Reached (log ++ (s.response? t).toList) s'
  | compact {log : Chronicle} {s : Store} (h : Reached log s) (revision : Int) :
      Reached log (s.compact revision)
  | setAvailable {log : Chronicle} {s : Store} (h : Reached log s) (available : Bool) :
      Reached log (s.setAvailable available)

/-- What a store has in common with its chronicle. -/
structure Explains (log : Chronicle) (s : Store) : Prop where
  compacted_le : 0 ≤ s.compacted ∧ s.compacted ≤ s.revision
  ascending : log.changes.Pairwise fun a b => a.revision ≤ b.revision
  bounded : ∀ e ∈ log.changes, 1 ≤ e.revision ∧ e.revision ≤ s.revision
  live : ∀ k, s.live.get? k = (lastOn Change.key log.changes k).bind Change.left?
  tombstones : ∀ k, s.tombstones.get? k =
    ((lastOn Change.key log.changes k).bind Change.burial?).filter fun r => decide (s.compacted < r)

namespace Explains

variable {log : Chronicle} {s : Store}

theorem empty : Explains [] Store.empty where
  compacted_le := by decide
  ascending := List.Pairwise.nil
  bounded := fun e he => nomatch he
  live := fun _ => rfl
  tombstones := fun _ => rfl

/-- A committed response keeps a store and its chronicle in step. -/
theorem record (h : Explains log s) {t : Transaction} {r : Response} (hr : s.response? t = some r) :
    Explains (log ++ [r]) (s.record r) := by
  obtain ⟨-, -, rfl⟩ := Store.response?_eq_some_iff.1 hr
  have hnew : ∀ e ∈ Write.changes (s.revision + 1) t.writes s.live, e.revision = s.revision + 1 :=
    fun e he => (Write.mem_changes he).1
  have hc := h.compacted_le
  generalize Write.changes (s.revision + 1) t.writes s.live = es at hnew ⊢
  have hchanges : changes (log ++ [⟨s.revision + 1, es⟩]) = log.changes ++ es := by
    simp [changes]
  constructor
  · show 0 ≤ s.compacted ∧ s.compacted ≤ s.revision + 1
    omega
  · rw [hchanges, List.pairwise_append]
    refine ⟨h.ascending, List.pairwise_of_forall_mem_list fun a ha b hb => ?_, fun a ha b hb => ?_⟩
    · exact Int.le_of_eq (by rw [hnew a ha, hnew b hb])
    · have := (h.bounded a ha).2
      rw [hnew b hb]
      omega
  · intro e he
    show 1 ≤ e.revision ∧ e.revision ≤ s.revision + 1
    rw [hchanges] at he
    rcases List.mem_append.1 he with he | he
    · have := h.bounded e he
      omega
    · rw [hnew e he]
      omega
  · intro k
    show (s.live.replay es).get? k = _
    rw [hchanges, lastOn_append, Change.get?_replay, h.live]
    cases lastOn Change.key es k <;> rfl
  · intro k
    show (es.foldl Change.bury s.tombstones).get? k = _
    rw [hchanges, lastOn_append, Change.get?_bury, h.tombstones]
    cases hk : lastOn Change.key es k with
    | none => rfl
    | some e =>
      have hrev := hnew e (mem_of_lastOn hk).1
      cases hb : e.burial? with
      | none => simp [hb]
      | some r =>
        have hlt : s.compacted < r := by
          have := Change.revision_of_burial? hb
          omega
        simp [hb, Store.record, Option.filter, hlt]

/-- Forgetting responses keeps a store and its chronicle in step. -/
theorem compact (h : Explains log s) (revision : Int) : Explains log (s.compact revision) := by
  unfold Store.compact
  have hc := h.compacted_le
  dsimp only
  split
  next => exact h
  next hlt =>
    refine ⟨⟨?_, ?_⟩, h.ascending, h.bounded, h.live, fun k => ?_⟩
    · show 0 ≤ min revision s.revision
      omega
    · show min revision s.revision ≤ s.revision
      omega
    · show (s.tombstones.filter fun _ r => decide (min revision s.revision < r)).get? k = _
      rw [KeyMap.get?_filter, h.tombstones, Option.filter_filter]
      congr 1
      funext r
      have : min revision s.revision < r → s.compacted < r := by omega
      simpa using this

theorem setAvailable (h : Explains log s) (available : Bool) :
    Explains log (s.setAvailable available) :=
  ⟨h.compacted_le, h.ascending, h.bounded, h.live, h.tombstones⟩

end Explains

/-- Every store is what its chronicle leads to. -/
theorem Reached.explains {log : Chronicle} {s : Store} (h : Reached log s) : Explains log s := by
  induction h with
  | empty => exact Explains.empty
  | @commit log s s' t reply h hc ih =>
    obtain ⟨-, ⟨r, hr, rfl, -⟩ | ⟨hr, rfl, -⟩⟩ := Store.commit_eq_ok_iff.1 hc
    · rw [hr]
      exact ih.record hr
    · rw [hr]
      simpa using ih
  | compact h revision ih => exact ih.compact revision
  | setAvailable h available ih => exact ih.setAvailable available

/-! ### Guards -/

namespace Explains

variable {log : Chronicle} {s : Store}

/-- What a live entry was last changed by is a change of its key. -/
theorem exists_change_of_get? (h : Explains log s) {k : String} {v : Stamped Bytes}
    (hv : s.live.get? k = some v) : ∃ e ∈ log.changes, e.key = k ∧ e.revision = v.modified := by
  rw [h.live, Option.bind_eq_some_iff] at hv
  obtain ⟨e, he, hv⟩ := hv
  exact ⟨e, (mem_of_lastOn he).1, (mem_of_lastOn he).2, (Change.modified_of_left? hv).symm⟩

/-- A tombstone stands for a change of its key. -/
theorem exists_change_of_tombstone (h : Explains log s) {k : String} {r : Int}
    (hr : s.tombstones.get? k = some r) : ∃ e ∈ log.changes, e.key = k ∧ e.revision = r := by
  rw [h.tombstones, Option.filter_eq_some_iff, Option.bind_eq_some_iff] at hr
  obtain ⟨⟨e, he, hr⟩, -⟩ := hr
  exact ⟨e, (mem_of_lastOn he).1, (mem_of_lastOn he).2, Change.revision_of_burial? hr⟩

/-- Unless it is forgotten, a change is followed by what a live entry or a tombstone of its key shows. -/
theorem trace_of_mem (h : Explains log s) {e : Change} (he : e ∈ log.changes) :
    (∃ v, s.live.get? e.key = some v ∧ e.revision ≤ v.modified) ∨
      (∃ r, s.tombstones.get? e.key = some r ∧ e.revision ≤ r) ∨ e.revision ≤ s.compacted := by
  obtain ⟨b, hb⟩ : ∃ b, lastOn Change.key log.changes e.key = some b :=
    Option.ne_none_iff_exists'.1 fun hn => lastOn_eq_none_iff.1 hn e he rfl
  have hle := rank_le_of_lastOn h.ascending hb he rfl
  cases b with
  | put a =>
    refine .inl ⟨a.toStamped, ?_, hle⟩
    rw [h.live, hb]
    rfl
  | delete k r =>
    by_cases hr : s.compacted < r
    · refine .inr (.inl ⟨r, ?_, hle⟩)
      rw [h.tombstones, hb]
      simp [Change.burial?, Option.filter, hr]
    · exact .inr (.inr (Int.le_trans hle (Int.not_lt.1 hr)))

/-- A scope is unchanged since a revision exactly if the revision is not forgotten and no later change
concerns the scope. -/
theorem holds_unchanged_iff (h : Explains log s) {scope : String} {revision : Int} :
    s.holds (.unchanged scope revision) = true ↔
      s.compacted ≤ revision ∧
        ∀ e ∈ log.changes, e.key.startsWith scope = true → e.revision ≤ revision := by
  simp only [Store.holds, Bool.and_eq_true, decide_eq_true_eq, List.all_eq_true, and_assoc]
  refine and_congr_right fun hc => ⟨?_, fun hall => ⟨?_, ?_⟩⟩
  · rintro ⟨hlive, htomb⟩ e he hscope
    rcases h.trace_of_mem he with ⟨v, hv, hle⟩ | ⟨r, hr, hle⟩ | hle
    · exact Int.le_trans hle (hlive _ (KeyMap.mem_under_iff.2 ⟨hv, hscope⟩))
    · exact Int.le_trans hle (htomb _ (KeyMap.mem_under_iff.2 ⟨hr, hscope⟩))
    · exact Int.le_trans hle hc
  · rintro ⟨k, v⟩ hkv
    obtain ⟨hget, hscope⟩ := KeyMap.mem_under_iff.1 hkv
    obtain ⟨e, he, rfl, hv⟩ := h.exists_change_of_get? hget
    exact Int.le_trans (Int.le_of_eq hv.symm) (hall e he hscope)
  · rintro ⟨k, r⟩ hkr
    obtain ⟨hget, hscope⟩ := KeyMap.mem_under_iff.1 hkr
    obtain ⟨e, he, rfl, hr⟩ := h.exists_change_of_tombstone hget
    exact Int.le_trans (Int.le_of_eq hr.symm) (hall e he hscope)

/-- A key without changes after a revision holds what it held then. -/
theorem get?_contentsAt_eq (h : Explains log s) {revision : Int} {k : String}
    (hk : ∀ e ∈ log.changes, e.key = k → e.revision ≤ revision) :
    (log.contentsAt revision).get? k = s.live.get? k := by
  rw [get?_contentsAt, h.live]
  unfold lastOn
  rw [List.filter_filter]
  congr 2
  apply List.filter_congr
  intro e he
  by_cases hek : e.key = k <;> simp [hek]
  exact hk e he hek

/-- The contents right after the current revision are the live ones. -/
theorem contentsAt_revision (h : Explains log s) : log.contentsAt s.revision = s.live :=
  KeyMap.ext_get? fun _ => h.get?_contentsAt_eq fun e he _ => (h.bounded e he).2

theorem modified_of_get? (h : Explains log s) {k : String} {v : Stamped Bytes}
    (hv : s.live.get? k = some v) :
    1 ≤ v.modified ∧ ∀ e ∈ log.changes, e.key = k → e.revision ≤ v.modified := by
  rw [h.live, Option.bind_eq_some_iff] at hv
  obtain ⟨b, hb, hv⟩ := hv
  rw [Change.modified_of_left? hv]
  exact ⟨(h.bounded b (mem_of_lastOn hb).1).1, fun e he hk => rank_le_of_lastOn h.ascending hb he hk⟩

theorem modified_of_get?_contentsAt (h : Explains log s) {revision : Int} {k : String}
    {v : Stamped Bytes} (hv : (log.contentsAt revision).get? k = some v) :
    1 ≤ v.modified ∧ v.modified ≤ revision := by
  rw [get?_contentsAt, Option.bind_eq_some_iff] at hv
  obtain ⟨b, hb, hv⟩ := hv
  rw [Change.modified_of_left? hv]
  have hmem := List.mem_filter.1 (mem_of_lastOn hb).1
  exact ⟨(h.bounded b hmem.1).1, by simpa using hmem.2⟩

/-- A key guarded by the stamp it had after some revision holds what it held then. -/
theorem get?_eq_of_holds_modified (h : Explains log s) {revision : Int} {k : String}
    {v : Stamped Bytes} (hv : (log.contentsAt revision).get? k = some v)
    (hg : s.holds (.modified k v.modified) = true) : s.live.get? k = some v := by
  obtain ⟨hpos, hle⟩ := h.modified_of_get?_contentsAt hv
  cases hw : s.live.get? k with
  | none =>
    simp only [Store.holds, hw, Option.map_none, Option.getD_none, beq_iff_eq] at hg
    omega
  | some w =>
    simp only [Store.holds, hw, Option.map_some, Option.getD_some, beq_iff_eq] at hg
    rw [← hw, ← hv]
    refine (h.get?_contentsAt_eq fun e he hk => ?_).symm
    have := (h.modified_of_get? hw).2 e he hk
    omega

/-- A key guarded by zero is absent. -/
theorem get?_eq_none_of_holds_modified_zero (h : Explains log s) {k : String}
    (hg : s.holds (.modified k 0) = true) : s.live.get? k = none := by
  cases hw : s.live.get? k with
  | none => rfl
  | some w =>
    simp only [Store.holds, hw, Option.map_some, Option.getD_some, beq_iff_eq] at hg
    have := (h.modified_of_get? hw).1
    omega

end Explains

/-- A later response does not alter the contents right after an earlier revision. -/
theorem contentsAt_append_of_le (log : Chronicle) {s : Store} {t : Transaction} {r : Response}
    (hr : s.response? t = some r) {revision : Int} (hle : revision ≤ s.revision) :
    contentsAt (log ++ [r]) revision = log.contentsAt revision := by
  obtain ⟨-, -, rfl⟩ := Store.response?_eq_some_iff.1 hr
  have hnew : (Write.changes (s.revision + 1) t.writes s.live).filter
      (fun e => decide (e.revision ≤ revision)) = [] := by
    rw [List.filter_eq_nil_iff]
    intro e he
    have := (Write.mem_changes he).1
    simp only [decide_eq_true_eq]
    omega
  unfold contentsAt
  rw [changes_append, List.filter_append]
  simp [changes, hnew]

end Chronicle

/-! ### What a transaction and a compaction change -/

namespace Store

variable {s s' : Store} {t : Transaction} {reply : Reply}

/-- A transaction leads to the next revision, or leaves the revision as it is. -/
theorem revision_of_commit (h : s.commit t = .ok (s', reply)) :
    s'.revision = s.revision ∨ s'.revision = s.revision + 1 := by
  obtain ⟨-, ⟨r, hr, rfl, -⟩ | ⟨-, rfl, -⟩⟩ := commit_eq_ok_iff.1 h
  · obtain ⟨-, -, rfl⟩ := response?_eq_some_iff.1 hr
    exact .inr rfl
  · exact .inl rfl

theorem revision_le_of_commit (h : s.commit t = .ok (s', reply)) : s.revision ≤ s'.revision := by
  rcases revision_of_commit h with he | he <;> omega

theorem revision_of_reply (h : s.commit t = .ok (s', reply)) : reply.revision = s'.revision := by
  obtain ⟨-, ⟨r, -, rfl, rfl⟩ | ⟨-, rfl, rfl⟩⟩ := commit_eq_ok_iff.1 h
  · rfl
  · rfl

@[simp]
theorem revision_compact (s : Store) (revision : Int) : (s.compact revision).revision = s.revision := by
  unfold compact
  dsimp only
  split <;> rfl

@[simp]
theorem live_compact (s : Store) (revision : Int) : (s.compact revision).live = s.live := by
  unfold compact
  dsimp only
  split <;> rfl

end Store

/-- A transaction does not alter the contents right after the revisions before it. -/
theorem Chronicle.contentsAt_append_response? (log : Chronicle) {s : Store} (t : Transaction)
    {revision : Int} (hle : revision ≤ s.revision) :
    contentsAt (log ++ (s.response? t).toList) revision = log.contentsAt revision := by
  cases hr : s.response? t with
  | none => simp
  | some r => exact contentsAt_append_of_le log hr hle

end Allotment
