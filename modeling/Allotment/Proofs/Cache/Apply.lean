import Allotment.Proofs.Agreement

/-!
# Keeping a snapshot current

A snapshot that mirrors some contents and is given the changes of one later revision mirrors the contents
after those changes (`Snapshot.Mirrors.apply`).  Changes that come in order are refused only for what cannot
be read (`Snapshot.eq_decode_of_apply`).
-/

namespace Allotment

/-- What the change puts, if it puts anything, can be read. -/
def Change.IsReadable (l : Layout) (e : Change) : Prop :=
  ∀ stored, e = .put stored → ∃ d, Resource.decode l stored = .ok d

theorem Resource.key_of_decode {l : Layout} {e : Entry Bytes} {d : Entry Resource}
    (h : decode l e = .ok d) : d.key = e.key := by
  obtain ⟨r, rfl, -⟩ := decode_eq_ok_iff.1 h
  rfl

namespace Snapshot

variable {s s' t : Snapshot} {c c' : Contents} {k : String} {expected : Int}
  {m m' : KeyMap (Stamped Resource)} {e : Change} {r : Response} {fault : CacheError}

theorem AgreesAt.frame (h : s.AgreesAt c k) (hl : t.layout = s.layout)
    (ht : t.entries.get? k = s.entries.get? k) (hc : c'.get? k = c.get? k) : t.AgreesAt c' k := by
  unfold AgreesAt at h ⊢
  rw [hl, ht, hc, h]

/-! ### One change -/

theorem applyChange_put_of_ok {stored : Entry Bytes} {d : Entry Resource}
    (hr : (Change.put stored).revision = expected) (hd : Resource.decode s.layout stored = .ok d) :
    s.applyChange expected m (.put stored) = .ok (m.insert d.key d.toStamped) := by
  unfold applyChange
  rw [if_neg (not_not_intro hr)]
  dsimp only
  rw [addEntry, hd]
  rfl

theorem applyChange_put_of_error {stored : Entry Bytes} {f : DecodeError}
    (hr : (Change.put stored).revision = expected)
    (hd : Resource.decode s.layout stored = .error f) :
    s.applyChange expected m (.put stored) = .error (.decode f) := by
  unfold applyChange
  rw [if_neg (not_not_intro hr)]
  dsimp only
  rw [addEntry, hd]
  rfl

theorem applyChange_delete {r : Int} (hr : (Change.delete k r).revision = expected) :
    s.applyChange expected m (.delete k r) = .ok (m.erase k) :=
  if_neg (not_not_intro hr)

theorem applyChange_eq_ok_iff :
    s.applyChange expected m e = .ok m' ↔
      e.revision = expected ∧
        ((∃ stored d, e = .put stored ∧ Resource.decode s.layout stored = .ok d ∧
            m' = m.insert d.key d.toStamped) ∨
          ∃ k r, e = .delete k r ∧ m' = m.erase k) := by
  by_cases hr : e.revision = expected
  · cases e with
    | put stored =>
      cases hd : Resource.decode s.layout stored with
      | error f => simp [applyChange_put_of_error hr hd, hd]
      | ok d => simp [applyChange_put_of_ok hr hd, hd, hr, eq_comm]
    | delete k r => simp [applyChange_delete hr, hr, eq_comm]
  · simp [applyChange, hr]

/-- Changes of the expected revision are refused only for what cannot be read. -/
theorem eq_decode_of_applyChange (hr : e.revision = expected)
    (h : s.applyChange expected m e = .error fault) :
    (∃ f, fault = .decode f) ∧ ¬ e.IsReadable s.layout := by
  cases e with
  | put stored =>
    cases hd : Resource.decode s.layout stored with
    | error f =>
      rw [applyChange_put_of_error hr hd] at h
      refine ⟨⟨f, (Except.error.inj h).symm⟩, fun hread => ?_⟩
      obtain ⟨d, hok⟩ := hread stored rfl
      cases hd.symm.trans hok
    | ok d =>
      rw [applyChange_put_of_ok hr hd] at h
      cases h
  | delete k r =>
    rw [applyChange_delete hr] at h
    cases h

theorem Mirrors.applyChange (h : Mirrors { s with entries := m } c)
    (hk : e.key.startsWith s.layout.scope = true) (he : s.applyChange expected m e = .ok m') :
    Mirrors { s with entries := m' } (Change.apply c e) := by
  obtain ⟨-, ⟨stored, d, rfl, hd, rfl⟩ | ⟨k', r, rfl, rfl⟩⟩ := applyChange_eq_ok_iff.1 he
  · have hkey := Resource.key_of_decode hd
    refine ⟨fun k hscope => ?_, fun k hscope => ?_⟩
    · by_cases hks : k = stored.key
      · subst hks
        refine (agreesAt_some (KeyMap.get?_insert _ _ _ _ |>.trans (if_pos rfl))).2
          ⟨d.toStamped, ?_, ?_⟩
        · rw [← hkey]
          exact (KeyMap.get?_insert _ _ _ _).trans (if_pos rfl)
        · have hd' : (⟨d.toStamped, stored.key⟩ : Entry Resource) = d := by rw [← hkey]
          exact hd.trans (congrArg Except.ok hd'.symm)
      · refine (h.inside k hscope).frame rfl ?_ ?_
        · exact (KeyMap.get?_insert _ _ _ _).trans (if_neg (hkey ▸ hks))
        · exact (KeyMap.get?_insert _ _ _ _).trans (if_neg hks)
    · rw [← h.outside k hscope]
      refine (KeyMap.get?_insert _ _ _ _).trans (if_neg fun hkd => hscope ?_)
      rw [hkd, hkey]
      exact hk
  · refine ⟨fun k hscope => ?_, fun k hscope => ?_⟩
    · by_cases hks : k = k'
      · subst hks
        refine (agreesAt_none ((KeyMap.get?_erase _ _ _).trans (if_pos rfl))).2 ?_
        exact (KeyMap.get?_erase _ _ _).trans (if_pos rfl)
      · refine (h.inside k hscope).frame rfl ?_ ?_
        · exact (KeyMap.get?_erase _ _ _).trans (if_neg hks)
        · exact (KeyMap.get?_erase _ _ _).trans (if_neg hks)
    · refine (KeyMap.get?_erase _ _ _).trans ?_
      split
      · rfl
      · exact h.outside k hscope

/-! ### The changes of one revision -/

theorem Mirrors.foldlM_applyChange {es : List Change} (h : Mirrors { s with entries := m } c)
    (hk : ∀ e ∈ es, e.key.startsWith s.layout.scope = true)
    (he : es.foldlM (s.applyChange expected) m = .ok m') :
    Mirrors { s with entries := m' } (c.replay es) := by
  induction es generalizing m c with
  | nil =>
    obtain rfl := Except.ok.inj he
    exact h
  | cons e es ih =>
    obtain ⟨hke, hkes⟩ := List.forall_mem_cons.1 hk
    rw [List.foldlM_cons] at he
    cases hm : s.applyChange expected m e with
    | error f => rw [hm] at he; exact nomatch he
    | ok m₁ =>
      rw [hm] at he
      exact ih (h.applyChange hke hm) hkes he

theorem eq_decode_of_foldlM_applyChange {es : List Change}
    (hr : ∀ e ∈ es, e.revision = expected)
    (he : es.foldlM (s.applyChange expected) m = .error fault) :
    (∃ f, fault = .decode f) ∧ ∃ e ∈ es, ¬ e.IsReadable s.layout := by
  induction es generalizing m with
  | nil => exact nomatch he
  | cons e es ih =>
    obtain ⟨hre, hres⟩ := List.forall_mem_cons.1 hr
    rw [List.foldlM_cons] at he
    cases hm : s.applyChange expected m e with
    | error f =>
      rw [hm] at he
      obtain rfl := Except.error.inj he
      obtain ⟨hf, hread⟩ := eq_decode_of_applyChange hre hm
      exact ⟨hf, e, List.mem_cons_self, hread⟩
    | ok m₁ =>
      rw [hm] at he
      obtain ⟨hf, e', he', hread⟩ := ih hres he
      exact ⟨hf, e', List.mem_cons_of_mem _ he', hread⟩

theorem apply_eq_ok_iff :
    s.apply r = .ok s' ↔ s.revision < r.revision ∧ ∃ entries,
      r.changes.foldlM (s.applyChange r.revision) s.entries = .ok entries ∧
        s' = { s with revision := r.revision, entries } := by
  unfold apply
  by_cases hr : r.revision ≤ s.revision
  · rw [if_pos hr]
    exact ⟨(nomatch ·), fun h => absurd h.1 (Int.not_lt.2 hr)⟩
  · rw [if_neg hr]
    cases r.changes.foldlM (s.applyChange r.revision) s.entries with
    | error f => simp [Except.map]
    | ok entries =>
      simp only [Except.map, Except.ok.injEq, exists_eq_left', eq_comm (b := s')]
      exact (and_iff_right (by omega)).symm

/-- A snapshot stays a mirror of the contents when they change under its scope. -/
theorem Mirrors.apply (h : s.Mirrors c) (hk : ∀ e ∈ r.changes, e.key.startsWith s.layout.scope = true)
    (hs : s.apply r = .ok s') : s'.Mirrors (c.replay r.changes) := by
  obtain ⟨-, entries, hfold, rfl⟩ := apply_eq_ok_iff.1 hs
  have hm : Mirrors { s with entries } (c.replay r.changes) := h.foldlM_applyChange hk hfold
  exact ⟨hm.inside, hm.outside⟩

/-- Changes that come in order are refused only for what cannot be read. -/
theorem eq_decode_of_apply (hlt : s.revision < r.revision) (hr : ∀ e ∈ r.changes, e.revision = r.revision)
    (h : s.apply r = .error fault) :
    (∃ f, fault = .decode f) ∧ ∃ e ∈ r.changes, ¬ e.IsReadable s.layout := by
  unfold apply at h
  rw [if_neg (Int.not_le.2 hlt)] at h
  cases hf : r.changes.foldlM (s.applyChange r.revision) s.entries with
  | error f =>
    rw [hf] at h
    obtain rfl := Except.error.inj h
    exact eq_decode_of_foldlM_applyChange hr hf
  | ok entries =>
    rw [hf] at h
    exact nomatch h

/-! ### The changes of several revisions -/

/-- The snapshot after some responses, one after another. -/
def applyAll (s : Snapshot) (rs : List Response) : Except CacheError Snapshot :=
  rs.foldlM apply s

theorem applyAll_cons {s s' : Snapshot} {r : Response} (h : s.apply r = .ok s') (rs : List Response) :
    s.applyAll (r :: rs) = s'.applyAll rs := by
  unfold applyAll
  rw [List.foldlM_cons, h]
  rfl

end Snapshot

end Allotment
