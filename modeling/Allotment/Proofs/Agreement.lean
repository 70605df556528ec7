import Allotment.Proofs.Snapshot

/-!
# Snapshots that agree with the contents

A snapshot agrees with some contents at a key if both have the same there, with the same stamps, or both
have nothing (`Snapshot.AgreesAt`).  To be the snapshot of the contents is to agree with them at every key
under the scope of the layout and to have nothing elsewhere (`Snapshot.Mirrors`,
`ofEntries_entriesUnder_eq_ok_iff`).
-/

namespace Allotment

namespace Snapshot

/-- The contents hold under a key what the snapshot has there, with the same stamps, or neither of them
has anything. -/
def AgreesAt (s : Snapshot) (c : Contents) (k : String) : Prop :=
  (c.get? k).map (fun raw => Resource.decode s.layout ⟨raw, k⟩) =
    (s.entries.get? k).map fun v => .ok ⟨v, k⟩

variable {l : Layout} {revision : Int} {c c' : Contents} {s s' : Snapshot} {k : String}

theorem AgreesAt.congr (h : s.AgreesAt c k) (hk : c'.get? k = c.get? k) : s.AgreesAt c' k := by
  unfold AgreesAt at h ⊢
  rw [hk, h]

/-- What agrees with the contents at a key is determined there. -/
theorem AgreesAt.get?_eq (h : s.AgreesAt c k) (h' : s'.AgreesAt c k) (hl : s.layout = s'.layout) :
    s.entries.get? k = s'.entries.get? k := by
  unfold AgreesAt at h h'
  rw [← hl, h] at h'
  refine Option.map_injective (fun v w hvw => ?_) h'
  exact congrArg Entry.toStamped (Except.ok.inj hvw)

theorem AgreesAt.isSome_eq (h : s.AgreesAt c k) :
    (c.get? k).isSome = (s.entries.get? k).isSome := by
  simpa using congrArg Option.isSome h

theorem agreesAt_none (hc : c.get? k = none) : s.AgreesAt c k ↔ s.entries.get? k = none := by
  unfold AgreesAt
  rw [hc, Option.map_none, eq_comm, Option.map_eq_none_iff]

theorem agreesAt_some {raw : Stamped Bytes} (hc : c.get? k = some raw) :
    s.AgreesAt c k ↔
      ∃ v, s.entries.get? k = some v ∧ Resource.decode s.layout ⟨raw, k⟩ = .ok ⟨v, k⟩ := by
  unfold AgreesAt
  rw [hc, Option.map_some, eq_comm, Option.map_eq_some_iff]
  exact exists_congr fun v => and_congr_right fun _ => eq_comm

/-- Entries that can be read have a snapshot. -/
theorem exists_foldlM_addEntry {es : List (Entry Bytes)}
    (h : ∀ e ∈ es, ∃ d, Resource.decode l e = .ok d) (m : KeyMap (Stamped Resource)) :
    ∃ m', es.foldlM (addEntry l) m = .ok m' := by
  induction es generalizing m with
  | nil => exact ⟨m, rfl⟩
  | cons e es ih =>
    obtain ⟨⟨d, hd⟩, hes⟩ := List.forall_mem_cons.1 h
    obtain ⟨m', hm'⟩ := ih hes (m.insert d.key d.toStamped)
    refine ⟨m', ?_⟩
    rw [List.foldlM_cons, addEntry, hd]
    exact hm'

theorem exists_ofEntries (revision : Int) {es : List (Entry Bytes)}
    (h : ∀ e ∈ es, ∃ d, Resource.decode l e = .ok d) : ∃ s, ofEntries l revision es = .ok s := by
  obtain ⟨m, hm⟩ := exists_foldlM_addEntry h KeyMap.empty
  refine ⟨⟨l, revision, m⟩, ?_⟩
  unfold ofEntries
  rw [hm]
  rfl

theorem agreesAt_of_ofEntries (h : ofEntries l revision (c.entriesUnder l.scope) = .ok s)
    (hk : k.startsWith l.scope = true) : s.AgreesAt c k := by
  rcases (get?_of_ofEntries_entriesUnder h k).1 hk with ⟨hc, hs⟩ | ⟨raw, v, hraw, hv, hd⟩
  · exact (agreesAt_none hc).2 hs
  · exact (agreesAt_some hraw).2 ⟨v, hv, (ofEntries_eq_ok h).1 ▸ hd⟩

/-- The snapshot agrees with the contents under the scope of its layout, and has nothing elsewhere. -/
structure Mirrors (s : Snapshot) (c : Contents) : Prop where
  inside : ∀ k, k.startsWith s.layout.scope = true → s.AgreesAt c k
  outside : ∀ k, ¬ k.startsWith s.layout.scope = true → s.entries.get? k = none

theorem Mirrors.congr (h : s.Mirrors c)
    (hc : ∀ k, k.startsWith s.layout.scope = true → c'.get? k = c.get? k) : s.Mirrors c' :=
  ⟨fun k hk => (h.inside k hk).congr (hc k hk), h.outside⟩

/-- Contents have one snapshot. -/
theorem Mirrors.entries_eq (h : s.Mirrors c) (h' : s'.Mirrors c) (hl : s.layout = s'.layout) :
    s.entries = s'.entries := by
  refine KeyMap.ext_get? fun k => ?_
  by_cases hk : k.startsWith s.layout.scope = true
  · exact (h.inside k hk).get?_eq (h'.inside k (hl ▸ hk)) hl
  · rw [h.outside k hk, h'.outside k (hl ▸ hk)]

/-- The snapshot of some contents is what mirrors them. -/
theorem ofEntries_entriesUnder_eq_ok_iff :
    ofEntries l revision (c.entriesUnder l.scope) = .ok s ↔
      s.layout = l ∧ s.revision = revision ∧ s.Mirrors c := by
  constructor
  · intro h
    obtain ⟨rfl, hr, -⟩ := ofEntries_eq_ok h
    exact ⟨rfl, hr, fun k hk => agreesAt_of_ofEntries h hk,
      fun k hk => (get?_of_ofEntries_entriesUnder h k).2 hk⟩
  · rintro ⟨rfl, rfl, h⟩
    have hread : ∀ e ∈ c.entriesUnder s.layout.scope, ∃ d, Resource.decode s.layout e = .ok d := by
      intro e he
      obtain ⟨hget, hscope⟩ := Contents.mem_entriesUnder_iff.1 he
      obtain ⟨v, -, hd⟩ := (agreesAt_some hget).1 (h.inside _ hscope)
      exact ⟨_, hd⟩
    obtain ⟨t, ht⟩ := exists_ofEntries s.revision hread
    obtain ⟨htl, htr, -⟩ := ofEntries_eq_ok ht
    have hentries : s.entries = t.entries := by
      refine h.entries_eq ⟨fun k hk => ?_, fun k hk => ?_⟩ htl.symm
      · exact agreesAt_of_ofEntries ht (htl ▸ hk)
      · exact (get?_of_ofEntries_entriesUnder ht k).2 (htl ▸ hk)
    have hst : t = s := by
      obtain ⟨l', r', m'⟩ := s
      obtain ⟨l'', r'', m''⟩ := t
      simp only at htl htr hentries
      rw [htl, htr, hentries]
    rw [ht, hst]

end Snapshot

end Allotment
