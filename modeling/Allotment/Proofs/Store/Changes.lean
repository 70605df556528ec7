import Allotment.Store.Basic

/-!
# The last change of a key

What changes and writes leave under a key is decided by the last of them that concerns the key.
`lastOn` finds it, `get?_replay` and `get?_bury` say what a list of changes does to the contents and to
the deleted keys, and `value?_write` says what a list of writes does to the values.
-/

namespace Allotment

/-! ### The last element of a key -/

section LastOn

variable {α : Type} (key : α → String)

/-- The last element whose key is `k`. -/
def lastOn (l : List α) (k : String) : Option α :=
  (l.filter fun a => key a == k).getLast?

theorem lastOn_append (l l' : List α) (k : String) :
    lastOn key (l ++ l') k = (lastOn key l' k).or (lastOn key l k) := by
  simp [lastOn, List.filter_append, List.getLast?_append]

theorem lastOn_singleton (a : α) (k : String) :
    lastOn key [a] k = if key a = k then some a else none := by
  by_cases h : key a = k <;> simp [lastOn, h]

theorem lastOn_cons (a : α) (l : List α) (k : String) :
    lastOn key (a :: l) k = (lastOn key l k).or (if key a = k then some a else none) := by
  rw [← List.singleton_append, lastOn_append, lastOn_singleton]

variable {key}

theorem mem_of_lastOn {l : List α} {k : String} {a : α} (h : lastOn key l k = some a) :
    a ∈ l ∧ key a = k := by
  have hmem := List.mem_filter.1 (List.mem_of_getLast? h)
  exact ⟨hmem.1, by simpa using hmem.2⟩

theorem lastOn_eq_none_iff {l : List α} {k : String} :
    lastOn key l k = none ↔ ∀ a ∈ l, key a ≠ k := by
  simp [lastOn]

/-- Along a list that ascends by some rank, no element of a key ranks above the last of them. -/
theorem rank_le_of_lastOn {rank : α → Int} {l : List α} {k : String} {a b : α}
    (hl : l.Pairwise fun a b => rank a ≤ rank b) (h : lastOn key l k = some b) (ha : a ∈ l)
    (hk : key a = k) : rank a ≤ rank b := by
  obtain ⟨init, hinit⟩ := List.getLast?_eq_some_iff.1 h
  have hmem : a ∈ init ++ [b] := by
    rw [← hinit]
    exact List.mem_filter.2 ⟨ha, by simpa using hk⟩
  have hpair : (init ++ [b]).Pairwise fun a b => rank a ≤ rank b := by
    rw [← hinit]
    exact hl.filter _
  rcases List.mem_append.1 hmem with hmem | hmem
  · exact (List.pairwise_append.1 hpair).2.2 a hmem b (by simp)
  · exact Int.le_of_eq (by rw [List.mem_singleton.1 hmem])

end LastOn

/-! ### Changes -/

namespace Change

/-- What a change leaves under its key. -/
def left? : Change → Option (Stamped Bytes)
  | .put e => some e.toStamped
  | .delete _ _ => none

/-- The revision of a deletion. -/
def burial? : Change → Option Int
  | .put _ => none
  | .delete _ r => some r

theorem modified_of_left? {e : Change} {v : Stamped Bytes} (h : e.left? = some v) :
    v.modified = e.revision := by
  cases e with
  | put e => exact (Option.some.inj h) ▸ rfl
  | delete k r => exact nomatch h

theorem revision_of_burial? {e : Change} {r : Int} (h : e.burial? = some r) : e.revision = r := by
  cases e with
  | put e => exact nomatch h
  | delete k r' => exact Option.some.inj h

theorem get?_apply (c : Contents) (e : Change) (k : String) :
    (apply c e).get? k = if e.key = k then e.left? else c.get? k := by
  cases e with
  | put e =>
    simp only [apply, key, left?, KeyMap.get?_insert, eq_comm]
  | delete k' r =>
    simp only [apply, key, left?, KeyMap.get?_erase, eq_comm]

theorem get?_bury_one (t : KeyMap Int) (e : Change) (k : String) :
    (bury t e).get? k = if e.key = k then e.burial? else t.get? k := by
  cases e with
  | put e =>
    simp only [bury, key, burial?, KeyMap.get?_erase, eq_comm]
  | delete k' r =>
    simp only [bury, key, burial?, KeyMap.get?_insert, eq_comm]

/-- The last change of a key decides what the contents hold under it. -/
theorem get?_replay (c : Contents) (changes : List Change) (k : String) :
    (c.replay changes).get? k = ((lastOn key changes k).map left?).getD (c.get? k) := by
  induction changes generalizing c with
  | nil => rfl
  | cons e es ih =>
    have hstep : c.replay (e :: es) = Contents.replay (apply c e) es := rfl
    rw [hstep, ih, lastOn_cons, get?_apply]
    cases lastOn key es k with
    | some b => rfl
    | none => split <;> rfl

/-- The last change of a key decides whether it is deleted. -/
theorem get?_bury (t : KeyMap Int) (changes : List Change) (k : String) :
    (changes.foldl bury t).get? k = ((lastOn key changes k).map burial?).getD (t.get? k) := by
  induction changes generalizing t with
  | nil => rfl
  | cons e es ih =>
    rw [List.foldl_cons, ih, lastOn_cons, get?_bury_one]
    cases lastOn key es k with
    | some b => rfl
    | none => split <;> rfl

end Change

/-! ### Writes -/

namespace Write

/-- The value that a write leaves under its key. -/
def value? : Write → Option Bytes
  | .put _ v => some v
  | .delete _ => none

end Write

namespace Contents

/-- The value of a key. -/
def value? (c : Contents) (k : String) : Option Bytes :=
  (c.get? k).map (·.value)

/-- The contents after some writes at a revision. -/
def write (c : Contents) (revision : Int) (writes : List Write) : Contents :=
  c.replay (Write.changes revision writes c)

theorem mem_entriesUnder_iff {c : Contents} {scope : String} {e : Entry Bytes} :
    e ∈ c.entriesUnder scope ↔
      c.get? e.key = some e.toStamped ∧ e.key.startsWith scope = true := by
  rw [← KeyMap.mem_under_iff]
  simp only [entriesUnder, List.mem_map]
  constructor
  · rintro ⟨b, hb, rfl⟩
    exact hb
  · intro he
    exact ⟨_, he, rfl⟩

theorem pairwise_entriesUnder (c : Contents) (scope : String) :
    (c.entriesUnder scope).Pairwise fun a b => a.key < b.key :=
  List.pairwise_map.2 (c.ascending.sublist (c.under_sublist scope))

theorem isSome_value? (c : Contents) (k : String) : (c.value? k).isSome = (c.get? k).isSome := by
  simp [value?]

theorem write_cons (c : Contents) (revision : Int) (w : Write) (ws : List Write) :
    c.write revision (w :: ws) = (c.write revision [w]).write revision ws := by
  unfold write
  simp only [Write.changes]
  cases w.change? revision c <;> rfl

theorem write_append (c : Contents) (revision : Int) (ws ws' : List Write) :
    c.write revision (ws ++ ws') = (c.write revision ws).write revision ws' := by
  induction ws generalizing c with
  | nil => rfl
  | cons w ws ih => rw [List.cons_append, write_cons, ih, ← write_cons]

theorem write_put (c : Contents) (revision : Int) (k : String) (v : Bytes) :
    c.write revision [.put k v] =
      c.insert k ⟨v, ((c.get? k).map (·.created)).getD revision, revision⟩ :=
  rfl

theorem write_delete (c : Contents) (revision : Int) (k : String) :
    c.write revision [.delete k] = c.erase k := by
  by_cases h : c.contains k
  · simp [write, Write.changes, Write.change?, h, replay, Change.apply]
  · have hk : c.get? k = none := by simpa [KeyMap.contains] using h
    apply KeyMap.ext_get?
    intro k'
    simp only [write, Write.changes, Write.change?, h, replay, List.foldl_nil, Bool.false_eq_true,
      ↓reduceIte, KeyMap.get?_erase]
    split
    next he => rw [he, hk]
    next => rfl

theorem get?_write_singleton_of_ne (c : Contents) (revision : Int) {w : Write} {k : String}
    (h : w.key ≠ k) : (c.write revision [w]).get? k = c.get? k := by
  cases w with
  | put k' v => rw [write_put, KeyMap.get?_insert, if_neg fun e => h e.symm]
  | delete k' => rw [write_delete, KeyMap.get?_erase, if_neg fun e => h e.symm]

theorem value?_write_singleton (c : Contents) (revision : Int) (w : Write) (k : String) :
    (c.write revision [w]).value? k = if w.key = k then w.value? else c.value? k := by
  by_cases h : w.key = k
  · rw [if_pos h]
    cases w with
    | put k' v =>
      obtain rfl : k' = k := h
      simp [value?, write_put, Write.value?, KeyMap.get?_insert]
    | delete k' =>
      obtain rfl : k' = k := h
      simp [value?, write_delete, Write.value?, KeyMap.get?_erase]
  · rw [if_neg h, value?, get?_write_singleton_of_ne c revision h, value?]

/-- A key that is not written keeps its entry. -/
theorem get?_write_of_ne (c : Contents) (revision : Int) {ws : List Write} {k : String}
    (h : ∀ w ∈ ws, w.key ≠ k) : (c.write revision ws).get? k = c.get? k := by
  induction ws generalizing c with
  | nil => rfl
  | cons w ws ih =>
    rw [write_cons, ih _ fun w hw => h w (List.mem_cons_of_mem _ hw),
      get?_write_singleton_of_ne c revision (h w List.mem_cons_self)]

/-- The last write of a key decides its value. -/
theorem value?_write (c : Contents) (revision : Int) (ws : List Write) (k : String) :
    (c.write revision ws).value? k =
      ((lastOn Write.key ws k).map Write.value?).getD (c.value? k) := by
  induction ws generalizing c with
  | nil => rfl
  | cons w ws ih =>
    rw [write_cons, ih, lastOn_cons, value?_write_singleton]
    cases lastOn Write.key ws k with
    | some b => rfl
    | none => split <;> rfl

end Contents

end Allotment
