/-!
# Maps in key order

A finite map from text keys, held as its bindings in strictly ascending key order. Keys are ordered
by code point, which is also the order of their UTF-8 bytes. A map is determined by what it answers
to `get?` (`ext_get?`), and `get?_insert` and `get?_erase` say what the two updates do to that view.
The keys that start with a scope stand next to each other, so that a scan from the scope on finds them
all (`under_eq_filter`).
-/

namespace Allotment

/-- A finite map whose bindings stand in strictly ascending key order. -/
structure KeyMap (α : Type) where
  bindings : List (String × α)
  ascending : bindings.Pairwise fun a b => a.1 < b.1

namespace KeyMap

variable {α β : Type}

/-! ### Bindings -/

/-- The bindings after `k` has been bound to `v`; an earlier binding of `k` is replaced. -/
def insertBinding (k : String) (v : α) : List (String × α) → List (String × α)
  | [] => [(k, v)]
  | b :: bs =>
    if k < b.1 then (k, v) :: b :: bs
    else if b.1 < k then b :: insertBinding k v bs
    else (k, v) :: bs

/-- The bindings without the one of `k`. -/
def eraseBinding (k : String) : List (String × α) → List (String × α)
  | [] => []
  | b :: bs => if b.1 = k then bs else b :: eraseBinding k bs

theorem mem_insertBinding {k : String} {v : α} {b : String × α} {bs : List (String × α)}
    (h : b ∈ insertBinding k v bs) : b = (k, v) ∨ b ∈ bs := by
  induction bs with
  | nil => simpa [insertBinding] using h
  | cons c cs ih =>
    simp only [insertBinding] at h
    split at h
    · simpa using h
    split at h
    · rcases List.mem_cons.1 h with h | h
      · simp [h]
      · rcases ih h with h | h <;> simp [h]
    · rcases List.mem_cons.1 h with h | h <;> simp [h]

theorem pairwise_insertBinding (k : String) (v : α) {bs : List (String × α)}
    (h : bs.Pairwise fun a b => a.1 < b.1) :
    (insertBinding k v bs).Pairwise fun a b => a.1 < b.1 := by
  induction bs with
  | nil => simp [insertBinding]
  | cons c cs ih =>
    have ⟨hc, hcs⟩ := List.pairwise_cons.1 h
    simp only [insertBinding]
    split
    next hk =>
      refine List.pairwise_cons.2 ⟨fun b hb => ?_, h⟩
      rcases List.mem_cons.1 hb with rfl | hb
      · exact hk
      · exact String.lt_trans hk (hc b hb)
    next hk =>
      split
      next hck =>
        refine List.pairwise_cons.2 ⟨fun b hb => ?_, ih hcs⟩
        rcases mem_insertBinding hb with rfl | hb
        · exact hck
        · exact hc b hb
      next hck =>
        have hkc : k = c.1 := String.le_antisymm (String.not_lt.1 hck) (String.not_lt.1 hk)
        exact List.pairwise_cons.2 ⟨fun b hb => hkc ▸ hc b hb, hcs⟩

theorem eraseBinding_sublist (k : String) (bs : List (String × α)) :
    (eraseBinding k bs).Sublist bs := by
  induction bs with
  | nil => exact List.Sublist.refl []
  | cons c cs ih =>
    simp only [eraseBinding]
    split
    · exact List.sublist_cons_self c cs
    · exact ih.cons_cons c

/-! ### Operations -/

/-- The map that binds nothing. -/
def empty : KeyMap α :=
  ⟨[], List.Pairwise.nil⟩

instance : EmptyCollection (KeyMap α) :=
  ⟨empty⟩

instance : Inhabited (KeyMap α) :=
  ⟨empty⟩

/-- What a key is bound to. -/
def get? (m : KeyMap α) (k : String) : Option α :=
  m.bindings.lookup k

/-- A key is bound. -/
def contains (m : KeyMap α) (k : String) : Bool :=
  (m.get? k).isSome

/-- Binds a key, replacing an earlier binding. -/
def insert (m : KeyMap α) (k : String) (v : α) : KeyMap α :=
  ⟨insertBinding k v m.bindings, pairwise_insertBinding k v m.ascending⟩

/-- Leaves a key unbound. -/
def erase (m : KeyMap α) (k : String) : KeyMap α :=
  ⟨eraseBinding k m.bindings, m.ascending.sublist (eraseBinding_sublist k m.bindings)⟩

/-- The bindings that satisfy a test. -/
def filter (m : KeyMap α) (p : String → α → Bool) : KeyMap α :=
  ⟨m.bindings.filter fun b => p b.1 b.2, m.ascending.sublist List.filter_sublist⟩

/-- The bindings of the keys that start with `scope`, in key order: those from `scope` on, up to the
first key that does not start with it. -/
def under (m : KeyMap α) (scope : String) : List (String × α) :=
  (m.bindings.dropWhile fun b => decide (b.1 < scope)).takeWhile fun b => b.1.startsWith scope

/-- The number of bindings. -/
def size (m : KeyMap α) : Nat :=
  m.bindings.length

/-- Binds each pair of a list in turn, so that the last pair of a key counts. -/
def ofList (bs : List (String × α)) : KeyMap α :=
  bs.foldl (fun m b => m.insert b.1 b.2) empty

/-! ### The view by `get?` -/

theorem lookup_cons (k : String) (b : String × α) (bs : List (String × α)) :
    (b :: bs).lookup k = if k = b.1 then some b.2 else bs.lookup k := by
  obtain ⟨k', v⟩ := b
  rw [List.lookup_cons]
  by_cases h : k = k'
  · simp [h]
  · simp [h, beq_false_of_ne]

theorem lookup_insertBinding (k k' : String) (v : α) (bs : List (String × α)) :
    (insertBinding k v bs).lookup k' = if k' = k then some v else bs.lookup k' := by
  induction bs with
  | nil => by_cases h : k' = k <;> simp [insertBinding, lookup_cons, h]
  | cons c cs ih =>
    simp only [insertBinding]
    split
    · by_cases h : k' = k <;> simp [lookup_cons, h]
    next hk =>
      split
      next hck =>
        by_cases hc : k' = c.1
        · have hne : c.1 ≠ k := fun he => String.lt_irrefl k (he ▸ hck)
          simp [lookup_cons, hc, hne]
        · simp [lookup_cons, hc, ih]
      next hck =>
        have hkc : k = c.1 := String.le_antisymm (String.not_lt.1 hck) (String.not_lt.1 hk)
        by_cases h : k' = k
        · simp [h]
        · simp [lookup_cons, h, hkc ▸ h]

theorem lookup_eq_none_of_lt {k : String} {bs : List (String × α)}
    (h : ∀ b ∈ bs, k < b.1) : bs.lookup k = none := by
  rw [List.lookup_eq_none_iff]
  intro b hb
  have hne : k ≠ b.1 := fun he => String.lt_irrefl k (by simpa [← he] using h b hb)
  simpa using hne

theorem lookup_eraseBinding (k k' : String) {bs : List (String × α)}
    (h : bs.Pairwise fun a b => a.1 < b.1) :
    (eraseBinding k bs).lookup k' = if k' = k then none else bs.lookup k' := by
  induction bs with
  | nil => simp [eraseBinding]
  | cons c cs ih =>
    have ⟨hc, hcs⟩ := List.pairwise_cons.1 h
    simp only [eraseBinding]
    split
    next hck =>
      by_cases hk : k' = k
      · simp only [hk, ↓reduceIte]
        exact lookup_eq_none_of_lt fun b hb => hck ▸ hc b hb
      · simp [lookup_cons, hk, hck ▸ hk]
    next hck =>
      by_cases hk : k' = c.1
      · have hne : c.1 ≠ k := hck
        simp [lookup_cons, hk, hne]
      · simp [lookup_cons, hk, ih hcs]

@[simp]
theorem get?_empty (k : String) : (empty : KeyMap α).get? k = none :=
  rfl

theorem get?_insert (m : KeyMap α) (k k' : String) (v : α) :
    (m.insert k v).get? k' = if k' = k then some v else m.get? k' :=
  lookup_insertBinding k k' v m.bindings

theorem get?_erase (m : KeyMap α) (k k' : String) :
    (m.erase k).get? k' = if k' = k then none else m.get? k' :=
  lookup_eraseBinding k k' m.ascending

theorem get?_eq_some_iff {m : KeyMap α} {k : String} {v : α} :
    m.get? k = some v ↔ (k, v) ∈ m.bindings := by
  obtain ⟨bs, h⟩ := m
  simp only [get?]
  induction bs with
  | nil => simp
  | cons c cs ih =>
    have ⟨hc, hcs⟩ := List.pairwise_cons.1 h
    by_cases hk : k = c.1
    · have hn : (k, v) ∉ cs := fun hm => String.lt_irrefl k (by simpa [hk] using hc _ hm)
      have hkv : (k, v) = c ↔ c.2 = v := by
        rw [Prod.ext_iff]
        simp [hk, eq_comm]
      simp only [List.mem_cons, hn, or_false, hkv]
      simp [lookup_cons, hk]
    · have : (k, v) ≠ c := fun he => hk (congrArg Prod.fst he)
      simp [lookup_cons, hk, ih hcs, this]

theorem get?_filter (m : KeyMap α) (p : String → α → Bool) (k : String) :
    (m.filter p).get? k = (m.get? k).filter (p k) := by
  apply Option.ext
  intro v
  rw [get?_eq_some_iff, Option.filter_eq_some_iff, get?_eq_some_iff]
  simp [filter]

theorem ne_of_key_lt {a b : String × α} (h : a.1 < b.1) : a ≠ b := by
  rintro rfl
  exact String.lt_irrefl _ h

/-- Two maps that answer alike are equal. -/
theorem ext_get? {m n : KeyMap α} (h : ∀ k, m.get? k = n.get? k) : m = n := by
  have key : m.bindings = n.bindings := by
    refine List.Perm.eq_of_pairwise ?_ m.ascending n.ascending ?_
    · intro a b _ _ hab hba
      exact absurd (String.lt_trans hab hba) (String.lt_irrefl _)
    · rw [List.perm_ext_iff_of_nodup]
      · intro b
        rw [← get?_eq_some_iff, ← get?_eq_some_iff, h]
      · exact m.ascending.imp ne_of_key_lt
      · exact n.ascending.imp ne_of_key_lt
  cases m
  cases n
  simpa using key

/-! ### The bindings under a scope -/

/-- Whatever starts with some letters does not come before them. -/
theorem not_lt_of_prefix {p a : List Char} (h : p <+: a) : ¬ a < p := by
  induction p generalizing a with
  | nil => exact List.not_lt_nil a
  | cons c p ih =>
    obtain ⟨a, rfl⟩ := h
    rw [List.cons_append, List.cons_lt_cons_iff]
    rintro (hc | ⟨-, hlt⟩)
    · exact Nat.lt_irrefl _ hc
    · exact ih (List.prefix_append p a) hlt

/-- Whatever comes between some letters and a word that starts with them starts with them too. -/
theorem prefix_of_between {p a b : List Char} (hpa : ¬ a < p) (hab : a < b) (hb : p <+: b) :
    p <+: a := by
  induction p generalizing a b with
  | nil => exact List.nil_prefix
  | cons c p ih =>
    obtain ⟨b, rfl⟩ := hb
    rw [List.cons_append] at hab
    cases a with
    | nil => exact absurd (List.nil_lt_cons c p) hpa
    | cons d a =>
      rw [List.cons_lt_cons_iff, not_or, not_and] at hpa
      rcases List.cons_lt_cons_iff.1 hab with hd | ⟨rfl, hlt⟩
      · exact absurd hd hpa.1
      · exact List.cons_prefix_cons.2 ⟨rfl, ih (hpa.2 rfl) hlt (List.prefix_append p b)⟩

theorem not_lt_of_startsWith {k scope : String} (h : k.startsWith scope = true) : ¬ k < scope := by
  rw [String.lt_iff]
  exact not_lt_of_prefix (String.startsWith_string_iff.1 h)

theorem startsWith_of_between {k k' scope : String} (hk : ¬ k < scope) (hlt : k < k')
    (h : k'.startsWith scope = true) : k.startsWith scope = true := by
  rw [String.startsWith_string_iff] at h ⊢
  rw [String.lt_iff] at hk hlt
  exact prefix_of_between hk hlt h

/-- No key before the scope starts with it, and none behind a key from the scope on that does not. -/
theorem scan_eq_filter {scope : String} {bs : List (String × α)}
    (h : bs.Pairwise fun a b => a.1 < b.1) :
    ((bs.dropWhile fun b => decide (b.1 < scope)).takeWhile fun b => b.1.startsWith scope) =
      bs.filter fun b => b.1.startsWith scope := by
  induction bs with
  | nil => rfl
  | cons c cs ih =>
    obtain ⟨hc, hcs⟩ := List.pairwise_cons.1 h
    rw [List.dropWhile_cons, List.filter_cons]
    split
    next hlt =>
      have hlt : c.1 < scope := by simpa using hlt
      rw [if_neg fun hs => not_lt_of_startsWith hs hlt]
      exact ih hcs
    next hge =>
      have hge : ¬ c.1 < scope := by simpa using hge
      rw [List.takeWhile_cons]
      split
      next hs =>
        -- the scan has reached the scope, so that it passes over nothing more
        have hrest : cs.dropWhile (fun b => decide (b.1 < scope)) = cs := by
          cases cs with
          | nil => rfl
          | cons d ds =>
            have hlater : c.1 < d.1 := hc d List.mem_cons_self
            rw [List.dropWhile_cons, if_neg]
            simpa using fun hd => hge (String.lt_trans hlater hd)
        rw [← ih hcs, hrest]
      next hs =>
        rw [eq_comm, List.filter_eq_nil_iff]
        exact fun b hb hstart => hs (startsWith_of_between hge (hc b hb) hstart)

theorem under_eq_filter (m : KeyMap α) (scope : String) :
    m.under scope = m.bindings.filter fun b => b.1.startsWith scope :=
  scan_eq_filter m.ascending

theorem mem_under_iff {m : KeyMap α} {scope k : String} {v : α} :
    (k, v) ∈ m.under scope ↔ m.get? k = some v ∧ k.startsWith scope = true := by
  rw [get?_eq_some_iff, under_eq_filter]
  simp

theorem under_sublist (m : KeyMap α) (scope : String) : (m.under scope).Sublist m.bindings :=
  (List.takeWhile_sublist _).trans (List.dropWhile_sublist _)

/-- What two maps have under a scope is the same if they answer alike there. -/
theorem under_congr {m n : KeyMap α} {scope : String}
    (h : ∀ k, k.startsWith scope = true → m.get? k = n.get? k) : m.under scope = n.under scope := by
  have hfilter : m.filter (fun k _ => k.startsWith scope) = n.filter fun k _ => k.startsWith scope := by
    refine ext_get? fun k => ?_
    rw [get?_filter, get?_filter]
    cases hk : k.startsWith scope with
    | true => rw [h k hk]
    | false => cases m.get? k <;> cases n.get? k <;> rfl
  rw [under_eq_filter, under_eq_filter]
  exact congrArg bindings hfilter

end KeyMap

end Allotment
