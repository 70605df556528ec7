import Allotment.Proofs.Holdings

/-!
# Accounts of writes

An account counts what some writes do to the keys of contents, write by write: how many keys come and go,
how many replicas are renumbered, and how many become consistent or cease to be.  It is read off the writes
and the contents alone, whoever has made them.  A replica is renumbered where its key is deleted and a key of
the same item and holder with another slot is put right afterwards.

The account of two lists of writes is the sum of theirs, unless the second list begins with the put that
completes a renumbering (`Contents.account_append`).  Under any scope that all writes lie in, the number of
keys afterwards and of those that went is that before and of those that came
(`Contents.length_under_account`).
-/

namespace Allotment

/-- What some writes do to the keys of some contents. -/
structure Account where
  /-- The keys that were not there and are put. -/
  added : Nat
  /-- The keys that are deleted for good. -/
  dropped : Nat
  /-- The replicas whose key is deleted and put at another slot. -/
  renumbered : Nat
  /-- The replicas that become consistent. -/
  flagged : Nat
  /-- The replicas that cease to be consistent. -/
  cleared : Nat
  deriving DecidableEq, Repr

namespace Account

instance : Zero Account :=
  ⟨⟨0, 0, 0, 0, 0⟩⟩

instance : Add Account :=
  ⟨fun a b => ⟨a.added + b.added, a.dropped + b.dropped, a.renumbered + b.renumbered,
    a.flagged + b.flagged, a.cleared + b.cleared⟩⟩

/-- A value takes the place of another. -/
def replaced (old new : Bytes) : Account where
  added := 0
  dropped := 0
  renumbered := 0
  flagged := if old ≠ Assignment.consistentValue ∧ new = Assignment.consistentValue then 1 else 0
  cleared := if old = Assignment.consistentValue ∧ new ≠ Assignment.consistentValue then 1 else 0

/-- A replica takes another slot, and a value the place of another. -/
def moved (old new : Bytes) : Account :=
  { replaced old new with renumbered := 1 }

theorem add_def (a b : Account) : a + b = ⟨a.added + b.added, a.dropped + b.dropped,
    a.renumbered + b.renumbered, a.flagged + b.flagged, a.cleared + b.cleared⟩ :=
  rfl

theorem zero_def : (0 : Account) = ⟨0, 0, 0, 0, 0⟩ :=
  rfl

instance : Std.Associative (α := Account) (· + ·) where
  assoc a b c := by simp only [add_def, Nat.add_assoc]

instance : Std.LawfulIdentity (α := Account) (· + ·) 0 where
  left_id a := by simp only [add_def, zero_def, Nat.zero_add]
  right_id _ := rfl

end Account

/-- The second key is one of the item and the holder of the first, with another slot. -/
def Layout.renumbers (l : Layout) (k k' : String) : Bool :=
  match l.holding? k with
  | some a =>
    k'.startsWith (l.holdingScope a.item a.holder) && (l.holding? k').map (·.slot) != some a.slot
  | none => false

namespace Contents

/-- What a write does by itself. -/
def posted (c : Contents) : Write → Account
  | .delete k => if (c.value? k).isSome then ⟨0, 1, 0, 0, 0⟩ else 0
  | .put k v =>
    match c.value? k with
    | none => ⟨1, 0, 0, 0, 0⟩
    | some old => .replaced old v

/-- What two writes do together, if they renumber a replica. -/
def renumbered? (l : Layout) (c : Contents) : Write → Write → Option Account
  | .delete k, .put k' v =>
    if l.renumbers k k' && (c.value? k').isNone then
      (c.value? k).map fun old => .moved old v
    else none
  | _, _ => none

/-- The account of some writes at a revision. -/
def account (l : Layout) (n : Int) : List Write → Contents → Account
  | [], _ => 0
  | [w], c => c.posted w
  | w :: w' :: ws, c =>
    match c.renumbered? l w w' with
    | some a => a + account l n ws (c.write n [w, w'])
    | none => c.posted w + account l n (w' :: ws) (c.write n [w])

variable {l : Layout} {c c' : Contents} {n : Int} {ws ws' : List Write}

theorem renumbered?_eq_some_iff {w w' : Write} {a : Account} :
    c.renumbered? l w w' = some a ↔ ∃ k k' v old, w = .delete k ∧ w' = .put k' v ∧
      l.renumbers k k' = true ∧ c.value? k' = none ∧ c.value? k = some old ∧
        a = .moved old v := by
  constructor
  · intro h
    cases w with
    | put => exact nomatch h
    | delete k =>
      cases w' with
      | delete => exact nomatch h
      | put k' v =>
        rw [renumbered?] at h
        split at h
        next hcond =>
          rw [Bool.and_eq_true, Option.isNone_iff_eq_none] at hcond
          obtain ⟨old, hold, rfl⟩ := Option.map_eq_some_iff.1 h
          exact ⟨k, k', v, old, rfl, rfl, hcond.1, hcond.2, hold, rfl⟩
        next => exact nomatch h
  · rintro ⟨k, k', v, old, rfl, rfl, hre, hnone, hold, rfl⟩
    simp only [renumbered?, hre, hnone, hold, Option.isNone_none, Bool.and_self, ↓reduceIte,
      Option.map_some]

/-- Writes that do not complete a renumbering are accounted for separately. -/
theorem account_append (h : ∀ k k' v, ws.getLast? = some (.delete k) → ws'.head? = some (.put k' v) →
    l.renumbers k k' = false) :
    account l n (ws ++ ws') c = account l n ws c + account l n ws' (c.write n ws) := by
  fun_induction account l n ws c with
  | case1 c => exact (Std.LawfulLeftIdentity.left_id _).symm
  | case2 w c =>
    cases ws' with
    | nil => exact (Std.LawfulRightIdentity.right_id _).symm
    | cons w' ws' =>
      have hnone : c.renumbered? l w w' = none := by
        refine Option.eq_none_iff_forall_ne_some.2 fun a ha => ?_
        obtain ⟨k, k', v, -, rfl, rfl, hre, -⟩ := renumbered?_eq_some_iff.1 ha
        exact Bool.false_ne_true ((h k k' v rfl rfl).symm.trans hre)
      show account l n (w :: w' :: ws') c = _
      rw [account, hnone]
  | case3 w w' ws c a ha ih =>
    have hlast : ∀ x, ws.getLast? = some x → (w :: w' :: ws).getLast? = some x := by
      intro x hx
      rw [List.getLast?_cons, List.getLast?_cons, hx]
      rfl
    show account l n (w :: w' :: (ws ++ ws')) c = _
    rw [account, ha]
    show a + account l n (ws ++ ws') _ = _
    rw [ih fun k k' v hk => h k k' v (hlast _ hk), ← write_append]
    exact (Std.Associative.assoc _ _ _).symm
  | case4 w w' ws c hnone ih =>
    show account l n (w :: w' :: (ws ++ ws')) c = _
    rw [account, hnone]
    show c.posted w + account l n (w' :: ws ++ ws') _ = _
    rw [ih fun k k' v hk => h k k' v (by rw [List.getLast?_cons, hk]; rfl), ← write_append]
    exact (Std.Associative.assoc _ _ _).symm

/-! ### The balance of keys -/

/-- A write that neither adds nor removes its key leaves the keys as they are. -/
theorem keys_write_of_isSome_eq {w : Write} (h : w.value?.isSome = (c.value? w.key).isSome) :
    (c.write n [w]).keys.Perm c.keys := by
  rw [List.perm_ext_iff_of_nodup (nodup_keys _) c.nodup_keys]
  intro k
  rw [mem_keys_iff, mem_keys_iff, value?_write_singleton]
  split
  next hk => rw [h, hk]
  next => rfl

/-- One key has come, and the others have stayed. -/
theorem keys_perm_cons {k : String} (hk : (c'.value? k).isSome = true) (hnone : c.value? k = none)
    (h : ∀ k', k ≠ k' → c'.value? k' = c.value? k') : c'.keys.Perm (k :: c.keys) := by
  have hnot : k ∉ c.keys := fun hmem => by
    rw [mem_keys_iff, hnone] at hmem
    exact nomatch hmem
  rw [List.perm_ext_iff_of_nodup (nodup_keys _) (List.nodup_cons.2 ⟨hnot, c.nodup_keys⟩)]
  intro k'
  rw [List.mem_cons, mem_keys_iff, mem_keys_iff]
  by_cases hne : k = k'
  · exact iff_of_true (hne ▸ hk) (.inl hne.symm)
  · rw [h k' hne, or_iff_right (Ne.symm hne)]

theorem keys_write_put_of_none {k : String} (v : Bytes) (h : c.value? k = none) :
    (c.write n [.put k v]).keys.Perm (k :: c.keys) := by
  refine keys_perm_cons ?_ h fun k' hne => ?_
  · simp [value?_write_singleton, Write.key, Write.value?]
  · simp [value?_write_singleton, Write.key, hne]

theorem keys_write_delete_of_some {k : String} (h : (c.value? k).isSome = true) :
    c.keys.Perm (k :: (c.write n [.delete k]).keys) := by
  refine keys_perm_cons h ?_ fun k' hne => ?_
  · simp [value?_write_singleton, Write.key, Write.value?]
  · simp [value?_write_singleton, Write.key, hne]

variable {q : String → Bool}

theorem countP_keys_posted {w : Write} (hw : q w.key = true) :
    (c.write n [w]).keys.countP q + (c.posted w).dropped = c.keys.countP q + (c.posted w).added := by
  cases w with
  | put k v =>
    have hk : q k = true := hw
    cases hv : c.value? k with
    | none =>
      rw [(keys_write_put_of_none v hv).countP_eq, List.countP_cons_of_pos hk]
      simp only [posted, hv, Nat.add_zero]
    | some old =>
      have hsame : (Write.put k v).value?.isSome = (c.value? k).isSome := by rw [hv]; rfl
      rw [(keys_write_of_isSome_eq hsame).countP_eq]
      simp only [posted, hv, Account.replaced]
  | delete k =>
    have hk : q k = true := hw
    cases hv : c.value? k with
    | none =>
      have hsame : (Write.delete k).value?.isSome = (c.value? k).isSome := by rw [hv]; rfl
      rw [(keys_write_of_isSome_eq hsame).countP_eq]
      simp only [posted, hv, Option.isSome_none, Bool.false_eq_true, ↓reduceIte, Account.zero_def]
    | some old =>
      have hsome : (c.value? k).isSome = true := by rw [hv]; rfl
      have hdelete := (keys_write_delete_of_some (n := n) hsome).countP_eq q
      rw [List.countP_cons_of_pos hk] at hdelete
      rw [hdelete]
      simp only [posted, hsome, ↓reduceIte, Nat.add_zero]

/-- Keys that come and keys that go make up the difference. -/
theorem countP_keys_account (h : ∀ w ∈ ws, q w.key = true) :
    (c.write n ws).keys.countP q + (account l n ws c).dropped =
      c.keys.countP q + (account l n ws c).added := by
  fun_induction account l n ws c with
  | case1 c => rfl
  | case2 w c => exact countP_keys_posted (h w List.mem_cons_self)
  | case3 w w' ws c a ha ih =>
    obtain ⟨k, k', v, old, rfl, rfl, hre, hnone, hold, rfl⟩ := renumbered?_eq_some_iff.1 ha
    have hrest := ih fun w hw => h w (List.mem_cons_of_mem _ (List.mem_cons_of_mem _ hw))
    have hk : q k = true := h _ List.mem_cons_self
    have hk' : q k' = true := h _ (List.mem_cons_of_mem _ List.mem_cons_self)
    have hfree : (c.write n [.delete k]).value? k' = none := by
      rw [value?_write_singleton]
      split
      · rfl
      · exact hnone
    have hsome : (c.value? k).isSome = true := by rw [hold]; rfl
    have hdelete := (keys_write_delete_of_some (n := n) hsome).countP_eq q
    have hput := (keys_write_put_of_none (n := n) v hfree).countP_eq q
    rw [List.countP_cons_of_pos hk] at hdelete
    rw [List.countP_cons_of_pos hk'] at hput
    have hpair : (c.write n [.delete k, .put k' v]) = (c.write n [.delete k]).write n [.put k' v] :=
      write_append c n [.delete k] [.put k' v]
    have hall : c.write n (.delete k :: .put k' v :: ws) = (c.write n [.delete k, .put k' v]).write n ws :=
      write_append c n [.delete k, .put k' v] ws
    rw [hall]
    rw [hpair] at hrest ⊢
    simp only [Account.add_def, Account.moved, Account.replaced, Nat.zero_add]
    omega
  | case4 w w' ws c hnone ih =>
    have hrest := ih fun w hw => h w (List.mem_cons_of_mem _ hw)
    have hone := countP_keys_posted (c := c) (n := n) (h w List.mem_cons_self)
    rw [write_cons]
    simp only [Account.add_def]
    omega

theorem length_under (c : Contents) (scope : String) :
    (c.under scope).length = c.keys.countP (·.startsWith scope) := by
  rw [KeyMap.under_eq_filter, keys, List.countP_map, List.countP_eq_length_filter]
  rfl

/-- The number of keys under a scope, before and after some writes to it. -/
theorem length_under_account {scope : String} (h : ∀ w ∈ ws, w.key.startsWith scope = true) :
    ((c.write n ws).under scope).length + (account l n ws c).dropped =
      (c.under scope).length + (account l n ws c).added := by
  rw [length_under, length_under]
  exact countP_keys_account h

end Contents

end Allotment
