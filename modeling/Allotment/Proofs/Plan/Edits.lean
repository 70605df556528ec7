import Allotment.Plan.Work
import Allotment.Proofs.Holdings
import Mathlib.Algebra.GroupWithZero.Nat

/-!
# Edits of an item

Writes turn the replicas that an item shows into others (`Turns`).  Deleting the key of a replica takes
it away (`Turns.delete`), putting the key of a new slot adds one (`Turns.put`) and putting a live key
again makes its replica consistent (`Turns.flag`).  Edits follow one another (`Turns.append`), so that a
whole list of deletions or of moves is an edit too (`Turns.deletes`, `Turns.moves`).  Edits of different
items do not meet (`Edit.shows_write_allWrites`).
-/

namespace Allotment

/-- Some writes lie in the scope of an item and turn the replicas that it shows into others. -/
def Turns (l : Layout) (item : String) (ws : List Write) (rs rs' : List Replica) : Prop :=
  ∀ (c : Contents) (n : Int), c.Shows l item rs →
    (∀ w ∈ ws, w.key.startsWith (l.itemScope item) = true) ∧ (c.write n ws).Shows l item rs'

/-- A replica after its holder has become consistent. -/
def Replica.flagged (r : Replica) : Replica :=
  { r with assignment := { r.assignment with consistent := true } }

/-- A replica after it has been renumbered. -/
def Viewpoint.moved (v : Viewpoint) (flags : Option Replica) (m : Replica × Nat) : Replica :=
  { m.1 with
    key := v.layout.assignmentKey m.1.assignment.item m.1.holder m.2
    assignment := { m.1.assignment with
      slot := m.2
      consistent := m.1.assignment.consistent || flags == some m.1 } }

/-- Replicas of an item can be renumbered one after another while others rest: their new slots differ, and
nobody holds one of them. -/
structure Movable (l : Layout) (item : String) (ms : List (Replica × Nat)) (rest : List Replica) :
    Prop where
  named : ∀ m ∈ ms, m.1.IsNamed l item
  nodup : (ms.map (·.2)).Nodup
  free : ∀ m ∈ ms, ∀ q ∈ ms.map (·.1) ++ rest, q.slot ≠ m.2

namespace Movable

variable {l : Layout} {item : String} {m : Replica × Nat} {ms : List (Replica × Nat)} {rest : List Replica}

theorem named_head (h : Movable l item (m :: ms) rest) : m.1.IsNamed l item :=
  h.named m List.mem_cons_self

theorem free_head (h : Movable l item (m :: ms) rest) : ∀ q ∈ m.1 :: (ms.map (·.1) ++ rest), q.slot ≠ m.2 :=
  h.free m List.mem_cons_self

/-- What has been renumbered rests. -/
theorem tail {v : Viewpoint} {flags : Option Replica} (h : Movable l item (m :: ms) rest) :
    Movable l item ms (v.moved flags m :: rest) where
  named := fun m' hm' => h.named m' (List.mem_cons_of_mem _ hm')
  nodup := (List.nodup_cons.1 h.nodup).2
  free := by
    intro m' hm' q hq
    have hold := h.free m' (List.mem_cons_of_mem _ hm')
    rcases List.mem_append.1 hq with hq | hq
    · exact hold q (List.mem_append_left _ (List.mem_cons_of_mem _ hq))
    · rcases List.mem_cons.1 hq with rfl | hq
      · exact fun he => (List.nodup_cons.1 h.nodup).1 (List.mem_map.2 ⟨m', hm', he.symm⟩)
      · exact hold q (List.mem_append_right _ hq)

end Movable

namespace Turns

variable {l : Layout} {item : String} {ws ws' : List Write} {rs rs' rs'' : List Replica}

theorem nil (l : Layout) (item : String) (rs : List Replica) : Turns l item [] rs rs :=
  fun _ _ h => ⟨fun _ hw => absurd hw List.not_mem_nil, h⟩

theorem append (h : Turns l item ws rs rs') (h' : Turns l item ws' rs' rs'') :
    Turns l item (ws ++ ws') rs rs'' := by
  intro c n hc
  obtain ⟨hws, hc'⟩ := h c n hc
  obtain ⟨hws', hc''⟩ := h' _ n hc'
  refine ⟨fun w hw => (List.mem_append.1 hw).elim (hws w) (hws' w), ?_⟩
  rw [Contents.write_append]
  exact hc''

theorem perm_left (h : Turns l item ws rs' rs'') (hp : rs.Perm rs') : Turns l item ws rs rs'' :=
  fun c n hc => h c n (hc.perm hp)

theorem perm_right (h : Turns l item ws rs rs') (hp : rs'.Perm rs'') : Turns l item ws rs rs'' :=
  fun c n hc => ⟨(h c n hc).1, (h c n hc).2.perm hp⟩

/-- Deleting its key takes a replica away. -/
theorem delete (l : Layout) (item : String) (r : Replica) (rs : List Replica) :
    Turns l item [.delete r.key] (r :: rs) rs := by
  intro c n hc
  have hscope := (hc.named r List.mem_cons_self).startsWith_itemScope
  have hnodup := List.nodup_cons.1 hc.nodup
  have hne : ∀ q ∈ rs, r.key ≠ q.key := fun q hq he => hnodup.1 (List.mem_map.2 ⟨q, hq, he.symm⟩)
  refine ⟨by simpa [Write.key] using hscope, hnodup.2, fun q hq => hc.named q (List.mem_cons_of_mem _ hq),
    fun q hq => ?_, fun k hk hv => ?_⟩
  · rw [Contents.value?_write_singleton]
    exact (if_neg (hne q hq)).trans (hc.value q (List.mem_cons_of_mem _ hq))
  · rw [Contents.value?_write_singleton] at hv
    split at hv
    next => exact nomatch hv
    next hne => exact (List.mem_cons.1 (hc.only k hk hv)).resolve_left fun he => hne he.symm

/-- Putting the key of a slot that no replica holds adds a replica. -/
theorem put (hi : IsSegment item) {r : Replica} (hr : r.IsNamed l item)
    (hk : r.key = l.assignmentKey item r.holder r.slot) (hfresh : ∀ q ∈ rs, q.slot ≠ r.slot) :
    Turns l item [.put r.key (Assignment.encode r.assignment.consistent)] rs (r :: rs) := by
  intro c n hc
  have hnew : ∀ q ∈ rs, q.key ≠ r.key := fun q hq he =>
    hfresh q hq ((hc.named q hq).slot_eq_of_key hi hr hk he)
  refine ⟨by simpa [Write.key] using hr.startsWith_itemScope, ?_, ?_, ?_, fun k hk' hv => ?_⟩
  · rw [List.map_cons, List.nodup_cons]
    refine ⟨fun hm => ?_, hc.nodup⟩
    obtain ⟨q, hq, he⟩ := List.mem_map.1 hm
    exact hnew q hq he
  · exact List.forall_mem_cons.2 ⟨hr, hc.named⟩
  · refine List.forall_mem_cons.2 ⟨?_, fun q hq => ?_⟩
    · rw [Contents.value?_write_singleton]
      exact if_pos rfl
    · rw [Contents.value?_write_singleton]
      exact (if_neg fun he => hnew q hq (Eq.symm he)).trans (hc.value q hq)
  · rw [Contents.value?_write_singleton] at hv
    rw [List.map_cons, List.mem_cons]
    split at hv
    next he => exact .inl he.symm
    next => exact .inr (hc.only k hk' hv)

/-- Putting its key again makes a replica consistent. -/
theorem flag (l : Layout) (item : String) (r : Replica) (rs : List Replica) :
    Turns l item [.put r.key (Assignment.encode true)] (r :: rs) (r.flagged :: rs) := by
  intro c n hc
  have hr := hc.named r List.mem_cons_self
  have hnodup := List.nodup_cons.1 hc.nodup
  have hne : ∀ q ∈ rs, r.key ≠ q.key := fun q hq he => hnodup.1 (List.mem_map.2 ⟨q, hq, he.symm⟩)
  refine ⟨by simpa [Write.key] using hr.startsWith_itemScope, hc.nodup, ?_, ?_, fun k hk hv => ?_⟩
  · exact List.forall_mem_cons.2 ⟨⟨hr.item_eq, hr.holder, hr.key⟩,
      fun q hq => hc.named q (List.mem_cons_of_mem _ hq)⟩
  · refine List.forall_mem_cons.2 ⟨?_, fun q hq => ?_⟩
    · rw [Contents.value?_write_singleton]
      exact if_pos rfl
    · rw [Contents.value?_write_singleton]
      exact (if_neg (hne q hq)).trans (hc.value q (List.mem_cons_of_mem _ hq))
  · rw [Contents.value?_write_singleton] at hv
    split at hv
    next he => exact he ▸ List.mem_cons_self
    next => exact hc.only k hk hv

/-! ### Lists of edits -/

theorem deletes (l : Layout) (item : String) (ds rs : List Replica) :
    Turns l item (ds.map (.delete ·.key)) (ds ++ rs) rs := by
  induction ds with
  | nil => exact nil l item rs
  | cons d ds ih => 
    have hd : Turns l item [.delete d.key] (d :: (ds ++ rs)) (ds ++ rs) := delete l item d (ds ++ rs)
    exact append hd ih

variable {v : Viewpoint} {flags : Option Replica}

theorem key_moved {m : Replica × Nat} (h : m.1.IsNamed v.layout item) : (v.moved flags m).key =
    v.layout.assignmentKey item (v.moved flags m).holder (v.moved flags m).slot := by
  show v.layout.assignmentKey m.1.assignment.item m.1.holder m.2 = _
  rw [h.item_eq]
  rfl

theorem isNamed_moved {m : Replica × Nat} (h : m.1.IsNamed v.layout item) :
    (v.moved flags m).IsNamed v.layout item :=
  Replica.IsNamed.of_assignmentKey h.item_eq h.holder (key_moved h)

/-- Renumbering a replica to a slot that no other holds moves it there. -/
theorem move (hi : IsSegment item) {m : Replica × Nat} (hm : m.1.IsNamed v.layout item)
    (hfree : ∀ q ∈ rs, q.slot ≠ m.2) :
    Turns v.layout item (v.moveWrites flags m) (m.1 :: rs) (v.moved flags m :: rs) :=
  append (delete v.layout item m.1 rs) (put hi (isNamed_moved hm) (key_moved hm) hfree)

/-- Renumbering replicas to distinct slots that are free moves each of them to its new slot. -/
theorem moves (hi : IsSegment item) {ms : List (Replica × Nat)} {rest : List Replica}
    (h : Movable v.layout item ms rest) :
    Turns v.layout item (ms.flatMap (v.moveWrites flags)) (ms.map (·.1) ++ rest)
      (ms.map (v.moved flags) ++ rest) := by
  induction ms generalizing rest with
  | nil => exact nil _ _ _
  | cons m ms ih =>
    have hfirst : Turns v.layout item (v.moveWrites flags m) (m.1 :: (ms.map (·.1) ++ rest)) _ :=
      move hi h.named_head fun q hq => h.free_head q (List.mem_cons_of_mem _ hq)
    have hrest : Turns v.layout item (ms.flatMap (v.moveWrites flags))
        (ms.map (·.1) ++ v.moved flags m :: rest) (ms.map (v.moved flags) ++ v.moved flags m :: rest) :=
      ih h.tail
    exact (append hfirst (hrest.perm_left List.perm_middle.symm)).perm_right List.perm_middle

/-- Edits of an item leave alone what lies outside its scope. -/
theorem get?_write (h : Turns l item ws rs rs') {c : Contents} (hc : c.Shows l item rs) (n : Int)
    {k : String} (hk : ¬ k.startsWith (l.itemScope item) = true) :
    (c.write n ws).get? k = c.get? k :=
  Contents.get?_write_of_ne c n fun w hw he => hk (he ▸ (h c n hc).1 w hw)

/-- Edits of an item leave alone what another item shows. -/
theorem shows_of_ne (h : Turns l item ws rs rs') {c : Contents} (hc : c.Shows l item rs) (n : Int)
    {item' : String} (hi : IsSegment item) (hi' : IsSegment item') (hne : item' ≠ item)
    {qs : List Replica} (hq : c.Shows l item' qs) : (c.write n ws).Shows l item' qs := by
  refine hq.congr fun k hk => ?_
  unfold Contents.value?
  rw [h.get?_write hc n fun hk' => hne (Layout.eq_of_startsWith_itemScope hi' hi hk hk')]

end Turns

/-! ### Edits of several items -/

/-- Writes for one item, with the replicas that it shows before and after. -/
structure Edit (l : Layout) where
  item : String
  writes : List Write
  before : List Replica
  after : List Replica
  segment : IsSegment item
  turns : Turns l item writes before after

namespace Edit

variable {l : Layout} {c : Contents}

/-- The writes of some edits, one after another. -/
def allWrites (es : List (Edit l)) : List Write :=
  es.flatMap (·.writes)

/-- All edits find what they expect, and they concern different items. -/
structure Apply (es : List (Edit l)) (c : Contents) : Prop where
  nodup : (es.map (·.item)).Nodup
  before : ∀ e ∈ es, c.Shows l e.item e.before

theorem value?_write_of_not_startsWith {e : Edit l} (h : c.Shows l e.item e.before) (n : Int)
    {k : String} (hk : ¬ k.startsWith (l.itemScope e.item) = true) :
    (c.write n e.writes).value? k = c.value? k := by
  unfold Contents.value?
  rw [e.turns.get?_write h n hk]

theorem Apply.tail {e : Edit l} {es : List (Edit l)} (h : Apply (e :: es) c) (n : Int) :
    Apply es (c.write n e.writes) where
  nodup := (List.nodup_cons.1 h.nodup).2
  before := fun e' he' =>
    e.turns.shows_of_ne (h.before e List.mem_cons_self) n e.segment e'.segment
      (fun heq => (List.nodup_cons.1 h.nodup).1 (List.mem_map.2 ⟨e', he', heq⟩))
      (h.before e' (List.mem_cons_of_mem _ he'))

/-- Keys outside the scopes of the edited items keep their entries. -/
theorem get?_write_allWrites {es : List (Edit l)} (h : Apply es c) (n : Int) {k : String}
    (hk : ∀ e ∈ es, ¬ k.startsWith (l.itemScope e.item) = true) :
    (c.write n (allWrites es)).get? k = c.get? k := by
  induction es generalizing c with
  | nil => rfl
  | cons e es ih =>
    unfold allWrites
    rw [List.flatMap_cons, Contents.write_append]
    refine (ih (h.tail n) fun e' he' => hk e' (List.mem_cons_of_mem _ he')).trans ?_
    exact e.turns.get?_write (h.before e List.mem_cons_self) n (hk e List.mem_cons_self)

/-- Each edited item shows what its edit leaves. -/
theorem shows_write_allWrites {es : List (Edit l)} (h : Apply es c) (n : Int) {e : Edit l}
    (he : e ∈ es) : (c.write n (allWrites es)).Shows l e.item e.after := by
  induction es generalizing c with
  | nil => exact nomatch he
  | cons e' es ih =>
    unfold allWrites
    rw [List.flatMap_cons, Contents.write_append]
    rcases List.mem_cons.1 he with rfl | he
    · refine ((e.turns c n (h.before e List.mem_cons_self)).2).congr fun k hk => ?_
      unfold Contents.value?
      refine congrArg _ (get?_write_allWrites (h.tail n) n fun e' he' hk' => ?_)
      have heq := Layout.eq_of_startsWith_itemScope e'.segment e.segment hk' hk
      exact (List.nodup_cons.1 h.nodup).1 (List.mem_map.2 ⟨e', he', heq⟩)
    · exact ih (h.tail n) he

/-- By how many replicas of its item an edit raises the load of a member. -/
def gain (e : Edit l) (m : MemberId) : Nat :=
  e.after.countP (·.holder == m) - e.before.countP (·.holder == m)

/-- An edit raises the load of a member by what it adds for its own item at most. -/
theorem load_write_le {e : Edit l} (h : c.Shows l e.item e.before) (n : Int) (m : MemberId)
    (hslot : ∀ r ∈ e.before, r.slot < Layout.slotLimit) :
    (c.write n e.writes).load l m ≤ c.load l m + e.gain m := by
  rw [((e.turns c n h).2).load_eq e.segment, h.load_eq e.segment]
  have hrest : (((c.write n e.writes).keys.filter fun k => !k.startsWith (l.itemScope e.item)).countP
      fun k => (l.holding? k).any (·.holder == m)) =
      ((c.keys.filter fun k => !k.startsWith (l.itemScope e.item)).countP
        fun k => (l.holding? k).any (·.holder == m)) := by
    refine (Contents.filter_keys_perm _ fun k hk => ?_).countP_eq _
    rw [value?_write_of_not_startsWith h n (by simpa using hk)]
  have hafter : e.after.countP (fun r => decide (r.slot < Layout.slotLimit) && r.holder == m) ≤
      e.after.countP (·.holder == m) := by
    refine List.countP_mono_left fun r _ hr => ?_
    rw [Bool.and_eq_true] at hr
    exact hr.2
  have hbefore : e.before.countP (fun r => decide (r.slot < Layout.slotLimit) && r.holder == m) =
      e.before.countP (·.holder == m) := by
    refine List.countP_congr fun r hr => ?_
    rw [decide_eq_true (hslot r hr), Bool.true_and]
  unfold gain
  omega

/-- All edits together raise the load of a member by what each adds for its own item at most. -/
theorem load_write_allWrites_le {es : List (Edit l)} (h : Apply es c) (n : Int) (m : MemberId)
    (hslot : ∀ e ∈ es, ∀ r ∈ e.before, r.slot < Layout.slotLimit) :
    (c.write n (allWrites es)).load l m ≤ c.load l m + (es.map (·.gain m)).sum := by
  induction es generalizing c with
  | nil => exact Nat.le_refl _
  | cons e es ih =>
    unfold allWrites
    rw [List.flatMap_cons, Contents.write_append, List.map_cons, List.sum_cons]
    have hfirst := load_write_le (h.before e List.mem_cons_self) n m (hslot e List.mem_cons_self)
    have hrest := ih (h.tail n) fun e' he' => hslot e' (List.mem_cons_of_mem _ he')
    unfold allWrites at hrest
    omega

end Edit

end Allotment
