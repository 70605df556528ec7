import Allotment.Proofs.Account
import Allotment.Proofs.Commit

/-!
# Tallies are accounts

A share reports a tally of what it has decided, and the account of its writes is read off what they do to the
keys.  The two agree, however many deletions, moves, claims and flags a share combines
(`Viewpoint.accounts_work`): nobody's put meets the deletion of another replica.  Neither do the shares in
different items, so that the tally of a proposal is the account of its transaction wherever its items show
what they showed in the snapshot (`Proposal.Made.account`).
-/

namespace Allotment

/-- The account that a tally stands for. -/
def Tally.account (t : Tally) : Account :=
  ⟨t.added, t.removed + t.repaired, t.packed, t.flagged, 0⟩

theorem Tally.account_add (a b : Tally) : (a + b).account = a.account + b.account := by
  show (Tally.add a b).account = _
  simp only [Tally.account, Tally.add, Account.add_def, Nat.add_add_add_comm, Nat.add_zero]

theorem Tally.eq_zero_of_sum {ts : List Tally} (h : ts.sum = 0) : ∀ t ∈ ts, t = 0 := by
  induction ts with
  | nil => exact fun _ ht => absurd ht List.not_mem_nil
  | cons t ts ih =>
    rw [List.sum_cons] at h
    obtain ⟨ha, hr, hp, hf, hrep⟩ := Tally.mk.inj (show Tally.add t ts.sum = Tally.zero from h)
    rw [Nat.add_eq_zero_iff] at ha hr hp hf hrep
    have ht : ∀ u : Tally, u.added = 0 → u.removed = 0 → u.packed = 0 → u.flagged = 0 → u.repaired = 0 →
        u = 0 := by
      rintro ⟨⟩ rfl rfl rfl rfl rfl
      rfl
    exact List.forall_mem_cons.2 ⟨ht t ha.1 hr.1 hp.1 hf.1 hrep.1,
      ih (ht _ ha.2 hr.2 hp.2 hf.2 hrep.2)⟩

/-! ### Values and keys -/

theorem Assignment.encode_eq_consistentValue_iff {b : Bool} :
    Assignment.encode b = consistentValue ↔ b = true := by
  cases b <;> decide

theorem Account.replaced_encode (a b : Bool) :
    Account.replaced (Assignment.encode a) (Assignment.encode (a || b)) =
      ⟨0, 0, 0, if b && !a then 1 else 0, 0⟩ := by
  simp only [Account.replaced, ne_eq, Assignment.encode_eq_consistentValue_iff]
  cases a <;> cases b <;> rfl

namespace Layout

variable {l : Layout} {k k' : String}

theorem renumbers_eq_true_iff : l.renumbers k k' = true ↔ ∃ a, l.holding? k = some a ∧
    k'.startsWith (l.holdingScope a.item a.holder) = true ∧
      (l.holding? k').map (·.slot) ≠ some a.slot := by
  unfold renumbers
  cases l.holding? k with
  | none => simp
  | some a => simp

/-- What renumbers a replica lies in the scope of its item. -/
theorem startsWith_itemScope_of_renumbers {item : String} (hi : IsSegment item)
    (h : l.renumbers k k' = true) (hk : k.startsWith (l.itemScope item) = true) :
    k'.startsWith (l.itemScope item) = true := by
  obtain ⟨a, ha, hk', -⟩ := renumbers_eq_true_iff.1 h
  obtain rfl := (startsWith_itemScope_iff (holding?_eq_some_iff.1 ha) hi).1 hk
  exact startsWith_itemScope_of_holdingScope hk'

end Layout

/-! ### Accounts of edits -/

/-- Where an item shows some replicas, some writes have an account. -/
def Accounts (l : Layout) (item : String) (ws : List Write) (rs : List Replica) (a : Account) : Prop :=
  ∀ (c : Contents) (n : Int), c.Shows l item rs → c.account l n ws = a

namespace Accounts

variable {l : Layout} {item : String} {ws ws' : List Write} {rs rs' : List Replica} {a a' : Account}

theorem nil (l : Layout) (item : String) (rs : List Replica) : Accounts l item [] rs 0 :=
  fun _ _ _ => rfl

theorem perm_left (h : Accounts l item ws rs' a) (hp : rs.Perm rs') : Accounts l item ws rs a :=
  fun c n hc => h c n (hc.perm hp)

/-- Edits that follow one another add their accounts, unless a put completes a renumbering. -/
theorem append (h : Accounts l item ws rs a) (ht : Turns l item ws rs rs') (h' : Accounts l item ws' rs' a')
    (hjoint : ∀ k k' v, ws.getLast? = some (.delete k) → ws'.head? = some (.put k' v) → False) :
    Accounts l item (ws ++ ws') rs (a + a') := by
  intro c n hc
  rw [Contents.account_append fun k k' v hk hk' => (hjoint k k' v hk hk').elim, h c n hc,
    h' _ n (ht c n hc).2]

theorem delete (l : Layout) (item : String) (r : Replica) (rs : List Replica) :
    Accounts l item [.delete r.key] (r :: rs) ⟨0, 1, 0, 0, 0⟩ := by
  intro c n hc
  show c.posted (.delete r.key) = _
  simp only [Contents.posted, hc.value r List.mem_cons_self, Option.isSome_some, ↓reduceIte]

theorem put {r : Replica} (v : Bytes) (hi : IsSegment item) (hr : r.IsNamed l item)
    (hk : r.key = l.assignmentKey item r.holder r.slot) (hfresh : ∀ q ∈ rs, q.slot ≠ r.slot) :
    Accounts l item [.put r.key v] rs ⟨1, 0, 0, 0, 0⟩ := by
  intro c n hc
  have hnone := hc.value?_eq_none hi hr hk hfresh
  show c.posted (.put r.key v) = _
  simp only [Contents.posted, hnone]

theorem flag {r : Replica} (l : Layout) (item : String) (rs : List Replica)
    (hr : r.assignment.consistent = false) :
    Accounts l item [.put r.key (Assignment.encode true)] (r :: rs) ⟨0, 0, 0, 1, 0⟩ := by
  intro c n hc
  have hold := hc.value r List.mem_cons_self
  rw [hr] at hold
  show c.posted (.put r.key (Assignment.encode true)) = _
  simp only [Contents.posted, hold]
  exact Account.replaced_encode false true

theorem deletes (l : Layout) (item : String) (ds rs : List Replica) :
    Accounts l item (ds.map (.delete ·.key)) (ds ++ rs) ⟨0, ds.length, 0, 0, 0⟩ := by
  induction ds with
  | nil => exact nil l item rs
  | cons d ds ih =>
    have hall := append (delete l item d (ds ++ rs)) (Turns.delete l item d (ds ++ rs)) ih
      fun k k' v _ hput => by cases ds <;> exact nomatch hput
    rw [Account.add_def] at hall
    simpa [Nat.add_comm] using hall

variable {v : Viewpoint} {flags : Option Replica}

/-- To renumber a replica is nothing else, whether it becomes consistent or not. -/
theorem move {m : Replica × Nat} (hi : IsSegment item) (hm : m.1.IsNamed v.layout item)
    (hslot : m.1.slot < Layout.slotLimit) (hfree : ∀ q ∈ m.1 :: rs, q.slot ≠ m.2) :
    Accounts v.layout item (v.moveWrites flags m) (m.1 :: rs)
      ⟨0, 0, 1, if flags == some m.1 && !m.1.assignment.consistent then 1 else 0, 0⟩ := by
  intro c n hc
  have hnamed : (v.moved flags m).IsNamed v.layout item := Turns.isNamed_moved hm
  have hrenumbers : v.layout.renumbers m.1.key (v.moved flags m).key = true := by
    refine Layout.renumbers_eq_true_iff.2 ⟨⟨item, m.1.holder, m.1.slot⟩, ?_, hnamed.startsWith, ?_⟩
    · rw [hm.holding?_eq hi, if_pos hslot]
    · rw [hnamed.holding?_eq hi]
      split
      · exact fun he => hfree m.1 List.mem_cons_self (Option.some.inj he).symm
      · exact nofun
  have hsome : c.renumbered? v.layout (.delete m.1.key)
      (.put (v.moved flags m).key (Assignment.encode (v.moved flags m).assignment.consistent)) =
      some (.moved (Assignment.encode m.1.assignment.consistent)
        (Assignment.encode (m.1.assignment.consistent || flags == some m.1))) :=
    Contents.renumbered?_eq_some_iff.2 ⟨_, _, _, _, rfl, rfl, hrenumbers,
      hc.value?_eq_none hi hnamed (Turns.key_moved hm) hfree, hc.value m.1 List.mem_cons_self, rfl⟩
  show c.account v.layout n [.delete m.1.key, .put (v.moved flags m).key
    (Assignment.encode (v.moved flags m).assignment.consistent)] = _
  rw [Contents.account, hsome]
  show Account.moved _ _ + 0 = _
  refine (Std.LawfulRightIdentity.right_id _).trans ?_
  rw [Account.moved, Account.replaced_encode]

theorem getLast?_moves {ms : List (Replica × Nat)} {k : String} :
    (ms.flatMap (v.moveWrites flags)).getLast? ≠ some (.delete k) := by
  induction ms with
  | nil => exact nofun
  | cons m ms ih =>
    rw [List.flatMap_cons, List.getLast?_append]
    intro h
    cases hlast : (ms.flatMap (v.moveWrites flags)).getLast? with
    | some w =>
      rw [hlast] at h ih
      exact ih h
    | none =>
      rw [hlast] at h
      exact nomatch h

/-- To renumber replicas to distinct slots that are free is nothing else. -/
theorem moves (flags : Option Replica) {ms : List (Replica × Nat)} (rest : List Replica)
    (hi : IsSegment item) (h : Movable v.layout item ms rest)
    (hslot : ∀ m ∈ ms, m.1.slot < Layout.slotLimit) :
    Accounts v.layout item (ms.flatMap (v.moveWrites flags)) (ms.map (·.1) ++ rest)
      ⟨0, 0, ms.length, ms.countP fun m => flags == some m.1 && !m.1.assignment.consistent, 0⟩ := by
  induction ms generalizing rest with
  | nil => exact nil _ _ _
  | cons m ms ih =>
    obtain ⟨hs, hss⟩ := List.forall_mem_cons.1 hslot
    have hfirst : Accounts v.layout item (v.moveWrites flags m) (m.1 :: (ms.map (·.1) ++ rest)) _ :=
      move hi h.named_head hs h.free_head
    have hturns : Turns v.layout item (v.moveWrites flags m) (m.1 :: (ms.map (·.1) ++ rest)) _ :=
      Turns.move hi h.named_head fun q hq => h.free_head q (List.mem_cons_of_mem _ hq)
    have hrest := ih (v.moved flags m :: rest) h.tail hss
    have hall := append hfirst hturns (hrest.perm_left List.perm_middle.symm)
      fun k k' v hlast _ => nomatch hlast
    rw [Account.add_def] at hall
    simp only [Nat.zero_add, Nat.add_comm 1] at hall
    rw [List.flatMap_cons, List.length_cons, List.countP_cons, Nat.add_comm (List.countP _ ms)]
    exact hall

end Accounts

/-! ### Accounts of shares -/

namespace Viewpoint

variable {v : Viewpoint} {repairs : Nat} {item : Entry Item} {rs : List Replica} {p : Placement}

/-- One move at most makes the own replica consistent. -/
theorem countP_moving_pending (hrs : rs.Nodup) :
    ((v.moving repairs item rs p).countP fun m =>
        v.pending item p == some m.1 && !m.1.assignment.consistent) =
      if (v.moving repairs item rs p).any fun m => v.pending item p == some m.1 then 1 else 0 := by
  cases hp : v.pending item p with
  | none => simp
  | some r =>
    have hcount : ((v.moving repairs item rs p).countP fun m =>
        some r == some m.1 && !m.1.assignment.consistent) =
        ((v.moving repairs item rs p).map (·.1)).count r := by
      rw [List.count, List.countP_map]
      refine List.countP_congr fun m _ => ?_
      by_cases hm : m.1 = r
      · simp [hm, consistent_of_pending hp]
      · simp [hm, Ne.symm hm]
    have hany : ((v.moving repairs item rs p).any fun m => some r == some m.1) = true ↔
        r ∈ (v.moving repairs item rs p).map (·.1) := by
      rw [List.any_eq_true, List.mem_map]
      exact exists_congr fun m => and_congr_right fun _ => by
        rw [beq_iff_eq, Option.some.injEq, eq_comm]
    rw [hcount, (nodup_moving hrs).count]
    exact if_congr hany.symm rfl rfl

theorem accounts_moving (hrs : ReplicasOf v.layout item.value.id rs) :
    Accounts v.layout item.value.id
      ((v.moving repairs item rs p).flatMap (v.moveWrites (v.pending item p)))
      (v.spared repairs item rs p)
      ⟨0, 0, (v.moving repairs item rs p).length,
        if (v.moving repairs item rs p).any fun m => v.pending item p == some m.1 then 1 else 0, 0⟩ := by
  have hmovable : Movable v.layout item.value.id (v.moving repairs item rs p) (v.resting repairs item rs p) :=
    movable_moving hrs
  have hmoves := Accounts.moves (v.pending item p) _ hrs.segment hmovable fun m hm =>
    hrs.slot_lt (mem_spared_iff.1 (mem_spared_of_mem_moving hm).1).1
  rw [countP_moving_pending hrs.nodup_self] at hmoves
  exact hmoves.perm_left (spared_perm v repairs item p hrs.nodup_self)

theorem accounts_claim (hrs : ReplicasOf v.layout item.value.id rs) (hself : v.self.IsValid) :
    Accounts v.layout item.value.id
      (if v.claims repairs item rs p then
        [.put (v.claimed item rs).key (Assignment.encode false)] else [])
      ((v.moving repairs item rs p).map (v.moved (v.pending item p)) ++ v.resting repairs item rs p)
      ⟨if v.claims repairs item rs p then 1 else 0, 0, 0, 0, 0⟩ := by
  split
  next hclaims =>
    refine Accounts.put _ hrs.segment (isNamed_claimed hself) rfl fun q hq => ?_
    exact Nat.ne_of_lt (slot_lt_of_claims hclaims hq)
  next => exact Accounts.nil _ _ _

theorem accounts_flag (hp : p.Fits rs) (hrs : rs.Nodup) (l : Layout) (name : String)
    (others : List Replica) :
    Accounts l name
      ((v.flagging repairs item rs p).toList.map fun r => .put r.key (Assignment.encode true))
      (others ++ v.resting repairs item rs p)
      ⟨0, 0, 0, (v.flagging repairs item rs p).toList.length, 0⟩ := by
  cases hf : v.flagging repairs item rs p with
  | none => exact Accounts.nil _ _ _
  | some r =>
    have hperm := (List.perm_cons_erase (mem_resting_of_flagging hp hrs hf)).append_left others
    exact (Accounts.flag l name _ (consistent_of_pending (of_flagging_eq_some hf).1)).perm_left
      (hperm.trans List.perm_middle)

/-- The count of a share in an existing item is the account of its writes. -/
theorem accounts_placed (hrs : ReplicasOf v.layout item.value.id rs) (hp : p.Fits rs)
    (hself : v.self.IsValid) :
    Accounts v.layout item.value.id (v.placedWrites repairs item rs p) rs
      (v.counts repairs item rs p).account := by
  have hdeletes := perm_deleted_append_spared v repairs item hp hrs.nodup_self
  have h₁ := (Accounts.deletes v.layout item.value.id (v.deleted repairs item p)
    (v.spared repairs item rs p)).perm_left hdeletes
  have t₁ := (Turns.deletes v.layout item.value.id (v.deleted repairs item p)
    (v.spared repairs item rs p)).perm_left hdeletes
  have h₂ := h₁.append t₁ (accounts_moving hrs) fun k k' value _ hput => by
    cases hm : v.moving repairs item rs p <;> rw [hm] at hput <;> exact nomatch hput
  have t₂ := t₁.append (turns_moving hrs)
  have h₃ := h₂.append t₂ (accounts_claim hrs hself) fun k k' value hlast hput => by
    split at hput
    next hclaims =>
      obtain ⟨hdel, hmove, -⟩ := claims_eq_true_iff.1 hclaims
      rw [hdel, hmove] at hlast
      exact nomatch hlast
    next => exact nomatch hput
  have t₃ := t₂.append (turns_claim hrs hself)
  have h₄ := h₃.append t₃ ((accounts_flag hp hrs.nodup_self v.layout item.value.id _).perm_left
    (List.Perm.of_eq (List.append_assoc _ _ _).symm)) fun k k' value hlast hput => by
    cases hf : v.flagging repairs item rs p with
    | none =>
      rw [hf] at hput
      exact nomatch hput
    | some r =>
      -- nothing is deleted and nothing claimed, so that at most moves come before the flag
      have hpending := (of_flagging_eq_some hf).1
      have hclaims : ¬ v.claims repairs item rs p = true := fun hc =>
        nomatch (pending_eq_none_of_claims hp hc).symm.trans hpending
      rw [deleted_eq_nil_of_pending hpending, if_neg hclaims, List.append_nil] at hlast
      exact Accounts.getLast?_moves hlast
  have hsum : (v.counts repairs item rs p).account =
      ⟨0, (v.deleted repairs item p).length, 0, 0, 0⟩ +
        ⟨0, 0, (v.moving repairs item rs p).length,
          if (v.moving repairs item rs p).any fun m => v.pending item p == some m.1 then 1 else 0, 0⟩ +
        ⟨if v.claims repairs item rs p then 1 else 0, 0, 0, 0, 0⟩ +
        ⟨0, 0, 0, (v.flagging repairs item rs p).toList.length, 0⟩ := by
    simp only [Account.add_def, Tally.account, counts, deleted, List.length_append, Nat.zero_add,
      Nat.add_zero]
  rw [hsum]
  exact h₄

variable {t : Planned}

/-- The tally of a share is the account of its writes. -/
theorem accounts_work (ht : t.Fits) (hrs : ReplicasOf v.layout t.name t.replicas) (hself : v.self.IsValid)
    (repairs : Nat) :
    Accounts v.layout t.name (v.work repairs t).writes t.replicas (v.work repairs t).tally.account := by
  cases t with
  | removed name rs =>
    show Accounts _ _ (v.removedWork repairs name rs).writes rs (v.removedWork repairs name rs).tally.account
    rcases writes_removedWork_cases v repairs name rs with h | ⟨top, htop, hwrites, -, htally, -⟩
    · rw [h]
      exact Accounts.nil _ _ _
    · rw [hwrites, htally]
      obtain ⟨init, rfl⟩ := List.getLast?_eq_some_iff.1 htop
      exact (Accounts.delete v.layout _ top init).perm_left (List.perm_append_singleton _ _)
  | placed item rs p =>
    show Accounts _ _ (v.placedWork repairs item rs p).writes rs (v.placedWork repairs item rs p).tally.account
    rw [writes_placedWork, tally_placedWork]
    exact accounts_placed hrs ht hself

/-- A share that counts nothing writes nothing. -/
theorem writes_work_eq_nil_of_tally (h : (v.work repairs t).tally = 0) :
    (v.work repairs t).writes = [] := by
  cases t with
  | placed item rs p =>
    have hcounts : v.counts repairs item rs p = Tally.zero := tally_placedWork.symm.trans h
    obtain ⟨hadded, hremoved, hpacked, hflagged, hrepaired⟩ := Tally.mk.inj hcounts
    have hclaims : ¬ v.claims repairs item rs p = true := fun hc => by
      rw [if_pos hc] at hadded
      exact nomatch hadded
    have hflagging := (Nat.add_eq_zero_iff.1 hflagged).2
    show (v.placedWork repairs item rs p).writes = []
    rw [writes_placedWork, placedWrites, deleted, if_neg hclaims, List.eq_nil_of_length_eq_zero hremoved,
      List.eq_nil_of_length_eq_zero hpacked, List.eq_nil_of_length_eq_zero hrepaired,
      List.eq_nil_of_length_eq_zero hflagging]
    rfl
  | removed name rs =>
    have htally : (v.removedWork repairs name rs).tally = Tally.zero := h
    show (v.removedWork repairs name rs).writes = []
    rcases writes_removedWork_cases v repairs name rs with he | ⟨-, -, -, -, he, -⟩
    · rw [he]
      rfl
    · rw [he] at htally
      exact nomatch htally

/-- Shares in different items, which show what was planned for, add their accounts. -/
theorem account_tasks {ts : List (Nat × Planned)} {c : Contents} (n : Int)
    (hnodup : (ts.map (·.2.name)).Nodup) (hseg : ∀ t ∈ ts, IsSegment t.2.name)
    (hturns : ∀ t ∈ ts,
      Turns v.layout t.2.name (v.work t.1 t.2).writes t.2.replicas (v.outcome t.1 t.2))
    (haccounts : ∀ t ∈ ts,
      Accounts v.layout t.2.name (v.work t.1 t.2).writes t.2.replicas (v.work t.1 t.2).tally.account)
    (hshows : ∀ t ∈ ts, c.Shows v.layout t.2.name t.2.replicas) :
    c.account v.layout n (ts.flatMap fun t => (v.work t.1 t.2).writes) =
      (ts.map fun t => (v.work t.1 t.2).tally).sum.account := by
  induction ts generalizing c with
  | nil => rfl
  | cons t ts ih =>
    obtain ⟨hnot, hnodup'⟩ := List.nodup_cons.1 hnodup
    obtain ⟨ht, hts⟩ := List.forall_mem_cons.1 hturns
    obtain ⟨hs, hss⟩ := List.forall_mem_cons.1 hshows
    have hne : ∀ t' ∈ ts, t'.2.name ≠ t.2.name := fun t' ht' he =>
      hnot (List.mem_map.2 ⟨t', ht', he⟩)
    have hseg' : ∀ t' ∈ ts, IsSegment t'.2.name := fun t' ht' => hseg t' (List.mem_cons_of_mem _ ht')
    have hjoint : ∀ k k' value, (v.work t.1 t.2).writes.getLast? = some (.delete k) →
        (ts.flatMap fun t => (v.work t.1 t.2).writes).head? = some (.put k' value) →
          v.layout.renumbers k k' = false := by
      intro k k' value hlast hput
      obtain ⟨t', ht', hw⟩ := List.mem_flatMap.1 (List.mem_of_head? hput)
      have hk := (ht c n hs).1 _ (List.mem_of_getLast? hlast)
      have hk' := (hts t' ht' c n (hss t' ht')).1 _ hw
      refine Bool.eq_false_iff.2 fun hre => hne t' ht' ?_
      have hre := Layout.startsWith_itemScope_of_renumbers (hseg t List.mem_cons_self) hre hk
      exact Layout.eq_of_startsWith_itemScope (hseg' t' ht') (hseg t List.mem_cons_self) hk' hre
    rw [List.flatMap_cons, Contents.account_append hjoint, haccounts t List.mem_cons_self c n hs,
      ih hnodup' hseg' hts (fun t' ht' => haccounts t' (List.mem_cons_of_mem _ ht')) fun t' ht' =>
        ht.shows_of_ne hs n (hseg t List.mem_cons_self) (hseg' t' ht') (hne t' ht') (hss t' ht')]
    rw [List.map_cons, List.sum_cons, Tally.account_add]

end Viewpoint

/-! ### Accounts of proposals -/

namespace Proposal

variable {s : Snapshot} {m : MemberId} {b : Bounds} {p : Proposal} {entry : Entry Member}
  {ts : List (Nat × Planned)}

/-- The tally of a proposal is the account of its transaction, in all contents that show what the snapshot
shows of its items. -/
theorem Made.account (hm : Made s m b p entry ts) (hs : s.IsFaithful) {c : Contents} (n : Int)
    (hshows : ∀ t ∈ ts, c.Shows s.layout t.2.name t.2.replicas) :
    c.account s.layout n p.transaction.writes = p.tally.account := by
  rw [hm.writes, hm.tally]
  refine Viewpoint.account_tasks (v := viewpoint s m) n (hm.nodup_names hs)
    (fun t ht => (hm.replicasOf hs ht).segment) (fun t ht => hm.turns hs ht) (fun t ht => ?_) hshows
  exact Viewpoint.accounts_work (v := viewpoint s m) (hm.fits hs ht) (hm.replicasOf hs ht)
    (hm.isValid_self hs) t.1

theorem Made.tally_eq_zero_iff (hm : Made s m b p entry ts) :
    p.tally = 0 ↔ p.transaction.writes = [] := by
  rw [hm.tally, hm.writes, List.flatMap_eq_nil_iff]
  constructor
  · intro h t ht
    exact Viewpoint.writes_work_eq_nil_of_tally (Tally.eq_zero_of_sum h _ (List.mem_map_of_mem ht))
  · intro h
    cases ts with
    | nil => rfl
    | cons t ts => exact absurd (h t List.mem_cons_self) (hm.writing t List.mem_cons_self)

end Proposal

end Allotment
