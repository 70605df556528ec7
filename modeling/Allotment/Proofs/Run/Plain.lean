import Allotment.Proofs.Spelling
import Allotment.Proofs.Plan.Exclusive
import Allotment.Proofs.Run.Basic

/-!
# Keys stay plain

A member that moves or claims a replica puts the key that is built for it, and otherwise puts only keys that
are there (`Commits.isPlain`).  So if nobody else spells a slot with a sign or with leading zeros, then no key
in the store ever does (`World.plain_of_run`), and what is stored under different keys stands for different
things (`World.eq_of_parse_of_run`).
-/

namespace Allotment

/-- All keys are plain. -/
def Contents.IsPlain (l : Layout) (c : Contents) : Prop :=
  ∀ k ∈ c.keys, l.IsPlain k

/-- Only plain keys are put. -/
def Transaction.PutsPlain (l : Layout) (t : Transaction) : Prop :=
  ∀ k v, .put k v ∈ t.writes → l.IsPlain k

/-- Other writers put plain keys only, and members plan as they like. -/
def Rules.plain (l : Layout) : Rules :=
  ⟨Transaction.PutsPlain l, fun _ _ _ => True⟩

namespace Contents

variable {l : Layout} {c : Contents} {n : Int} {ws : List Write} {k : String}

/-- Whoever puts only plain keys and keys that are there leaves the keys plain. -/
theorem IsPlain.write (hc : c.IsPlain l) (hput : ∀ k v, .put k v ∈ ws → k ∈ c.keys ∨ l.IsPlain k) (n : Int) :
    (c.write n ws).IsPlain l := by
  intro k hk
  rcases mem_keys_of_mem_keys_write hk with hold | ⟨v, hv⟩
  · exact hc k hold
  · exact (hput k v hv).elim (hc k) id

end Contents

/-- A commit of a proposal leaves the keys plain, however old its snapshot is. -/
theorem Commits.isPlain {l : Layout} {log : Chronicle} {s s' : Store} {m : MemberId} {b : Bounds}
    {p : Proposal} {snapshot : Snapshot} (h : Commits l log s m b p snapshot s')
    (hs : s.live.IsPlain l) : s'.live.IsPlain l := by
  obtain ⟨entry, ts, hm⟩ := Proposal.made_of_ofSnapshot h.proposed
  rw [h.live_eq]
  refine hs.write (fun k v hput => ?_) _
  rw [hm.writes] at hput
  obtain ⟨t, ht, hput⟩ := List.mem_flatMap.1 hput
  have hrs := h.replicasOf hm ht
  have hlayout : (Proposal.viewpoint snapshot m).layout = l := h.layout_eq
  rcases Viewpoint.of_put_mem_work (hm.fits h.faithful ht) hput with
    ⟨r, hr, -, n, rfl⟩ | ⟨r, hr, rfl⟩ | ⟨-, n, rfl⟩
  · rw [hlayout, hrs.item_eq r hr]
    exact .inr (l.isPlain_assignmentKey hrs.segment (hrs.named hr).holder n)
  · refine .inl (Contents.mem_keys_iff.2 ?_)
    rw [(h.shows_before hm ht).value r hr]
    rfl
  · rw [hlayout]
    exact .inr (l.isPlain_assignmentKey hrs.segment (hm.isValid_self h.faithful) n)

/-! ### Runs -/

namespace World

variable {l : Layout} {w w' : World}

/-- If all keys are plain in the beginning, then they are after every run. -/
theorem plain_of_run (h₀ : w.IsStart) (hw : w.store.live.IsPlain l) (h : Run l (Rules.plain l) w w') :
    w'.store.live.IsPlain l :=
  h.live_induct h₀.sound hw (fun _ _ n ht hc => hc.write (fun k v hv => .inr (ht k v hv)) n)
    fun h hc => h.isPlain hc

/-- No two keys of the store ever stand for the same member, item or assignment. -/
theorem eq_of_parse_of_run (h₀ : w.IsStart) (hw : w.store.live.IsPlain l) (h : Run l (Rules.plain l) w w')
    {k k' : String} (hk : k ∈ w'.store.live.keys) (hk' : k' ∈ w'.store.live.keys) {i : Identity}
    (hi : l.parse k = .ok i) (hi' : l.parse k' = .ok i) : k = k' := by
  have hplain := plain_of_run h₀ hw h
  rw [← hplain k hk i hi, hplain k' hk' i hi']

end World

end Allotment
