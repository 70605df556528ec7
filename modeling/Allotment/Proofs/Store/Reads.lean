import Allotment.Proofs.Store.Runs

/-!
# Reads of the past

The current contents are served from the live keys, earlier ones from the contents at the compaction point
and the responses since then, and a scope is served by scanning its keys up to the first one that lies
outside.  Each of these ways shows the contents right after the revision that the answer is stamped with
(`Chronicle.Remembers.exists_read`).  On a run (`Hub.read_of_run`) a read of a revision that is not
forgotten shows what was live when the transaction of that revision had been committed, whatever has happened
since; revision zero and revisions to come ask for what is live now; all others are refused.
-/

namespace Allotment

/-- The reading shows the contents under a scope: exactly their entries, with their stamps, in key order. -/
structure Reading.Lists (reading : Reading) (c : Contents) (scope : String) : Prop where
  ordered : reading.entries.Pairwise fun a b => a.key < b.key
  mem_iff : ∀ e, e ∈ reading.entries ↔ c.get? e.key = some e.toStamped ∧ e.key.startsWith scope = true

theorem Contents.lists_entriesUnder (c : Contents) (scope : String) (revision : Int) :
    (Reading.mk revision (c.entriesUnder scope)).Lists c scope :=
  ⟨c.pairwise_entriesUnder scope, fun _ => mem_entriesUnder_iff⟩

namespace Store

variable {s : Store}

/-- Every way in which an available store answers a read. -/
theorem read_eq (ha : s.available = true) (scope : String) (revision : Int) :
    s.read scope revision =
      if revision = 0 ∨ s.revision ≤ revision then .ok ⟨s.revision, s.live.entriesUnder scope⟩
      else if revision < s.compacted then .error (.compacted revision s.compacted)
      else .ok ⟨revision, (s.contentsAt revision).entriesUnder scope⟩ := by
  unfold read guardAvailable
  simp only [ha, ↓reduceIte, bind, Except.bind, pure, Except.pure]
  split
  · rfl
  · split <;> rfl

end Store

namespace Chronicle.Remembers

variable {log : Chronicle} {s : Store} {revision : Int}

/-- A revision that is not forgotten is answered, with the contents right after it. -/
theorem exists_read (h : Remembers log s) (ha : s.available = true) (scope : String)
    (hpos : 1 ≤ revision) (hlow : s.compacted ≤ revision) (hhigh : revision ≤ s.revision) :
    ∃ reading, s.read scope revision = .ok reading ∧ reading.revision = revision ∧
      reading.Lists (log.contentsAt revision) scope := by
  rw [Store.read_eq ha]
  by_cases hcur : s.revision ≤ revision
  · obtain rfl : revision = s.revision := by omega
    refine ⟨_, if_pos (.inr hcur), rfl, ?_⟩
    rw [h.contentsAt_revision]
    exact s.live.lists_entriesUnder scope _
  · rw [if_neg (by omega), if_neg (by omega)]
    refine ⟨_, rfl, rfl, ?_⟩
    rw [h.contentsAt_eq hlow]
    exact Contents.lists_entriesUnder _ scope _

end Chronicle.Remembers

namespace Hub

variable {h : Hub} {moves : List Move}

/-- Reads of a store that has come about by a run.  A revision from one on that is neither forgotten nor to
come is answered with what was live under the scope when the transaction of that revision had just been
committed; zero and revisions to come are answered with what is live; every other revision is forgotten. -/
theorem read_of_run (hrun : empty.playAll moves = h) (ha : h.store.available = true) (scope : String)
    (revision : Int) :
    (1 ≤ revision → h.store.compacted ≤ revision → revision ≤ h.store.revision →
      ∃ reading, h.store.read scope revision = .ok reading ∧ reading.revision = revision ∧
        ∃ m, empty.Commits moves revision m ∧ reading.Lists m.store.live scope) ∧
    (revision = 0 ∨ h.store.revision < revision →
      ∃ reading, h.store.read scope revision = .ok reading ∧ reading.revision = h.store.revision ∧
        reading.Lists h.store.live scope) ∧
    (¬ (1 ≤ revision ∧ h.store.compacted ≤ revision ∧ revision ≤ h.store.revision) →
      ¬ (revision = 0 ∨ h.store.revision < revision) →
      h.store.read scope revision = .error (.compacted revision h.store.compacted)) := by
  subst hrun
  have hremembers := (reached_run moves).remembers
  have hc := hremembers.compacted_le
  refine ⟨fun hpos hlow hhigh => ?_, fun hnow => ?_, fun hpast hnow => ?_⟩
  · obtain ⟨reading, hread, hrev, hlists⟩ := hremembers.exists_read ha scope hpos hlow hhigh
    have hzero : empty.store.revision < revision := hpos
    obtain ⟨m, hm⟩ := exists_commits hzero hhigh
    exact ⟨reading, hread, hrev, m, hm, hm.live_eq ▸ hlists⟩
  · rw [Store.read_eq ha, if_pos (by omega)]
    exact ⟨_, rfl, rfl, Contents.lists_entriesUnder _ scope _⟩
  · rw [Store.read_eq ha, if_neg (by omega), if_pos (by omega)]

/-- A key comes, changes, goes and comes again beside keys outside of its scope, while responses are
forgotten. -/
def comings : List Move :=
  [.commit ⟨[], [.put "/r/a" [1], .put "/s" [9]]⟩, .commit ⟨[], [.put "/r/a" [2], .put "/r/b" [3]]⟩,
    .compact 2, .commit ⟨[], [.delete "/r/a"]⟩, .setAvailable false, .commit ⟨[], [.put "/r/c" []]⟩,
    .setAvailable true, .commit ⟨[], [.put "/r/a" [4]]⟩]

theorem read_of_comings :
    ∃ h, empty.playAll comings = h ∧ h.store.revision = 4 ∧ h.store.compacted = 2 ∧
      h.store.read "/r/" 1 = .error (.compacted 1 2) ∧
      (∃ reading, h.store.read "/r/" 2 = .ok reading ∧ reading.revision = 2 ∧
        ∃ m, empty.Commits comings 2 m ∧ reading.Lists m.store.live "/r/") ∧
      ∃ reading, h.store.read "/r/" 0 = .ok reading ∧ reading.revision = 4 ∧
        reading.Lists h.store.live "/r/" := by
  have hfacts : ((empty.playAll comings).store.revision, (empty.playAll comings).store.compacted,
      (empty.playAll comings).store.available) = (4, 2, true) := by
    decide +kernel
  simp only [Prod.mk.injEq] at hfacts
  obtain ⟨hrev, hcompacted, ha⟩ := hfacts
  refine ⟨_, rfl, hrev, hcompacted, ?_, ?_, ?_⟩
  · have hpast := (read_of_run (rfl : empty.playAll comings = _) ha "/r/" 1).2.2
    rw [hrev, hcompacted] at hpast
    exact hpast (by decide) (by decide)
  · have hkept := (read_of_run (rfl : empty.playAll comings = _) ha "/r/" 2).1
    rw [hrev, hcompacted] at hkept
    exact hkept (by decide) (by decide) (by decide)
  · have hnow := (read_of_run (rfl : empty.playAll comings = _) ha "/r/" 0).2.1 (.inl rfl)
    rwa [hrev] at hnow

end Hub

end Allotment
