import Gnos.Vmm.Paging

/-! The table of shared frames as a map from frames to counts, and what each operation on it does to
that map. -/

namespace Gnos.Vmm

open ProofKit Function Probe

def refs (s : Vmm) (f : ℕ) : Option ℕ := get frameSlots shmHash s.gShm f

/-- The table is in order: searches are right, `g_frame_slots_used` counts the slots in use, and no
count is 0. -/
structure Shm (s : Vmm) : Prop where
  probed : Probe.Probed frameSlots shmHash s.gShm
  count : s.gFrameSlotsUsed = (usedSlots frameSlots s.gShm).card
  pos : ∀ f r, s.refs f = some r → 0 < r

/-- `s'` differs from `s` in the table of shared frames only. -/
structure RefFrame (s s' : Vmm) : Prop where
  rest : s' = { s with gShm := s'.gShm, gFrameSlotsUsed := s'.gFrameSlotsUsed }

/-- The table of `s'` maps `f` to `v` and is otherwise that of `s`. -/
structure RefSet (s : Vmm) (f : ℕ) (v : Option ℕ) (s' : Vmm) : Prop where
  shm : Shm s'
  refs : s'.refs = Function.update s.refs f v
  frame : RefFrame s s'

namespace Shm

variable {s : Vmm} {f j r : ℕ}

section

variable (h : Shm s) (hj : j < frameSlots) (hUsed : s.gShm j = .used f r)
include h hj hUsed

theorem setSlot {v : ℕ} (hv : 0 < v) : RefSet s f (some v) (s.setSlot j (.used f v)) := by
  have hProbed := h.probed.setValue hj hUsed v
  have hRefs : (s.setSlot j (.used f v)).refs = update s.refs f (some v) := by
    funext g
    have hGet := h.probed.get_update_used hProbed hj
      (fun k w hw => by rw [hUsed] at hw; exact (Slot.used.inj hw).1.symm) g
    rw [update_apply]
    exact hGet
  refine ⟨⟨hProbed, ?_, ?_⟩, hRefs, ⟨rfl⟩⟩
  · rw [Vmm.setSlot, usedSlots_update _ hj,
      if_pos (show (Slot.used f v).isUsed from rfl), Finset.insert_eq_of_mem, h.count]
    exact mem_usedSlots.mpr ⟨hj, by rw [hUsed]; rfl⟩
  · intro g w hw
    rw [hRefs, update_apply] at hw
    split at hw
    · rw [← Option.some.inj hw]
      exact hv
    · exact h.pos g w hw

theorem forget : RefSet s f none (s.forget j) := by
  have hMem : j ∈ usedSlots frameSlots s.gShm := mem_usedSlots.mpr ⟨hj, by rw [hUsed]; rfl⟩
  have hRefs : (s.forget j).refs = update s.refs f none := by
    funext g
    rw [update_apply]
    exact h.probed.get_delete hj hUsed g
  refine ⟨⟨h.probed.delete, ?_, ?_⟩, hRefs, ⟨rfl⟩⟩
  · show s.gFrameSlotsUsed - 1 = (usedSlots frameSlots (update s.gShm j .tomb)).card
    rw [usedSlots_update _ hj, if_neg (by decide), Finset.card_erase_of_mem hMem, h.count]
  · intro g w hw
    rw [hRefs, update_apply] at hw
    split at hw
    · cases hw
    · exact h.pos g w hw

end

variable (h : Shm s)
include h

theorem found (hSome : s.refs f = some r) :
    ∃ j < frameSlots, s.shmFind f = some j ∧ s.gShm j = .used f r ∧ s.refsAt j = r := by
  rcases h.probed.find_cases f with ⟨-, hNone⟩ | ⟨j, r', hj, hFind, hUsed, hGet⟩
  · exact absurd (hNone.symm.trans hSome) (by simp)
  · obtain rfl := Option.some.inj (hGet.symm.trans hSome)
    exact ⟨j, hj, hFind, hUsed, by rw [refsAt, hUsed]⟩

theorem shareUnref_more (hSome : s.refs f = some (r + 1)) (hr : 0 < r)
    (hMax : r < 2 ^ 32) : RefSet s f (some r) (s.shareUnref f) := by
  obtain ⟨j, hj, hFind, hUsed, hAt⟩ := h.found hSome
  have hRefs : (r + 1 + 2 ^ 32 - 1) % 2 ^ 32 = r := by omega
  rw [Vmm.shareUnref, hFind]
  simp only [hAt, hRefs]
  rw [if_neg (Nat.ne_of_gt hr)]
  exact h.setSlot hj hUsed hr

theorem shareUnref_last (hSome : s.refs f = some 1) :
    ∃ s', RefSet s f none s' ∧ s.shareUnref f = s'.pmmFree f := by
  obtain ⟨j, hj, hFind, hUsed, hAt⟩ := h.found hSome
  refine ⟨s.forget j, h.forget hj hUsed, ?_⟩
  rw [Vmm.shareUnref, hFind]
  simp only [hAt]
  rfl

end Shm

end Gnos.Vmm
