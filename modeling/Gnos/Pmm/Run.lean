import Gnos.Pmm.Init

/-! Whole runs of the allocator after `pmm_init`.  A run keeps the frames of the live allocations;
giving a frame back needs it to be one of them. -/

namespace Gnos.Pmm

open ProofKit List

/-- The frames of an allocation of `n` frames at `phys`; address 0 stands for failure. -/
def framesAt (phys n : ℕ) : List ℕ := if phys = 0 then [] else List.range' (phys / pageSize) n

/-- The states that a run reaches from `m₀`; `held` lists the frames of every live allocation. -/
inductive Reach (m₀ : Pmm) (mem₀ : Mem) : Pmm → Mem → List ℕ → Prop
  | start : Reach m₀ mem₀ m₀ mem₀ []
  | alloc {m mem held} : Reach m₀ mem₀ m mem held →
      Reach m₀ mem₀ m.alloc.2 mem (framesAt m.alloc.1 1 ++ held)
  | allocZeroed {m mem held} : Reach m₀ mem₀ m mem held →
      Reach m₀ mem₀ (m.allocZeroed mem).2.1 (m.allocZeroed mem).2.2
        (framesAt (m.allocZeroed mem).1 1 ++ held)
  | allocContiguous {m mem held} (n : ℕ) : n < 2 ^ 64 → Reach m₀ mem₀ m mem held →
      Reach m₀ mem₀ (m.allocContiguous n).2 mem (framesAt (m.allocContiguous n).1 n ++ held)
  | free {m mem held} (f : ℕ) : f ∈ held → Reach m₀ mem₀ m mem held →
      Reach m₀ mem₀ (m.free (f * pageSize)) mem (held.erase f)

/-- The bookkeeping holds, the held frames are distinct allocated ones, and they and the free frames
may be handed out. -/
structure RunInv (ok : ℕ → Prop) (m : Pmm) (held : List ℕ) : Prop where
  inv : m.Inv
  nodup : held.Nodup
  used : ∀ f ∈ held, f < m.gTotal ∧ m.bitTest f
  heldOk : ∀ f ∈ held, ok f
  freeOk : ∀ f, m.IsFree f → ok f

namespace RunInv

variable {ok : ℕ → Prop} {m : Pmm} {held : List ℕ}

section

variable (h : RunInv ok m held)
include h

theorem grow {m' : Pmm} {taken : List ℕ} (hInv : m'.Inv) (hTotal : m'.gTotal = m.gTotal)
    (hNodup : taken.Nodup) (hFree : ∀ f ∈ taken, m.IsFree f)
    (hBits : ∀ g, m'.bitTest g = (decide (g ∈ taken) || m.bitTest g)) :
    RunInv ok m' (taken ++ held) := by
  refine ⟨hInv, ?_, fun f hf => ?_, fun f hf => ?_, fun f hf => ?_⟩
  · refine nodup_append.mpr ⟨hNodup, h.nodup, fun f hf g hg hEq => ?_⟩
    have hUsed := (h.used g hg).2
    rw [← hEq, (hFree f hf).2] at hUsed
    cases hUsed
  · rw [hTotal, hBits]
    rcases mem_append.mp hf with hf | hf
    · exact ⟨(hFree f hf).1, by simp [hf]⟩
    · exact ⟨(h.used f hf).1, by simp [(h.used f hf).2]⟩
  · rcases mem_append.mp hf with hf | hf
    · exact h.freeOk f (hFree f hf)
    · exact h.heldOk f hf
  · obtain ⟨hLt, hBit⟩ := hf
    rw [hBits, Bool.or_eq_false_iff] at hBit
    exact h.freeOk f ⟨hTotal ▸ hLt, hBit.2⟩

theorem alloc (hZero : ¬ok 0) : RunInv ok m.alloc.2 (framesAt m.alloc.1 1 ++ held) := by
  rcases alloc_spec h.inv with ⟨f, hFree, hAlloc⟩ | ⟨hAlloc, -⟩
  · have hf : f ≠ 0 := by
      rintro rfl
      exact hZero (h.freeOk 0 hFree)
    have hFrames : framesAt (f * pageSize) 1 = [f] := by
      simp [framesAt, hf, pageSize]
    rw [hAlloc, hFrames]
    exact h.grow (h.inv.take hFree) (gTotal_take m f) (nodup_singleton f)
      (fun g hg => by rw [mem_singleton.mp hg]; exact hFree) fun g => by simp
  · rw [hAlloc]
    exact h

theorem allocContiguous (hZero : ¬ok 0) {n : ℕ} (hWord : n < 2 ^ 64) :
    RunInv ok (m.allocContiguous n).2 (framesAt (m.allocContiguous n).1 n ++ held) := by
  rcases Nat.eq_zero_or_pos n with rfl | hn
  · exact h
  rcases allocContiguous_spec h.inv hn hWord with ⟨f, hRun, -, hAlloc⟩ | ⟨hAlloc, -⟩
  · have hf : f ≠ 0 := by
      rintro rfl
      exact hZero (h.freeOk 0 (hRun 0 hn))
    have hFrames : framesAt (f * pageSize) n = range' f n := by
      simp [framesAt, hf, pageSize]
    rw [hAlloc, hFrames]
    refine h.grow (h.inv.takeRun hn hRun) (gTotal_takeRun h.inv hRun) nodup_range'
      (fun g hg => ?_) fun g => ?_
    · rw [mem_range'_1] at hg
      have := hRun (g - f) (by omega)
      rwa [show f + (g - f) = g by omega] at this
    · rw [bitTest_takeRun h.inv hRun]
      simp [mem_range'_1]
  · rw [hAlloc]
    exact h

theorem free {f : ℕ} (hf : f ∈ held) : RunInv ok (m.free (f * pageSize)) (held.erase f) := by
  obtain ⟨hLt, -⟩ := h.used f hf
  refine ⟨h.inv.free _, h.nodup.erase f, fun g hg => ?_, fun g hg => ?_, fun g hg => ?_⟩
  · obtain ⟨hne, hg⟩ := h.nodup.mem_erase_iff.mp hg
    obtain ⟨hgLt, hBit⟩ := h.used g hg
    rw [gTotal_free, bitTest_free g hgLt, frame_mul_div, hBit]
    exact ⟨hgLt, by simp [hne]⟩
  · exact h.heldOk g (mem_of_mem_erase hg)
  · rcases (isFree_free hLt).mp hg with hg | rfl
    · exact h.freeOk g hg
    · exact h.heldOk g hf

end

end RunInv

end Gnos.Pmm
