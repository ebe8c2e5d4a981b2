import Gnos.Seccomp.Model

/-! `bpf_run` against the semantics of classic BPF.  A scratch word past the sixteenth reads 0. -/

namespace Gnos.Seccomp

open Relation BitVec

/-- The operations of the ALU; none is defined for a division by zero. -/
def aluOp (op : BitVec 16) (a y : BitVec 32) : Option (BitVec 32) :=
  match op with
  | 0x04#16 => some (a + y)
  | 0x14#16 => some (a - y)
  | 0x24#16 => some (a * y)
  | 0x34#16 => if y = 0 then none else some (a / y)
  | 0x44#16 => some (a ||| y)
  | 0x54#16 => some (a &&& y)
  | 0x64#16 => some (a <<< y)
  | 0x74#16 => some (a >>> y)
  | 0x84#16 => some (-a)
  | 0x94#16 => if y = 0 then none else some (a % y)
  | 0xa4#16 => some (a ^^^ y)
  | _ => none

def jumpIf (op : BitVec 16) (a y : BitVec 32) : Option Bool :=
  match op with
  | 0x15#16 => some (a = y)
  | 0x25#16 => some (y < a)
  | 0x35#16 => some (y ≤ a)
  | 0x45#16 => some (a &&& y ≠ 0)
  | _ => none

section

variable (last : Word) (d : Data) (wild : BitVec 32 → BitVec 32) (insn : List SockFilter)

/-- The `n` bytes at `k` of the 64 that a filter may read: the structure of the kernel has 56 of
them. -/
def fetch (n : ℕ) (k : BitVec 32) : Option (BitVec 32) :=
  if k.toNat + n ≤ 64 then
    some ((((last ++ d.bits) >>> (8 * k.toNat)).setWidth (8 * n)).setWidth 32)
  else none

/-- The reference: what an instruction means. -/
def refStep (pc : SockFilter) (s : Bpf) : Turn :=
  let k := pc.k
  -- the bit of `BPF_X`
  let y := if pc.code.getLsbD 3 then s.x else k
  let go (s : Bpf) : Turn := .next { s with ip := s.ip + 1 }
  let jump (n : ℕ) : Turn := .next { s with ip := s.ip + 1 + n }
  let load (n : ℕ) (k : BitVec 32) : Turn :=
    match fetch last d n k with
    | some a => go { s with a }
    | none => .ret retKillProcess
  let word : BitVec 32 := if k < 16 then s.m k else 0
  let store (v : BitVec 32) : Turn :=
    go { s with m := if k < 16 then Function.update s.m k v else s.m }
  match pc.code with
  | 0x20#16 => load 4 k
  | 0x28#16 => load 2 k
  | 0x30#16 => load 1 k
  | 0x40#16 => load 4 (s.x + k)
  | 0x48#16 => load 2 (s.x + k)
  | 0x50#16 => load 1 (s.x + k)
  | 0x00#16 => go { s with a := k }
  | 0x60#16 => go { s with a := word }
  | 0x80#16 => go { s with a := 64 }
  | 0x01#16 => go { s with x := k }
  | 0x61#16 => go { s with x := word }
  | 0x81#16 => go { s with x := 64 }
  | 0x02#16 => store s.a
  | 0x03#16 => store s.x
  | 0x05#16 => jump k.toNat
  | 0x06#16 => .ret k
  | 0x16#16 => .ret s.a
  | 0x07#16 => go { s with x := s.a }
  | 0x87#16 => go { s with a := s.x }
  | code =>
    match aluOp (code &&& ~~~8) s.a y with
    | some a => go { s with a }
    | none =>
      match jumpIf (code &&& ~~~8) s.a y with
      | some c => jump (if c then pc.jt else pc.jf).toNat
      | none => .ret retKillProcess

/-- The value that the reference gives a program from a state on. -/
inductive Runs : Bpf → BitVec 32 → Prop
  | off {s} : insn[s.ip]? = none → Runs s retKillProcess
  | ret {s pc v} : insn[s.ip]? = some pc → refStep last d pc s = .ret v → Runs s v
  | next {s s' pc v} : insn[s.ip]? = some pc → refStep last d pc s = .next s' → Runs s' v → Runs s v

/-- `bpf_run` goes on from `s` to `s'`. -/
def Moves (s s' : Bpf) : Prop :=
  ∃ pc, insn[s.ip]? = some pc ∧ bpfStep wild d pc s = .next s'

/-- The value is the reference's, and a load that leaves the 64 bytes kills. -/
def Right (s : Bpf) (v : BitVec 32) : Prop :=
  Runs last d insn s v ∧ ∀ s', ReflTransGen (Moves d wild insn) s s' →
    ∀ pc, insn[s'.ip]? = some pc →
    pc.code = 0x20 → 64 < pc.k.toNat + 4 → bpfStep wild d pc s' = .ret retKillProcess

/-- The instructions that `bpf_run` has, and the loads of the 56 bytes. -/
def Known (pc : SockFilter) : Prop :=
  pc.code ∈ [0x20, 0x54, 0x15, 0x35, 0x25, 0x45, 0x1d, 0x3d, 0x2d, 0x4d, 0x07, 0x02, 0x03, 0x60,
    0x06, 0x16#16] ∧ (pc.code = 0x20 → pc.k.toNat + 4 ≤ 56 ∨ 64 < pc.k.toNat + 4)

/-- The end of the load wraps. -/
def Wraps (pc : SockFilter) : Prop := pc.code = 0x20 ∧ 2 ^ 32 ≤ pc.k.toNat + 4

/-- No load is reached whose end wraps, and where an instruction is reached that `bpf_run` does not
have, the reference kills too. -/
def Faithful (s : Bpf) : Prop :=
  ∀ s', ReflTransGen (Moves d wild insn) s s' → ∀ pc, insn[s'.ip]? = some pc →
    ¬Wraps pc ∧ (Known pc ∨ Runs last d insn s' retKillProcess)

end

variable {wild : BitVec 32 → BitVec 32} {last : Word} {d : Data} {insn : List SockFilter}
  {pc : SockFilter} {s s' : Bpf}

theorem fetch_eq {k : BitVec 32} (hk : k.toNat + 4 ≤ 56) :
    fetch last d 4 k = some (load wild d k) := by
  rw [fetch, if_pos (by omega), load, if_pos hk]
  refine congrArg some (eq_of_getLsbD_eq fun i hi => ?_)
  have hIn : 8 * k.toNat + i < 448 := by omega
  rw [setWidth_setWidth_of_le _ (by decide), getLsbD_setWidth, getLsbD_setWidth,
    getLsbD_ushiftRight, getLsbD_ushiftRight, getLsbD_append, if_pos hIn]

theorem bpfStep_load (hCode : pc.code = 0x20) : bpfStep wild d pc s =
    if 56 < (pc.k + 4).toNat then .ret retKillProcess
    else .next { s with a := load wild d pc.k, ip := s.ip + 1 } := by
  unfold bpfStep
  rw [hCode]
  rfl

section

variable (hEnd : ¬Wraps pc)
include hEnd

theorem toNat_load_end (hCode : pc.code = 0x20) : (pc.k + 4).toNat = pc.k.toNat + 4 := by
  rw [toNat_add]
  exact Nat.mod_eq_of_lt (Nat.lt_of_not_le fun hWrap => hEnd ⟨hCode, hWrap⟩)

theorem bpfStep_known (h : Known pc) : bpfStep wild d pc s = refStep last d pc s := by
  obtain ⟨code, jt, jf, k⟩ := pc
  obtain ⟨hCode, hLoad⟩ := h
  dsimp only at hCode hLoad
  simp only [List.mem_cons, List.not_mem_nil, or_false] at hCode
  rcases hCode with rfl | rfl | rfl | rfl | rfl | rfl | rfl | rfl | rfl | rfl | rfl | rfl | rfl |
    rfl | rfl | rfl
  · rw [bpfStep_load rfl, toNat_load_end hEnd rfl]
    rcases hLoad rfl with hIn | hOut
    · have hFetch : fetch last d 4 k = some (load wild d k) := fetch_eq hIn
      simp [refStep, hFetch, Nat.not_lt.mpr hIn]
    · simp [refStep, fetch, Nat.not_le.mpr hOut, show 56 < k.toNat + 4 by omega]
  all_goals simp [bpfStep, refStep, aluOp, jumpIf]

theorem bpfStep_unknown (h : ¬Known pc) : bpfStep wild d pc s = .ret retKillProcess := by
  unfold bpfStep
  dsimp only
  split
  next hCode =>
    rw [toNat_load_end hEnd hCode]
    exact if_pos (Nat.lt_of_not_le fun hIn => h ⟨by simp [hCode], fun _ => .inl hIn⟩)
  all_goals first | rfl | exact absurd ⟨by simp [*], by simp [*]⟩ h

end

theorem ip_lt_of_bpfStep (h : bpfStep wild d pc s = .next s') : s.ip < s'.ip := by
  unfold bpfStep at h
  dsimp only at h
  split at h
  · split at h <;> cases h
    exact Nat.lt_succ_self _
  all_goals
    cases h
  all_goals
    dsimp only
    omega

theorem runs_next {v : BitVec 32} (hPc : insn[s.ip]? = some pc)
    (hStep : refStep last d pc s = .next s') : Runs last d insn s v ↔ Runs last d insn s' v := by
  refine ⟨fun h => ?_, fun h => .next hPc hStep h⟩
  cases h with
  | off hNone => exact absurd (hPc.symm.trans hNone) (by simp)
  | ret hPc' hRet =>
    cases hPc.symm.trans hPc'
    cases hStep.symm.trans hRet
  | next hPc' hNext h =>
    cases hPc.symm.trans hPc'
    cases hStep.symm.trans hNext
    exact h

theorem forall_reached {r : Bpf → Bpf → Prop} {Q : Bpf → Prop} :
    (∀ s', ReflTransGen r s s' → Q s') ↔ Q s ∧ ∀ t, r s t → ∀ s', ReflTransGen r t s' → Q s' := by
  constructor
  · exact fun h => ⟨h s .refl, fun t hst s' ht => h s' (ht.head hst)⟩
  · rintro ⟨hHere, hOn⟩ s' hs'
    rcases hs'.cases_head with rfl | ⟨t, hst, ht⟩
    · exact hHere
    · exact hOn t hst s' ht

theorem right_off (hNone : insn[s.ip]? = none) :
    Right last d wild insn s retKillProcess ↔ Faithful last d wild insn s := by
  unfold Right Faithful
  rw [forall_reached, forall_reached]
  simp [Moves, hNone, Runs.off hNone]

theorem bpfLoop_iff {ticks : ℕ} (hTicks : insn.length ≤ s.ip + ticks) :
    Right last d wild insn s (bpfLoop wild insn d ticks s) ↔ Faithful last d wild insn s := by
  induction ticks generalizing s with
  | zero => exact right_off (List.getElem?_eq_none hTicks)
  | succ ticks ih =>
    rw [bpfLoop]
    cases hPc : insn[s.ip]? with
    | none => exact right_off hPc
    | some pc =>
      have hMoves : ∀ t, Moves d wild insn s t ↔ bpfStep wild d pc s = .next t := by
        simp [Moves, hPc]
      unfold Right Faithful
      rw [forall_reached, forall_reached]
      simp only [hMoves, hPc, Option.some.injEq, forall_eq']
      by_cases hEnd : Wraps pc
      · have hNext : bpfStep wild d pc s =
            .next { s with a := load wild d pc.k, ip := s.ip + 1 } := by
          have := hEnd.2
          refine (bpfStep_load hEnd.1).trans (if_neg ?_)
          rw [toNat_add, show (4 : BitVec 32).toNat = 4 from rfl]
          omega
        refine iff_of_false (fun h => ?_) fun h => h.1.1 hEnd
        have hKills := h.2.1 hEnd.1 (by have := hEnd.2; omega)
        cases hNext.symm.trans hKills
      by_cases hKnown : Known pc
      · have hStep : bpfStep wild d pc s = refStep last d pc s := bpfStep_known hEnd hKnown
        have hKills : pc.code = 0x20 → 64 < pc.k.toNat + 4 →
            bpfStep wild d pc s = .ret retKillProcess := by
          intro hCode hOut
          rw [bpfStep_load hCode, toNat_load_end hEnd hCode, if_pos (by omega)]
        cases hNow : bpfStep wild d pc s with
        | ret v =>
          rw [hNow] at hKills
          simpa [hEnd, hKnown, Runs.ret hPc (hStep.symm.trans hNow)] using hKills
        | next t =>
          have hLater := ih (s := t) (by have := ip_lt_of_bpfStep hNow; omega)
          unfold Right Faithful at hLater
          rw [hNow] at hKills
          simp only [hEnd, hKnown, runs_next hPc (hStep.symm.trans hNow), Turn.next.injEq,
            forall_eq', ← hLater]
          tauto
      · have hKill : bpfStep wild d pc s = .ret retKillProcess := bpfStep_unknown hEnd hKnown
        simp [hKill, hEnd, hKnown]

/-- What exactly keeps `bpf_run` to the reference. -/
theorem bpfRun_right_iff (wild : BitVec 32 → BitVec 32) (last : Word) (insn : List SockFilter)
    (d : Data) : Right last d wild insn {} (bpfRun wild insn d) ↔ Faithful last d wild insn {} :=
  bpfLoop_iff (by omega)

/-- `A := A + 1; ret A` is to return 1, and `bpf_run` kills. -/
theorem bpfRun_add_kills :
    let insn : List SockFilter := [⟨0x04, 0, 0, 1⟩, ⟨0x16, 0, 0, 0⟩]
    let d : Data := ⟨0, ⟨0, 0, 0, 0, 0, 0⟩⟩
    Runs 0 d insn {} 1 ∧ bpfRun 0 insn d = 0 ∧ ¬Right 0 d 0 insn {} (bpfRun 0 insn d) := by
  refine ⟨.next rfl rfl (.ret rfl rfl), rfl, fun ⟨h, _⟩ => ?_⟩
  rw [runs_next rfl rfl] at h
  cases h with
  | off hNone => cases hNone
  | ret hPc hRet =>
    cases hPc
    cases hRet
  | next hPc hNext _ =>
    cases hPc
    cases hNext

end Gnos.Seccomp
