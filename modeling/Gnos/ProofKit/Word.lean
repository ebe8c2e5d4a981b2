import Mathlib

/-! Arithmetic of machine words on natural numbers: sums and differences wrap modulo the word's
size. The operations are irreducible, so that unification never unfolds the modulus, and each adds
its first operand last, so that the kernel never counts a literal second operand down. -/

namespace Gnos.ProofKit

open Nat

variable {a b : ℕ}

@[irreducible] def add64 (a b : ℕ) : ℕ := (b + a) % 2 ^ 64

@[irreducible] def sub64 (a b : ℕ) : ℕ := (2 ^ 64 - b + a) % 2 ^ 64

@[irreducible] def not64 (a : ℕ) : ℕ := 2 ^ 64 - (a + 1)

@[irreducible] def add32 (a b : ℕ) : ℕ := (b + a) % 2 ^ 32

@[irreducible] def sub32 (a b : ℕ) : ℕ := (2 ^ 32 - b + a) % 2 ^ 32

@[irreducible] def mul32 (a b : ℕ) : ℕ := a * b % 2 ^ 32

theorem add64_eq (a b : ℕ) : add64 a b = (a + b) % 2 ^ 64 := by rw [add64, add_comm]

theorem sub64_eq (a b : ℕ) : sub64 a b = (a + (2 ^ 64 - b)) % 2 ^ 64 := by rw [sub64, add_comm]

theorem add32_eq (a b : ℕ) : add32 a b = (a + b) % 2 ^ 32 := by rw [add32, add_comm]

theorem add64_of_lt (h : a + b < 2 ^ 64) : add64 a b = a + b := by
  rw [add64_eq, mod_eq_of_lt h]

theorem sub64_of_le (h : b ≤ a) (ha : a < 2 ^ 64) : sub64 a b = a - b := by
  rw [sub64_eq]
  omega

theorem add32_of_lt (h : a + b < 2 ^ 32) : add32 a b = a + b := by
  rw [add32_eq, mod_eq_of_lt h]

theorem sub32_of_le (h : b ≤ a) (ha : a < 2 ^ 32) : sub32 a b = a - b := by
  unfold sub32
  omega

theorem mul32_of_lt (h : a * b < 2 ^ 32) : mul32 a b = a * b := by
  rw [mul32, mod_eq_of_lt h]

theorem add64_lt (a b : ℕ) : add64 a b < 2 ^ 64 := by
  rw [add64_eq]
  exact mod_lt _ (by decide)

theorem land_not64_two_pow {w k : ℕ} (hw : w < 2 ^ 64) (hk : k ≤ 64) :
    w &&& not64 (2 ^ k - 1) = w / 2 ^ k * 2 ^ k := by
  have hLow : 2 ^ k - 1 < 2 ^ 64 :=
    lt_of_lt_of_le (Nat.sub_lt (Nat.two_pow_pos k) Nat.one_pos)
      (Nat.pow_le_pow_right (by decide) hk)
  refine eq_of_testBit_eq fun i => ?_
  rw [not64, testBit_and, testBit_two_pow_sub_succ hLow, testBit_two_pow_sub_one,
    mul_comm, testBit_two_pow_mul, testBit_div_two_pow]
  by_cases hi : i < k
  · simp [hi, not_le.mpr hi]
  · have hki : k ≤ i := Nat.le_of_not_lt hi
    rw [Nat.sub_add_cancel hki]
    by_cases h64 : i < 64
    · simp [hi, hki, h64]
    · have hBit : w.testBit i = false := testBit_lt_two_pow
        (lt_of_lt_of_le hw (Nat.pow_le_pow_right (by decide) (Nat.le_of_not_lt h64)))
      simp [hBit]

theorem land_not64_of_aligned {base w k : ℕ} (hk : k ≤ 64) (hAligned : base % 2 ^ k = 0)
    (hLow : base ≤ w) (hHigh : w < base + 2 ^ k) (hw : w < 2 ^ 64) :
    w &&& not64 (2 ^ k - 1) = base := by
  obtain ⟨q, rfl⟩ := dvd_of_mod_eq_zero hAligned
  have hDiv : w / 2 ^ k = q :=
    Nat.div_eq_of_lt_le (by rwa [Nat.mul_comm]) (by rwa [Nat.mul_comm, Nat.mul_succ])
  rw [land_not64_two_pow hw hk, hDiv, mul_comm]

end Gnos.ProofKit
