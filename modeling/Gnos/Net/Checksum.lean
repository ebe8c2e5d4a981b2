import Gnos.ProofKit.Word

/-! The checksums of `src/net/net.c`: sixteen-bit words are added up in a word of 32 bits, whose
carries are then folded back in. -/

namespace Gnos.Net

open ProofKit List

def netGet16 (a b : BitVec 8) : ℕ := a.toNat * 256 + b.toNat

/-- `net_put16` at an offset of a message. -/
def netPut16 (msg : List (BitVec 8)) (off v : ℕ) : List (BitVec 8) :=
  (msg.set off (.ofNat 8 (v / 256))).set (off + 1) (.ofNat 8 v)

def sum16 : List (BitVec 8) → ℕ → ℕ
  | a :: b :: p, acc => sum16 p (add32 acc (netGet16 a b))
  -- An odd tail is padded on the right.
  | [a], acc => add32 acc (a.toNat * 256)
  | [], acc => acc

def fold (acc : ℕ) : ℕ :=
  if 0 < acc / 2 ^ 16 then fold (acc % 2 ^ 16 + acc / 2 ^ 16) else 0xFFFF - acc
termination_by acc

def netChecksum (data : List (BitVec 8)) : ℕ := fold (sum16 data 0)

/-- What `net_checksum_pseudo` adds up before the segment. -/
def pseudoHeader (src dst : BitVec 32) (proto : BitVec 8) (len : ℕ) : List ℕ :=
  [src.toNat / 2 ^ 16 % 2 ^ 16, src.toNat % 2 ^ 16, dst.toNat / 2 ^ 16 % 2 ^ 16, dst.toNat % 2 ^ 16,
    proto.toNat, len % 2 ^ 16]

def netChecksumPseudo (src dst : BitVec 32) (proto : BitVec 8) (seg : List (BitVec 8)) : ℕ :=
  fold (sum16 seg ((pseudoHeader src dst proto seg.length).foldl add32 0))

/-- The sum of the words of a message, as an integer. -/
def wordSum : List (BitVec 8) → ℕ
  | a :: b :: p => netGet16 a b + wordSum p
  | [a] => a.toNat * 256
  | [] => 0

theorem wordSum_le (p : List (BitVec 8)) : wordSum p ≤ 65535 * ((p.length + 1) / 2) := by
  fun_induction wordSum p with
  | case1 a b p ih =>
    have ha := a.isLt
    have hb := b.isLt
    rw [length_cons, length_cons]
    unfold netGet16
    omega
  | case2 a =>
    have ha := a.isLt
    rw [length_singleton]
    omega
  | case3 => exact Nat.zero_le _

theorem sum16_eq (p : List (BitVec 8)) (acc : ℕ) (h : acc + wordSum p < 2 ^ 32) :
    sum16 p acc = acc + wordSum p := by
  fun_induction sum16 p acc with
  | case1 a b p acc ih =>
    rw [wordSum] at h ⊢
    have hAdd : add32 acc (netGet16 a b) = acc + netGet16 a b := add32_of_lt (by omega)
    rw [ih (by omega), hAdd, add_assoc]
  | case2 a acc => exact add32_of_lt h
  | case3 => rfl

/-- Folding keeps the residue modulo 65535, and only 0 becomes 0. -/
theorem fold_eq (acc : ℕ) : fold acc = 65535 - if acc = 0 then 0 else (acc - 1) % 65535 + 1 := by
  fun_induction fold acc with
  | case1 acc h ih =>
    rw [ih, if_neg (by omega), if_neg (by omega)]
    omega
  | case2 acc h =>
    split_ifs <;> omega

/-- The complement of a sum, added to it, folds to 0. -/
theorem fold_add_fold (acc : ℕ) : fold (acc + fold acc) = 0 := by
  rw [fold_eq (acc + fold acc), fold_eq acc]
  split_ifs <;> omega

theorem fold_lt (acc : ℕ) : fold acc < 2 ^ 16 := by
  rw [fold_eq]
  omega

theorem length_netPut16 (msg : List (BitVec 8)) (off v : ℕ) :
    (netPut16 msg off v).length = msg.length := by
  simp [netPut16]

/-- A field at an even offset is one of the words. -/
theorem wordSum_netPut16 {v : ℕ} (hv : v < 2 ^ 16) (k : ℕ) {msg : List (BitVec 8)}
    (h : 2 * k + 2 ≤ msg.length) :
    wordSum (netPut16 msg (2 * k) v) = wordSum (netPut16 msg (2 * k) 0) + v := by
  induction msg using wordSum.induct generalizing k with
  | case1 a b p ih =>
    rw [length_cons, length_cons] at h
    cases k with
    | zero =>
      simp only [netPut16, wordSum, netGet16, mul_zero, zero_add, set_cons_zero, set_cons_succ,
        BitVec.toNat_ofNat]
      omega
    | succ k =>
      have hStep : ∀ w, netPut16 (a :: b :: p) (2 * (k + 1)) w = a :: b :: netPut16 p (2 * k) w :=
        fun _ => rfl
      rw [hStep, hStep, wordSum, wordSum, ih k (by omega), add_assoc]
  | case2 a => simp at h
  | case3 => simp at h

theorem foldl_pseudoHeader (src dst : BitVec 32) (proto : BitVec 8) (len : ℕ) :
    (pseudoHeader src dst proto len).foldl add32 0 = (pseudoHeader src dst proto len).sum ∧
      (pseudoHeader src dst proto len).sum ≤ 6 * 65535 := by
  have hProto := proto.isLt
  simp only [pseudoHeader, foldl_cons, foldl_nil, add32_eq, sum_cons, sum_nil]
  omega

/-- A message whose checksum field holds the checksum of the message with the field zero sums up to
0, with and without the pseudo header, and no accumulator overflows. -/
theorem stored_checksum_verifies (src dst : BitVec 32) (proto : BitVec 8) (msg : List (BitVec 8))
    (off : ℕ) (hLen : msg.length ≤ 65535) (hEven : off % 2 = 0) (hField : off + 2 ≤ msg.length) :
    let zeroed := netPut16 msg off 0
    let header := pseudoHeader src dst proto msg.length
    netChecksum (netPut16 msg off (netChecksum zeroed)) = 0 ∧
      netChecksumPseudo src dst proto
        (netPut16 msg off (netChecksumPseudo src dst proto zeroed)) = 0 ∧
      sum16 msg 0 = wordSum msg ∧
      sum16 msg (header.foldl add32 0) = header.sum + wordSum msg := by
  obtain ⟨k, rfl⟩ : ∃ k, off = 2 * k := ⟨off / 2, by omega⟩
  obtain ⟨hFoldl, hSum⟩ := foldl_pseudoHeader src dst proto msg.length
  -- The accumulator starts at the sum of the header, or at 0.
  have hExact : ∀ acc p, acc ≤ 6 * 65535 → p.length = msg.length →
      sum16 p acc = acc + wordSum p := by
    intro acc p hAcc hp
    have hWords := wordSum_le p
    exact sum16_eq p acc (by omega)
  have hZero : ∀ acc, acc ≤ 6 * 65535 →
      fold (sum16 (netPut16 msg (2 * k) (fold (sum16 (netPut16 msg (2 * k) 0) acc))) acc) = 0 := by
    intro acc hAcc
    rw [hExact acc _ hAcc (length_netPut16 ..), hExact acc _ hAcc (length_netPut16 ..),
      wordSum_netPut16 (fold_lt _) k hField, ← add_assoc]
    exact fold_add_fold _
  refine ⟨hZero 0 (Nat.zero_le _), ?_, ?_, ?_⟩
  · unfold netChecksumPseudo
    rw [length_netPut16, length_netPut16, hFoldl]
    exact hZero _ hSum
  · rw [hExact 0 msg (Nat.zero_le _) rfl, zero_add]
  · rw [hFoldl, hExact _ msg hSum rfl]

theorem stored_checksum_verifies_odd :
    netChecksum (netPut16 [1, 2, 0, 0, 5] 2 (netChecksum (netPut16 [1, 2, 0, 0, 5] 2 0))) = 0 :=
  (stored_checksum_verifies 1 2 17 [1, 2, 0, 0, 5] 2 (by decide) (by decide) (by decide)).1

end Gnos.Net
