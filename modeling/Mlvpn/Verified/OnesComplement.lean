import Mathlib

/-!
# One's-complement sums

The sum behind the Internet checksum: a byte string is read as big-endian 16-bit
words, an odd last byte as the high half of one, and the carries of their sum are
folded back in until 16 bits remain.  Folding keeps the residue modulo `0xffff`, and
only the sum zero folds to zero; that is all a checksum needs.

## Main results

* `fold_mod`, `fold_lt`, `fold_eq_zero`: these determine `fold`.
* `fold_add_complement_iff`: a sum in 32 bits together with the complement of its fold
  folds to `0xffff`, if the accumulator does not wrap.
* `wordSum_append`: after an even number of bytes the sum goes on independently.
-/

namespace Mlvpn.Verified.OnesComplement

def wordSum : List UInt8 → Nat
  | [] => 0
  | [last] => last.toNat * 256
  | hi :: lo :: rest => hi.toNat * 256 + lo.toNat + wordSum rest

/-- The carries of `n` folded back in. -/
def fold (n : Nat) : Nat :=
  if n < 65536 then n else fold (n % 65536 + n / 65536)
termination_by n
decreasing_by omega

/-! ## Folding -/

theorem fold_of_lt {n : Nat} (h : n < 65536) : fold n = n := by
  rw [fold, if_pos h]

theorem fold_of_le {n : Nat} (h : 65536 ≤ n) : fold n = fold (n % 65536 + n / 65536) := by
  rw [fold, if_neg (Nat.not_lt.mpr h)]

theorem fold_lt (n : Nat) : fold n < 65536 := by
  induction n using fold.induct with
  | case1 n h => rwa [fold_of_lt h]
  | case2 n h ih => rwa [fold_of_le (Nat.not_lt.mp h)]

theorem fold_mod (n : Nat) : fold n % 65535 = n % 65535 := by
  induction n using fold.induct with
  | case1 n h => rw [fold_of_lt h]
  | case2 n h ih =>
    rw [fold_of_le (Nat.not_lt.mp h), ih]
    omega

theorem fold_eq_zero {n : Nat} : fold n = 0 ↔ n = 0 := by
  induction n using fold.induct with
  | case1 n h => rw [fold_of_lt h]
  | case2 n h ih =>
    rw [fold_of_le (Nat.not_lt.mp h), ih]
    omega

/-- A sum folds to `0xffff` when it is a positive multiple of it. -/
theorem fold_eq_max_iff {n : Nat} : fold n = 65535 ↔ n ≠ 0 ∧ n % 65535 = 0 := by
  have hlt := fold_lt n
  have hmod := fold_mod n
  have hzero := fold_eq_zero (n := n)
  omega

/-- A sum is taken in 32 bits, and the complement of its fold is added to what was
summed: the total folds to `0xffff` unless the accumulator wrapped. -/
theorem fold_add_complement_iff (n : Nat) :
    fold (n + (65535 - fold (n % 2 ^ 32))) = 65535 ↔ n / 2 ^ 32 % 65535 = 0 := by
  have hlt := fold_lt (n % 2 ^ 32)
  have hmod := fold_mod (n % 2 ^ 32)
  have hzero := fold_eq_zero (n := n % 2 ^ 32)
  rw [fold_eq_max_iff]
  omega

/-! ## Sums of words -/

theorem wordSum_append {xs : List UInt8} (ys : List UInt8) (h : xs.length % 2 = 0) :
    wordSum (xs ++ ys) = wordSum xs + wordSum ys := by
  induction xs using wordSum.induct with
  | case1 => rw [List.nil_append, wordSum, Nat.zero_add]
  | case2 last => simp at h
  | case3 hi lo rest ih =>
    have hrest : rest.length % 2 = 0 := by
      simp only [List.length_cons] at h
      omega
    rw [List.cons_append, List.cons_append, wordSum, wordSum, ih hrest, ← Nat.add_assoc]

theorem wordSum_replicate (k : Nat) (b : UInt8) :
    wordSum (List.replicate (2 * k) b) = k * (b.toNat * 257) := by
  induction k with
  | zero => rw [Nat.zero_mul, Nat.mul_zero, List.replicate_zero, wordSum]
  | succ k ih =>
    rw [show 2 * (k + 1) = 2 * k + 1 + 1 by omega, List.replicate_succ, List.replicate_succ,
      wordSum, ih, Nat.succ_mul]
    omega

theorem wordSum_le (xs : List UInt8) : wordSum xs ≤ 65535 * ((xs.length + 1) / 2) := by
  induction xs using wordSum.induct with
  | case1 => exact Nat.le_refl 0
  | case2 last =>
    have := last.toNat_lt
    simp only [wordSum, List.length_singleton]
    omega
  | case3 hi lo rest ih =>
    have := hi.toNat_lt
    have := lo.toNat_lt
    rw [wordSum, List.length_cons, List.length_cons]
    omega

end Mlvpn.Verified.OnesComplement
