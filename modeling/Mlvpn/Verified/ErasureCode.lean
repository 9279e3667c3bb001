import Mathlib

/-!
# Two-erasure codes over a field

A group of symbols `d 0, …, d (n - 1)` is protected by weighted checksums
`∑ w i * d i`.  Removing the contribution of every symbol in hand leaves the
*syndrome* of the missing ones, and the syndromes of one plain and one weighted
checksum determine up to two missing symbols.

Nothing here fixes the field, the weights or how symbols are stored; the
statements are about functions `ℕ → F`.

## Main results

* `checksum_sub_known` — a checksum minus the known contributions is the
  syndrome.
* `recover_weighted`, `recover_pair` — solving for one and for two erasures.
-/

namespace Mlvpn.Verified.ErasureCode

variable {F : Type*} [Field F]

/-- The checksum of the first `n` symbols under the weights `w`. -/
def checksum (w d : ℕ → F) (n : ℕ) : F := ∑ i ∈ Finset.range n, w i * d i

/-- The contribution of the symbols outside `M` to a checksum. -/
def known (w d : ℕ → F) (n : ℕ) (M : Finset ℕ) : F :=
  ∑ i ∈ (Finset.range n).filter (· ∉ M), w i * d i

/-- The contribution of the missing symbols alone. -/
def syndrome (w d : ℕ → F) (M : Finset ℕ) : F := ∑ i ∈ M, w i * d i

theorem checksum_succ (w d : ℕ → F) (n : ℕ) : checksum w d (n + 1) = checksum w d n + w n * d n :=
  Finset.sum_range_succ _ _

variable {w d : ℕ → F} {a b : ℕ}

/-- A checksum reads only the symbols it covers. -/
theorem checksum_congr {d' : ℕ → F} {n : ℕ} (h : ∀ i < n, d i = d' i) :
    checksum w d n = checksum w d' n :=
  Finset.sum_congr rfl fun i hi => by rw [h i (Finset.mem_range.1 hi)]

theorem checksum_sub_known (w d : ℕ → F) {n : ℕ} {M : Finset ℕ} (hM : M ⊆ Finset.range n) :
    checksum w d n - known w d n M = syndrome w d M := by
  have hsplit := Finset.sum_filter_add_sum_filter_not (Finset.range n) (· ∈ M)
    (fun i => w i * d i)
  have hMfilter : (Finset.range n).filter (· ∈ M) = M := by
    ext i
    simp only [Finset.mem_filter, and_iff_right_iff_imp]
    exact fun hi => hM hi
  rw [hMfilter] at hsplit
  unfold checksum known syndrome
  rw [← hsplit]
  ring

/-- One erasure under a non-zero weight. -/
theorem recover_weighted (hw : w a ≠ 0) : (w a)⁻¹ * syndrome w d {a} = d a := by
  rw [syndrome, Finset.sum_singleton]
  field_simp

theorem syndrome_pair (hab : a ≠ b) : syndrome w d {a, b} = w a * d a + w b * d b := by
  rw [syndrome, Finset.sum_pair hab]

/-- Two erasures: the plain syndrome and a weighted one with distinct weights
at `a` and `b` determine the second symbol. -/
theorem recover_pair (hab : a ≠ b) (hw : w a ≠ w b) :
    (w b - w a)⁻¹ * (syndrome w d {a, b} - w a * syndrome (fun _ => 1) d {a, b}) = d b := by
  have hne : w b - w a ≠ 0 := sub_ne_zero.2 hw.symm
  rw [syndrome_pair hab, syndrome_pair hab]
  field_simp
  ring

end Mlvpn.Verified.ErasureCode
