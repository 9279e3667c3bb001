import Mathlib

/-!
# Smooth weighted round robin

Every participant has a weight and a credit.  In a round those whose turn it is gain
their weights, and one of them pays back all that was gained.  When everyone takes part
and the one with the greatest credit pays, no credit ever falls by a full round's gain,
and as the credits sum to zero none rises far either: each participant has paid in
proportion to its weight, up to a constant.

Weights and credits are of any linearly ordered field.

## Main results

* `sum_settle`: a round keeps the sum of the credits, whoever takes part.
* `Level.settle`: a round in which all take part and a greatest one pays keeps every
  credit above minus the total weight.
* `Account.share`: how often each has paid, up to the credits that were thrown away.
-/

namespace Mlvpn.Verified.RoundRobin

variable {ι K : Type*} [DecidableEq ι] [Field K]

/-- The credits after a round of those in `turn` for which `payer` paid. -/
def settle (turn : Finset ι) (weight credit : ι → K) (payer : ι) (i : ι) : K :=
  credit i + (if i ∈ turn then weight i else 0) -
    if i = payer then ∑ k ∈ turn, weight k else 0

variable {all turn : Finset ι} {weight credit : ι → K} {payer : ι}

theorem sum_settle (hturn : turn ⊆ all) (hpayer : payer ∈ all) :
    ∑ i ∈ all, settle turn weight credit payer i = ∑ i ∈ all, credit i := by
  have hgained : ∑ i ∈ all, (if i ∈ turn then weight i else 0) = ∑ k ∈ turn, weight k := by
    rw [Finset.sum_ite_mem, Finset.inter_eq_right.mpr hturn]
  have hpaid : (∑ i ∈ all, if i = payer then ∑ k ∈ turn, weight k else 0) =
      ∑ k ∈ turn, weight k := by
    rw [Finset.sum_ite_eq', if_pos hpayer]
  simp only [settle]
  rw [Finset.sum_sub_distrib, Finset.sum_add_distrib, hgained, hpaid, add_sub_cancel_right]

variable [LinearOrder K] [IsStrictOrderedRing K]

/-! ## How far credits stray -/

/-- Credits that smooth round robin can reach. -/
structure Level (all : Finset ι) (weight credit : ι → K) : Prop where
  sum : ∑ i ∈ all, credit i = 0
  above : ∀ i ∈ all, -∑ k ∈ all, weight k < credit i

omit [DecidableEq ι] in
theorem sum_weight_pos (hweight : ∀ i ∈ all, 0 < weight i) {i : ι} (hi : i ∈ all) :
    0 < ∑ k ∈ all, weight k :=
  Finset.sum_pos hweight ⟨i, hi⟩

omit [DecidableEq ι] in
theorem Level.of_zero (hweight : ∀ i ∈ all, 0 < weight i) (hcredit : ∀ i ∈ all, credit i = 0) :
    Level all weight credit where
  sum := Finset.sum_eq_zero hcredit
  above := by
    intro i hi
    rw [hcredit i hi]
    exact neg_neg_of_pos (sum_weight_pos hweight hi)

/-- A round that everyone takes part in and a greatest one pays for. -/
theorem Level.settle (hweight : ∀ i ∈ all, 0 < weight i) (h : Level all weight credit)
    (hpayer : payer ∈ all)
    (hgreatest : ∀ i ∈ all, credit i + weight i ≤ credit payer + weight payer) :
    Level all weight (settle all weight credit payer) where
  sum := by rw [sum_settle (Finset.Subset.refl all) hpayer, h.sum]
  above := by
    intro i hi
    rw [RoundRobin.settle, if_pos hi]
    by_cases hpays : i = payer
    · -- what the payer has is more than zero, as it is no less than the average
      have hpositive : 0 < credit payer + weight payer := by
        by_contra hnot
        have hle : ∑ k ∈ all, (credit k + weight k) ≤ 0 :=
          Finset.sum_nonpos fun k hk => (hgreatest k hk).trans (not_lt.mp hnot)
        rw [Finset.sum_add_distrib, h.sum, zero_add] at hle
        exact absurd hle (not_le.mpr (sum_weight_pos hweight hpayer))
      subst hpays
      rw [if_pos rfl]
      linarith
    · rw [if_neg hpays, sub_zero]
      have habove := h.above i hi
      have hpos := hweight i hi
      linarith

/-- The credit of each is what the others owe. -/
theorem Level.credit_lt (h : Level all weight credit) (hweight : ∀ i ∈ all, 0 < weight i) {i : ι}
    (hi : i ∈ all) : credit i < (∑ k ∈ all, weight k) * max 1 ((all.card : K) - 1) := by
  have hpos := sum_weight_pos hweight hi
  have howed : credit i = ∑ k ∈ all.erase i, -credit k := by
    rw [Finset.sum_neg_distrib, Finset.sum_erase_eq_sub hi, h.sum]
    ring
  rcases (all.erase i).eq_empty_or_nonempty with hnone | hsome
  · rw [howed, hnone, Finset.sum_empty]
    exact mul_pos hpos (lt_max_of_lt_left one_pos)
  · have hcard : ((all.erase i).card : K) = (all.card : K) - 1 := by
      rw [Finset.card_erase_of_mem hi, Nat.cast_sub (Finset.card_pos.mpr ⟨i, hi⟩), Nat.cast_one]
    calc credit i = ∑ k ∈ all.erase i, -credit k := howed
      _ < ∑ _k ∈ all.erase i, ∑ k ∈ all, weight k := by
          refine Finset.sum_lt_sum_of_nonempty hsome fun k hk => ?_
          have habove := h.above k (Finset.mem_of_mem_erase hk)
          linarith
      _ = (∑ k ∈ all, weight k) * ((all.card : K) - 1) := by
          rw [Finset.sum_const, nsmul_eq_mul, hcard, mul_comm]
      _ ≤ (∑ k ∈ all, weight k) * max 1 ((all.card : K) - 1) :=
          mul_le_mul_of_nonneg_left (le_max_right _ _) hpos.le

theorem Level.abs_credit_lt (h : Level all weight credit) (hweight : ∀ i ∈ all, 0 < weight i)
    {i : ι} (hi : i ∈ all) : |credit i| < (∑ k ∈ all, weight k) * max 1 ((all.card : K) - 1) := by
  refine abs_lt.mpr ⟨?_, h.credit_lt hweight hi⟩
  have hle : (∑ k ∈ all, weight k) * 1 ≤ (∑ k ∈ all, weight k) * max 1 ((all.card : K) - 1) :=
    mul_le_mul_of_nonneg_left (le_max_left _ _) (sum_weight_pos hweight hi).le
  have habove := h.above i hi
  linarith

/-! ## Who has paid how often -/

/-- What the credits come from: the rounds that `payers` paid for in turn, except for
what was thrown away on the way. -/
structure Account (all : Finset ι) (weight credit lost : ι → K) (payers : List ι) : Prop where
  balance : ∀ i ∈ all, credit i + lost i =
    payers.length * weight i - payers.count i * ∑ k ∈ all, weight k

variable {lost : ι → K} {payers : List ι}

omit [LinearOrder K] [IsStrictOrderedRing K] in
theorem Account.of_zero (hcredit : ∀ i ∈ all, credit i = 0) :
    Account all weight credit (fun _ => 0) [] where
  balance := by
    intro i hi
    rw [hcredit i hi, List.length_nil, List.count_nil, Nat.cast_zero]
    ring

omit [LinearOrder K] [IsStrictOrderedRing K] in
theorem Account.settle (h : Account all weight credit lost payers) (payer : ι) :
    Account all weight (settle all weight credit payer) lost (payers ++ [payer]) where
  balance := by
    intro i hi
    have hbalance := h.balance i hi
    rw [RoundRobin.settle, if_pos hi, List.length_append, List.length_singleton,
      List.count_append, Nat.cast_add, Nat.cast_add, Nat.cast_one]
    by_cases hpays : i = payer
    · subst hpays
      rw [if_pos rfl, List.count_singleton_self, Nat.cast_one]
      linear_combination hbalance
    · rw [if_neg hpays, List.count_singleton, if_neg (by simpa using Ne.symm hpays),
        Nat.cast_zero]
      linear_combination hbalance

omit [LinearOrder K] [IsStrictOrderedRing K] in
/-- The credits are thrown away. -/
theorem Account.reset (h : Account all weight credit lost payers) {credit' : ι → K}
    (hcredit' : ∀ i ∈ all, credit' i = 0) :
    Account all weight credit' (fun i => lost i + credit i) payers where
  balance := by
    intro i hi
    rw [hcredit' i hi, ← h.balance i hi]
    ring

/-- Up to what was thrown away, everyone has paid in proportion to its weight. -/
theorem Account.share (h : Account all weight credit lost payers) (hlevel : Level all weight credit)
    (hweight : ∀ i ∈ all, 0 < weight i) {i : ι} (hi : i ∈ all) :
    |(payers.count i : K) - payers.length * weight i / (∑ k ∈ all, weight k) +
        lost i / ∑ k ∈ all, weight k| < max 1 ((all.card : K) - 1) := by
  have hpos := sum_weight_pos hweight hi
  have hcredit : (payers.count i : K) - payers.length * weight i / (∑ k ∈ all, weight k) +
      lost i / (∑ k ∈ all, weight k) = -credit i / ∑ k ∈ all, weight k := by
    have hbalance := h.balance i hi
    field_simp
    linear_combination hbalance
  rw [hcredit, abs_div, abs_neg, abs_of_pos hpos, div_lt_iff₀ hpos, mul_comm]
  exact hlevel.abs_credit_lt hweight hi

end Mlvpn.Verified.RoundRobin
