import Mathlib.Data.List.Basic
import Mathlib.Data.List.Nodup

/-!
# Extremal elements under a comparison

`Iterator::max_by` and `Iterator::min_by`: a fold that keeps the last of several
greatest elements, and the first of several least ones.  Nothing is assumed of the
comparison, except where it has to be transitive for the result to be extremal.
-/

namespace Mlvpn.Verified.Extremum

variable {α : Type*} (cmp : α → α → Ordering)

/-- The fold of `max_by`, begun with `x`. -/
def maxByFrom (x : α) : List α → α
  | [] => x
  | y :: ys => maxByFrom (if cmp x y = .gt then x else y) ys

def maxBy : List α → Option α
  | [] => none
  | x :: xs => some (maxByFrom cmp x xs)

/-- The fold of `min_by`, begun with `x`. -/
def minByFrom (x : α) : List α → α
  | [] => x
  | y :: ys => minByFrom (if cmp x y = .gt then y else x) ys

def minBy : List α → Option α
  | [] => none
  | x :: xs => some (minByFrom cmp x xs)

theorem maxByFrom_mem (x : α) (xs : List α) : maxByFrom cmp x xs ∈ x :: xs := by
  induction xs generalizing x with
  | nil => exact List.mem_singleton_self x
  | cons y ys ih =>
    rw [maxByFrom]
    split
    · exact List.cons_subset_cons x (List.subset_cons_self y ys) (ih x)
    · exact List.mem_cons_of_mem x (ih y)

theorem minByFrom_mem (x : α) (xs : List α) : minByFrom cmp x xs ∈ x :: xs := by
  induction xs generalizing x with
  | nil => exact List.mem_singleton_self x
  | cons y ys ih =>
    rw [minByFrom]
    split
    · exact List.mem_cons_of_mem x (ih y)
    · exact List.cons_subset_cons x (List.subset_cons_self y ys) (ih x)

variable {cmp} {xs : List α} {a : α}

theorem mem_of_maxBy (h : maxBy cmp xs = some a) : a ∈ xs := by
  cases xs with
  | nil => exact nomatch h
  | cons x xs => exact Option.some.inj h ▸ maxByFrom_mem cmp x xs

theorem mem_of_minBy (h : minBy cmp xs = some a) : a ∈ xs := by
  cases xs with
  | nil => exact nomatch h
  | cons x xs => exact Option.some.inj h ▸ minByFrom_mem cmp x xs

theorem minBy_isSome (cmp : α → α → Ordering) (h : xs ≠ []) : ∃ a, minBy cmp xs = some a := by
  cases xs with
  | nil => exact absurd rfl h
  | cons x xs => exact ⟨_, rfl⟩

/-! ## Transitive comparisons -/

/-- Nothing is greater than the answer. -/
theorem maxByFrom_greatest (cmp : α → α → Ordering) [Std.TransCmp cmp] (x : α) (xs : List α) :
    ∀ y ∈ x :: xs, (cmp y (maxByFrom cmp x xs)).isLE := by
  have hself : ∀ y, (cmp y y).isLE := fun y =>
    Ordering.isLE_of_eq_eq Std.ReflCmp.compare_self
  induction xs generalizing x with
  | nil =>
    intro y hy
    rw [List.mem_singleton.mp hy]
    exact hself x
  | cons z zs ih =>
    -- the one kept is at least both, and the answer is at least that
    have hkept : (cmp x (if cmp x z = .gt then x else z)).isLE ∧
        (cmp z (if cmp x z = .gt then x else z)).isLE := by
      split
      case isTrue hxz =>
        exact ⟨hself x, Ordering.isLE_of_eq_lt (Std.OrientedCmp.lt_of_gt hxz)⟩
      case isFalse hxz => exact ⟨Ordering.ne_gt_iff_isLE.mp hxz, hself z⟩
    have hanswer := ih (if cmp x z = .gt then x else z)
    intro y hy
    rw [maxByFrom]
    rcases List.mem_cons.mp hy with rfl | hy
    · exact Std.TransCmp.isLE_trans hkept.1 (hanswer _ List.mem_cons_self)
    rcases List.mem_cons.mp hy with rfl | hy
    · exact Std.TransCmp.isLE_trans hkept.2 (hanswer _ List.mem_cons_self)
    · exact hanswer y (List.mem_cons_of_mem _ hy)

/-- What comes before the answer is greater, what comes after it is not smaller. -/
theorem minByFrom_split (cmp : α → α → Ordering) [Std.TransCmp cmp] (x : α) (xs : List α) :
    ∃ before after, x :: xs = before ++ minByFrom cmp x xs :: after ∧
      (∀ y ∈ before, cmp y (minByFrom cmp x xs) = .gt) ∧
      ∀ y ∈ after, cmp (minByFrom cmp x xs) y ≠ .gt := by
  induction xs generalizing x with
  | nil => exact ⟨[], [], rfl, fun _ h => (nomatch h), fun _ h => (nomatch h)⟩
  | cons y ys ih =>
    rw [minByFrom]
    split
    case isTrue hxy =>
      obtain ⟨before, after, heq, hbefore, hafter⟩ := ih y
      refine ⟨x :: before, after, by rw [heq, List.cons_append], ?_, hafter⟩
      intro z hz
      rcases List.mem_cons.mp hz with rfl | hz
      · -- `y` is the answer, or stands before it.
        cases before with
        | nil =>
          obtain ⟨hy, -⟩ := List.cons.inj heq
          rwa [← hy]
        | cons b before =>
          obtain ⟨rfl, -⟩ := List.cons.inj heq
          exact Std.TransCmp.gt_trans hxy (hbefore y List.mem_cons_self)
      · exact hbefore z hz
    case isFalse hxy =>
      obtain ⟨before, after, heq, hbefore, hafter⟩ := ih x
      cases before with
      | nil =>
        obtain ⟨hx, rfl⟩ := List.cons.inj heq
        refine ⟨[], y :: ys, by rw [← hx, List.nil_append], hbefore, ?_⟩
        intro z hz
        rcases List.mem_cons.mp hz with rfl | hz
        · rwa [← hx]
        · exact hafter z hz
      | cons b before =>
        obtain ⟨rfl, hys⟩ := List.cons.inj heq
        refine ⟨x :: y :: before, after, ?_, ?_, hafter⟩
        · exact congrArg (fun zs => x :: y :: zs) hys
        have hx : cmp x (minByFrom cmp x ys) = .gt := hbefore x List.mem_cons_self
        have hy : (cmp y x).isGE := by
          have hswap : cmp y x = (cmp x y).swap := Std.OrientedCmp.eq_swap
          rw [hswap]
          cases hcmp : cmp x y with
          | lt => rfl
          | eq => rfl
          | gt => exact absurd hcmp hxy
        intro z hz
        rcases List.mem_cons.mp hz with rfl | hz
        · exact hx
        · rcases List.mem_cons.mp hz with rfl | hz
          · exact Std.TransCmp.gt_of_isGE_of_gt hy hx
          · exact hbefore z (List.mem_cons_of_mem x hz)

/-- Of a list in the order of some key the answer is the least element, and of several
the one with the smallest key. -/
theorem minBy_least [Std.TransCmp cmp] {key : α → Nat}
    (hsorted : xs.Pairwise fun x y => key x < key y) (h : minBy cmp xs = some a) {b : α}
    (hb : b ∈ xs) : cmp a b = .lt ∨ cmp a b = .eq ∧ key a ≤ key b := by
  cases xs with
  | nil => exact nomatch h
  | cons x xs =>
    cases h
    obtain ⟨before, after, heq, hbefore, hafter⟩ := minByFrom_split cmp x xs
    rw [heq] at hb hsorted
    rcases List.mem_append.mp hb with hb | hb
    · exact .inl (Std.OrientedCmp.lt_of_gt (hbefore b hb))
    · rcases List.mem_cons.mp hb with rfl | hb
      · exact .inr ⟨Std.ReflCmp.compare_self, Nat.le_refl _⟩
      · have hkey := (List.pairwise_cons.mp (List.pairwise_append.mp hsorted).2.1).1 b hb
        have hle := hafter b hb
        cases hcmp : cmp (minByFrom cmp x xs) b with
        | lt => exact .inl rfl
        | eq => exact .inr ⟨rfl, Nat.le_of_lt hkey⟩
        | gt => exact absurd hcmp hle

/-! ## A sole extreme -/

section

variable {β : Type*} [DecidableEq β] {f : α → β} {i : α}

/-- One element of a list passes the test. -/
theorem filter_eq_singleton (hxs : xs.Nodup) {p : α → Bool} :
    xs.filter p = [i] ↔ i ∈ xs ∧ p i = true ∧ ∀ j ∈ xs, p j = true → j = i := by
  constructor
  · intro h
    have hmem : ∀ j, j ∈ xs ∧ p j = true ↔ j = i := fun j => by
      rw [← List.mem_filter, h, List.mem_singleton]
    obtain ⟨hi, hp⟩ := (hmem i).mpr rfl
    exact ⟨hi, hp, fun j hj hpj => (hmem j).mp ⟨hj, hpj⟩⟩
  · rintro ⟨hi, hp, hsole⟩
    refine List.perm_singleton.mp ((List.perm_ext_iff_of_nodup (hxs.filter p)
      (List.nodup_singleton i)).mpr fun j => ?_)
    rw [List.mem_filter, List.mem_singleton]
    exact ⟨fun h => hsole j h.1 h.2, fun h => h ▸ ⟨hi, hp⟩⟩

/-- The extreme value, under any reflexive comparison, is taken by `i` alone. -/
theorem sole_extreme_iff (hxs : xs.Nodup) {R : β → β → Prop} (hrefl : ∀ b, R b b) {best : β} :
    (best ∈ xs.map f ∧ ∀ b ∈ xs.map f, R b best) ∧ xs.filter (fun j => f j = best) = [i] ↔
      best = f i ∧ i ∈ xs ∧ ∀ j ∈ xs, j ≠ i → R (f j) (f i) ∧ f j ≠ f i := by
  rw [filter_eq_singleton hxs, List.forall_mem_map]
  simp only [decide_eq_true_eq]
  constructor
  · rintro ⟨⟨-, hextreme⟩, hi, rfl, hsole⟩
    exact ⟨rfl, hi, fun j hj hne => ⟨hextreme j hj, fun h => hne (hsole j hj h)⟩⟩
  · rintro ⟨rfl, hi, hother⟩
    refine ⟨⟨List.mem_map_of_mem hi, fun j hj => ?_⟩, hi, rfl, fun j hj hsame => ?_⟩
    · by_cases hji : j = i
      · rw [hji]
        exact hrefl _
      · exact (hother j hj hji).1
    · by_contra hji
      exact (hother j hj hji).2 hsame

end

end Mlvpn.Verified.Extremum
