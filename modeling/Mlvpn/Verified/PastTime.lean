import Mathlib

/-!
# What has held since

The past-time operator *since*, over the list of what has happened so far: something was `P`,
and everything after it has been `Q`.  A system that keeps a table of what is open has one
such operator for each key, and `since_snoc` is the step of its invariant.

## Main results

* `since_snoc`: what one more happening does.
* `forall_split_snoc`: the same for a rule that every happening keeps.
* `countSince_snoc`: the same for a count that starts again.
-/

namespace Mlvpn.Verified.PastTime

variable {α : Type*} {Q P : α → Prop} {xs : List α}

/-- Something was `P`, and everything after it was `Q`. -/
def Since (Q P : α → Prop) (xs : List α) : Prop :=
  ∃ before x after, xs = before ++ x :: after ∧ P x ∧ ∀ y ∈ after, Q y

theorem not_since_nil : ¬Since Q P [] := by
  rintro ⟨before, x, after, hxs, -⟩
  exact List.append_ne_nil_of_right_ne_nil before (List.cons_ne_nil x after) hxs.symm

/-- A happening among the earlier ones and the latest is the latest, or one of the earlier. -/
theorem snoc_eq_append_cons_iff {x y : α} {before after : List α} :
    xs ++ [x] = before ++ y :: after ↔
      after = [] ∧ before = xs ∧ y = x ∨
        ∃ rest, after = rest ++ [x] ∧ xs = before ++ y :: rest := by
  constructor
  · intro hxs
    rcases List.eq_nil_or_concat' after with rfl | ⟨rest, z, rfl⟩
    · obtain ⟨rfl, hx⟩ := List.append_inj' hxs rfl
      cases hx
      exact Or.inl ⟨rfl, rfl, rfl⟩
    · rw [← List.cons_append, ← List.append_assoc] at hxs
      obtain ⟨rfl, hx⟩ := List.append_inj' hxs rfl
      cases hx
      exact Or.inr ⟨rest, rfl, rfl⟩
  · rintro (⟨rfl, rfl, rfl⟩ | ⟨rest, rfl, rfl⟩)
    · rfl
    · rw [List.append_assoc, List.cons_append]

theorem since_snoc {x : α} : Since Q P (xs ++ [x]) ↔ P x ∨ Since Q P xs ∧ Q x := by
  constructor
  · rintro ⟨before, y, after, hxs, hP, hQ⟩
    rcases snoc_eq_append_cons_iff.mp hxs with ⟨-, -, rfl⟩ | ⟨rest, rfl, rfl⟩
    · exact Or.inl hP
    · exact Or.inr ⟨⟨before, y, rest, rfl, hP, fun w hw => hQ w (List.mem_append_left _ hw)⟩,
        hQ x (List.mem_append_right _ (List.mem_singleton_self x))⟩
  · rintro (hP | ⟨⟨before, y, after, rfl, hP, hQ⟩, hx⟩)
    · exact ⟨xs, x, [], rfl, hP, fun y hy => absurd hy List.not_mem_nil⟩
    · refine ⟨before, y, after ++ [x], ?_, hP, fun z hz => ?_⟩
      · rw [← List.cons_append, List.append_assoc]
      · rcases List.mem_append.mp hz with hz | hz
        · exact hQ z hz
        · rw [List.mem_singleton.mp hz]
          exact hx

/-- A rule for each happening by those before it, with one more happening. -/
theorem forall_split_snoc {A : List α → α → Prop} {x : α} :
    (∀ before y after, xs ++ [x] = before ++ y :: after → A before y) ↔
      (∀ before y after, xs = before ++ y :: after → A before y) ∧ A xs x := by
  constructor
  · intro h
    refine ⟨fun before y after hxs => h before y (after ++ [x]) ?_, h xs x [] rfl⟩
    exact snoc_eq_append_cons_iff.mpr (Or.inr ⟨after, rfl, hxs⟩)
  · rintro ⟨hearlier, hlatest⟩ before y after hxs
    rcases snoc_eq_append_cons_iff.mp hxs with ⟨-, rfl, rfl⟩ | ⟨rest, -, hrest⟩
    · exact hlatest
    · exact hearlier before y rest hrest

/-- If something was `P`, then nothing has been `R` since, or nothing `P` since that. -/
theorem since_or_since {R : α → Prop} (h : ∃ x ∈ xs, P x) :
    Since (fun x => ¬R x) P xs ∨ Since (fun x => ¬P x) R xs := by
  induction xs using List.reverseRecOn with
  | nil =>
    obtain ⟨x, hx, -⟩ := h
    exact absurd hx List.not_mem_nil
  | append_singleton xs x ih =>
    rw [since_snoc, since_snoc]
    by_cases hP : P x
    · exact Or.inl (Or.inl hP)
    · by_cases hR : R x
      · exact Or.inr (Or.inl hR)
      · obtain ⟨y, hy, hPy⟩ := h
        rcases List.mem_append.mp hy with hy | hy
        · exact (ih ⟨y, hy, hPy⟩).imp (fun h => Or.inr ⟨h, hR⟩) fun h => Or.inr ⟨h, hP⟩
        · rw [List.mem_singleton.mp hy] at hPy
          exact absurd hPy hP

/-- One pass from the oldest on. -/
theorem foldl_since_iff [DecidablePred Q] [DecidablePred P] :
    xs.foldl (fun held x => decide (P x) || held && decide (Q x)) false = true ↔ Since Q P xs := by
  induction xs using List.reverseRecOn with
  | nil => exact iff_of_false Bool.false_ne_true not_since_nil
  | append_singleton xs x ih =>
    rw [List.foldl_concat, Bool.or_eq_true, Bool.and_eq_true, ih, decide_eq_true_iff,
      decide_eq_true_iff, since_snoc]

instance decidableSince [DecidablePred Q] [DecidablePred P] : Decidable (Since Q P xs) :=
  decidable_of_iff _ foldl_since_iff

/-- How often `S` has happened since `R` happened last, or ever if it has not. -/
def countSince (R S : α → Bool) (xs : List α) : Nat :=
  (xs.rtakeWhile fun x => !R x).countP S

theorem countSince_snoc {R S : α → Bool} {x : α} :
    countSince R S (xs ++ [x]) =
      if R x = true then 0 else countSince R S xs + if S x = true then 1 else 0 := by
  unfold countSince
  rw [List.rtakeWhile_concat]
  cases hR : R x with
  | true => rfl
  | false =>
    rw [Bool.not_false, if_pos rfl, if_neg Bool.false_ne_true, List.countP_append,
      List.countP_singleton]

end Mlvpn.Verified.PastTime
