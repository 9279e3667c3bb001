import Mathlib.Data.List.Infix

/-!
# Streaks

How many of the last entries of a log in a row are the same given one.  A counter that is
incremented on `a` and reset on everything else is the streak of `a`, and that it has
reached `n` says that the log ends in `n` times `a`.

## Main results

* `streak_append_singleton`: a log that grows by one entry.
* `replicate_suffix_iff`: the log ends in `n` times `a`.
-/

namespace Mlvpn.Verified.Streak

variable {α : Type*} [DecidableEq α] {a b : α} {log : List α} {n : Nat}

/-- How many entries at the end of the log are `a`. -/
def streak (a : α) (log : List α) : Nat := (log.reverse.takeWhile (· = a)).length

@[simp] theorem streak_nil (a : α) : streak a [] = 0 := rfl

theorem streak_append_singleton (a b : α) (log : List α) :
    streak a (log ++ [b]) = if b = a then streak a log + 1 else 0 := by
  rw [streak, List.reverse_append, List.reverse_singleton, List.singleton_append,
    List.takeWhile_cons]
  by_cases h : b = a
  · rw [if_pos (by simpa using h), if_pos h, List.length_cons, streak]
  · rw [if_neg (by simpa using h), if_neg h, List.length_nil]

theorem streak_append_self (a : α) (log : List α) : streak a (log ++ [a]) = streak a log + 1 := by
  rw [streak_append_singleton, if_pos rfl]

theorem streak_append_of_ne (h : b ≠ a) (log : List α) : streak a (log ++ [b]) = 0 := by
  rw [streak_append_singleton, if_neg h]

/-- A log cannot end in two different ways. -/
theorem streak_eq_zero_of_pos (h : 0 < streak a log) (hne : b ≠ a) : streak b log = 0 := by
  induction log using List.reverseRecOn with
  | nil => rfl
  | append_singleton log c =>
    rw [streak_append_singleton] at h ⊢
    by_cases hc : c = b
    · rw [if_neg fun hca => hne (hc.symm.trans hca)] at h
      exact absurd h (Nat.lt_irrefl 0)
    · rw [if_neg hc]

theorem streak_le_length (a : α) (log : List α) : streak a log ≤ log.length := by
  rw [streak]
  exact (List.takeWhile_sublist _).length_le.trans (Nat.le_of_eq List.length_reverse)

theorem replicate_suffix_iff : List.replicate n a <:+ log ↔ n ≤ streak a log := by
  induction log using List.reverseRecOn generalizing n with
  | nil => simp
  | append_singleton log c ih =>
    rw [streak_append_singleton]
    cases n with
    | zero => simp
    | succ n =>
      rw [List.replicate_succ', List.suffix_concat_iff]
      by_cases hc : c = a
      · rw [if_pos hc, Nat.succ_le_succ_iff, ← ih]
        subst hc
        simp
      · rw [if_neg hc]
        simp [Ne.symm hc]

end Mlvpn.Verified.Streak
