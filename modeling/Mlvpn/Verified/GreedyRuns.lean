import Mathlib.Data.List.Basic
import Mathlib.Tactic.Common

/-!
# Greedy splitting into runs

A list is cut, in order, into runs that each satisfy a predicate `Valid`.  If
`Valid` survives dropping the first element of a run, then taking the longest
valid run again and again gives the fewest runs: no cut of the list, and no cut
of a longer list that ends in it, has fewer (`Greedy.length_le`).

The exchange argument is by induction on the *other* cut.  Its first run either
ends before the greedy cut begins, and then nothing happens on the greedy side,
or it reaches into the first greedy run.  By suffix closure what it covers of
that run is a valid run of its own, so it is no longer than the greedy one, and
the other cut enters the second greedy run, at best, at its start.
-/

namespace Mlvpn.Verified.GreedyRuns

variable {α : Type*}

/-- `Valid` survives dropping elements at the front, as long as one is left. -/
def SuffixClosed (Valid : List α → Prop) : Prop :=
  ∀ front run, run ≠ [] → Valid (front ++ run) → Valid run

/-- It is enough to drop one element. -/
theorem suffixClosed_of_tail {Valid : List α → Prop}
    (h : ∀ x run, run ≠ [] → Valid (x :: run) → Valid run) : SuffixClosed Valid := by
  intro front run hne hvalid
  induction front with
  | nil => exact hvalid
  | cons x front ih => exact ih (h x (front ++ run) (by simp [hne]) hvalid)

/-- `runs` cuts `xs` into runs, each one the longest valid run that begins where
the one before it ended. -/
inductive Greedy (Valid : List α → Prop) : List α → List (List α) → Prop where
  | nil : Greedy Valid [] []
  | cons {run rest : List α} {runs : List (List α)}
      (nonempty : run ≠ [])
      (valid : Valid run)
      (longest : ∀ run' rest', run' ++ rest' = run ++ rest → run' ≠ [] → Valid run' →
        run'.length ≤ run.length)
      (next : Greedy Valid rest runs) :
      Greedy Valid (run ++ rest) (run :: runs)

/-- A greedy cut is a cut into valid runs. -/
theorem Greedy.forall_valid {Valid : List α → Prop} {xs : List α} {runs : List (List α)}
    (h : Greedy Valid xs runs) : ∀ run ∈ runs, Valid run := by
  induction h with
  | nil => simp
  | cons _ valid _ _ ih =>
    intro run hrun
    rcases List.mem_cons.mp hrun with rfl | hrun
    · exact valid
    · exact ih run hrun

/-- The greedy cut of `xs` has no more runs than any cut of a list that ends in
`xs`. -/
theorem Greedy.length_le {Valid : List α → Prop} (hclosed : SuffixClosed Valid)
    {other : List (List α)} (hother : ∀ run ∈ other, Valid run) :
    ∀ {front xs : List α} {runs : List (List α)}, Greedy Valid xs runs →
      other.flatten = front ++ xs → runs.length ≤ other.length := by
  induction other with
  | nil =>
    intro front xs runs hgreedy hflat
    have hxs : xs = [] := (List.append_eq_nil_iff.mp hflat.symm).2
    cases hgreedy with
    | nil => exact Nat.le_refl _
    | cons nonempty _ _ _ => exact absurd (List.append_eq_nil_iff.mp hxs).1 nonempty
  | cons o other ih =>
    intro front xs runs hgreedy hflat
    have hnext := @ih fun run hrun => hother run (List.mem_cons_of_mem o hrun)
    rw [List.flatten_cons] at hflat
    rcases List.append_eq_append_iff.mp hflat with ⟨skipped, hfront, hrest⟩ |
      ⟨reach, ho, hxs⟩
    · -- `o` ends before `xs` begins.
      have hle := hnext hgreedy hrest
      rw [List.length_cons]
      omega
    · cases hgreedy with
      | nil => exact Nat.zero_le _
      | @cons run rest runs _ _ longest next =>
        -- `o` covers `reach` at the start of `xs`.
        have hle : reach.length ≤ run.length := by
          by_cases hreach : reach = []
          · rw [hreach]
            exact Nat.zero_le _
          · refine longest reach other.flatten hxs.symm hreach (hclosed front reach hreach ?_)
            rw [← ho]
            exact hother o List.mem_cons_self
        obtain ⟨left, hrun⟩ : ∃ left, run = reach ++ left :=
          List.prefix_of_prefix_length_le ⟨other.flatten, hxs.symm⟩
            (List.prefix_append run rest) hle |>.imp fun _ h => h.symm
        rw [hrun, List.append_assoc] at hxs
        have hle := hnext next (List.append_cancel_left hxs).symm
        rw [List.length_cons, List.length_cons]
        omega

end Mlvpn.Verified.GreedyRuns
