import Mlvpn.Verified.Mealy

/-!
# Remembering the last item only

A component that has to answer every item once, and remembers only the last item it
answered, answers an item again as soon as another one has come in between.  What it answers
are the changes of the sequence of items, and no item is answered twice exactly when all
copies of an item come one after the other.

## Main results

* `nodup_changes_iff`: the changes repeat no item exactly when items come in blocks.
* `Remembers.nodup_answers_iff`: the same for a machine that remembers the last item.
-/

namespace Mlvpn.Verified.LastSeen

open Mealy

variable {α : Type*} [DecidableEq α]

/-- The items that differ from the one before them; `last` is before the first. -/
def changes (last : Option α) : List α → List α
  | [] => []
  | a :: l => if last = some a then changes last l else a :: changes (some a) l

/-- Between two copies of an item there is no other. -/
def InBlocks (l : List α) : Prop := ∀ a b, [a, b, a].Sublist l → a = b

theorem mem_changes_iff {last : Option α} {l : List α} {a : α} (h : last ≠ some a) :
    a ∈ changes last l ↔ a ∈ l := by
  induction l generalizing last with
  | nil => exact Iff.rfl
  | cons b l ih =>
    unfold changes
    split
    case isTrue hlast =>
      have hne : a ≠ b := fun heq => h (heq ▸ hlast)
      rw [ih h, List.mem_cons, or_iff_right hne]
    case isFalse =>
      rw [List.mem_cons, List.mem_cons]
      by_cases heq : a = b
      · simp [heq]
      · rw [ih fun hb => heq (Option.some.inj hb).symm]

omit [DecidableEq α] in
/-- Two copies of an item with another one between them, after a first item `c`. -/
theorem inBlocks_cons_cons_iff {a c : α} {l : List α} (hne : a ≠ c) :
    InBlocks (c :: a :: l) ↔ c ∉ l ∧ InBlocks (a :: l) := by
  constructor
  · intro h
    refine ⟨fun hmem => ?_, fun x y hsub => h x y (hsub.cons c)⟩
    have hsub : [c, a, c].Sublist (c :: a :: l) :=
      (List.singleton_sublist.mpr hmem).cons_cons a |>.cons_cons c
    exact hne (h c a hsub).symm
  · rintro ⟨hnot, hblocks⟩ x y hsub
    rcases List.sublist_cons_iff.mp hsub with hsub | ⟨rest, hrest, hsub⟩
    · exact hblocks x y hsub
    · obtain ⟨rfl, rfl⟩ := List.cons.inj hrest
      -- The last copy of `c` is behind `a`.
      rcases List.sublist_cons_iff.mp hsub with hsub | ⟨rest, hrest, hsub⟩
      · exact absurd (hsub.subset (by simp)) hnot
      · obtain ⟨-, rfl⟩ := List.cons.inj hrest
        exact absurd (List.singleton_sublist.mp hsub) hnot

omit [DecidableEq α] in
theorem inBlocks_cons_self_iff {c : α} {l : List α} :
    InBlocks (c :: c :: l) ↔ InBlocks (c :: l) := by
  constructor
  · exact fun h x y hsub => h x y (hsub.cons c)
  · intro h x y hsub
    rcases List.sublist_cons_iff.mp hsub with hsub | ⟨rest, hrest, hsub⟩
    · exact h x y hsub
    · obtain ⟨rfl, rfl⟩ := List.cons.inj hrest
      rcases List.sublist_cons_iff.mp hsub with hsub | ⟨rest, hrest, -⟩
      · exact h x y (hsub.cons_cons x)
      · exact (List.cons.inj hrest).1.symm

theorem nodup_cons_changes_iff {c : α} {l : List α} :
    (c :: changes (some c) l).Nodup ↔ InBlocks (c :: l) := by
  induction l generalizing c with
  | nil =>
    refine iff_of_true (List.nodup_singleton c) fun x y hsub => ?_
    exact absurd hsub.length_le (by simp)
  | cons a l ih =>
    by_cases heq : a = c
    · rw [heq, changes, if_pos rfl, ih, inBlocks_cons_self_iff]
    · have hlast : some c ≠ some a := fun h => heq (Option.some.inj h).symm
      have hlast' : some a ≠ some c := hlast.symm
      rw [changes, if_neg hlast, List.nodup_cons, ih, inBlocks_cons_cons_iff heq, List.mem_cons,
        mem_changes_iff hlast', or_iff_right fun h => heq h.symm]

/-- The changes repeat no item exactly when items come in blocks. -/
theorem nodup_changes_iff {l : List α} : (changes none l).Nodup ↔ InBlocks l := by
  cases l with
  | nil =>
    refine iff_of_true List.nodup_nil fun x y hsub => ?_
    exact absurd hsub.length_le (by simp)
  | cons a l => exact nodup_cons_changes_iff

instance decidableInBlocks (l : List α) : Decidable (InBlocks l) :=
  decidable_of_iff _ nodup_changes_iff

/-! ## Machines -/

section

variable {σ ι ρ : Type*} {step : σ → ι → σ × Option ρ}

/-- The answers of a run. -/
def answers (step : σ → ι → σ × Option ρ) (s : σ) (is : List ι) : List ρ :=
  (log step s is).filterMap Prod.snd

theorem answers_cons (s : σ) (i : ι) (is : List ι) :
    answers step s (i :: is) = (step s i).2.toList ++ answers step (step s i).1 is := by
  rw [answers, log_cons, List.filterMap_cons]
  dsimp only
  cases (step s i).2 with
  | none => rfl
  | some r => rfl

/-- Some calls carry an item to answer, and one is answered, by its name, unless it is the
one answered last. -/
structure Remembers (step : σ → ι → σ × Option ρ) (seen : σ → Option α) (item : ι → Option α)
    (name : ρ → α) : Prop where
  quiet : ∀ s i, item i = none → (step s i).2 = none ∧ seen (step s i).1 = seen s
  again : ∀ s i a, item i = some a → seen s = some a →
    (step s i).2 = none ∧ seen (step s i).1 = seen s
  fresh : ∀ s i a, item i = some a → seen s ≠ some a →
    (∃ r, (step s i).2 = some r ∧ name r = a) ∧ seen (step s i).1 = some a

variable {seen : σ → Option α} {item : ι → Option α} {name : ρ → α}

/-- What is answered are the changes. -/
theorem Remembers.answers_eq (h : Remembers step seen item name) (s : σ) (is : List ι) :
    (answers step s is).map name = changes (seen s) (is.filterMap item) := by
  induction is generalizing s with
  | nil => rfl
  | cons i is ih =>
    rw [answers_cons]
    cases hitem : item i with
    | none =>
      obtain ⟨hanswer, hseen⟩ := h.quiet s i hitem
      rw [hanswer, List.filterMap_cons_none hitem, ← hseen]
      exact ih _
    | some a =>
      rw [List.filterMap_cons_some hitem, changes]
      by_cases hlast : seen s = some a
      · obtain ⟨hanswer, hseen⟩ := h.again s i a hitem hlast
        rw [hanswer, if_pos hlast, ← hseen]
        exact ih _
      · obtain ⟨⟨r, hanswer, hname⟩, hseen⟩ := h.fresh s i a hitem hlast
        subst hname
        rw [hanswer, if_neg hlast, ← hseen]
        exact congrArg (name r :: ·) (ih _)

/-- From a start with nothing answered no item is answered twice exactly when items come in
blocks. -/
theorem Remembers.nodup_answers_iff (h : Remembers step seen item name) {s : σ}
    (hstart : seen s = none) (is : List ι) :
    ((answers step s is).map name).Nodup ↔ InBlocks (is.filterMap item) := by
  rw [h.answers_eq, hstart, nodup_changes_iff]

end

end Mlvpn.Verified.LastSeen
