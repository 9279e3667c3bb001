import Mathlib

/-!
# Splitting and searching lists

Texts are lists.  A text is cut at the first or the last occurrence of a separator, cut at every
occurrence of a pair, and searched for the first place where a pattern stands.

## Main results

* `splitOnce_eq_some` — a cut at the first separator.
* `rsplitOnce_eq_some` — a cut at the last one.
* `position_eq_some`, `position_eq_none` — the first place of a pattern.
* `position_append`, `le_of_position_append` — a search in a text of which only the beginning is
  there.
-/

namespace Mlvpn.Verified.TextSplit

variable {α : Type*} [DecidableEq α]

/-! ## Cutting once -/

/-- Cut at the first separator. -/
def splitOnce (sep : α) : List α → Option (List α × List α)
  | [] => none
  | x :: xs => if x = sep then some ([], xs) else (splitOnce sep xs).map fun p => (x :: p.1, p.2)

/-- Cut at the last separator. -/
def rsplitOnce (sep : α) (l : List α) : Option (List α × List α) :=
  (splitOnce sep l.reverse).map fun p => (p.2.reverse, p.1.reverse)

theorem splitOnce_append {sep : α} {a : List α} (ha : sep ∉ a) (b : List α) :
    splitOnce sep (a ++ sep :: b) = some (a, b) := by
  induction a with
  | nil => exact if_pos rfl
  | cons x a ih =>
    obtain ⟨hx, ha⟩ := not_or.mp (mt List.mem_cons.mpr ha)
    rw [List.cons_append, splitOnce, if_neg (Ne.symm hx), ih ha]
    rfl

theorem splitOnce_eq_some {sep : α} {l a b : List α} :
    splitOnce sep l = some (a, b) ↔ l = a ++ sep :: b ∧ sep ∉ a := by
  constructor
  · intro h
    induction l generalizing a with
    | nil => cases h
    | cons x xs ih =>
      rw [splitOnce] at h
      split at h
      case isTrue hx =>
        cases h
        exact ⟨by rw [hx, List.nil_append], List.not_mem_nil⟩
      case isFalse hx =>
        obtain ⟨⟨a', b'⟩, hsplit, hpair⟩ := Option.map_eq_some_iff.mp h
        obtain ⟨rfl, rfl⟩ := Prod.mk.inj hpair
        obtain ⟨hxs, hnot⟩ := ih hsplit
        refine ⟨by rw [hxs, List.cons_append], fun hmem => ?_⟩
        rcases List.mem_cons.mp hmem with hsame | hmem
        · exact hx hsame.symm
        · exact hnot hmem
  · rintro ⟨rfl, ha⟩
    exact splitOnce_append ha b

theorem rsplitOnce_eq_some {sep : α} {l a b : List α} :
    rsplitOnce sep l = some (a, b) ↔ l = a ++ sep :: b ∧ sep ∉ b := by
  constructor
  · intro h
    obtain ⟨⟨b', a'⟩, hsplit, hpair⟩ := Option.map_eq_some_iff.mp h
    obtain ⟨rfl, rfl⟩ := Prod.mk.inj hpair
    obtain ⟨hl, hnot⟩ := splitOnce_eq_some.mp hsplit
    refine ⟨?_, fun hmem => hnot (List.mem_reverse.mp hmem)⟩
    rw [← List.reverse_reverse l, hl]
    simp
  · rintro ⟨rfl, hb⟩
    have hrev : (a ++ sep :: b).reverse = b.reverse ++ sep :: a.reverse := by simp
    rw [rsplitOnce, hrev, splitOnce_append (fun hmem => hb (List.mem_reverse.mp hmem))]
    simp

/-! ## Cutting at every pair -/

/-- Cut at every `a` with a `b` right after it. -/
def splitPair (a b : α) : List α → List (List α)
  | [] => [[]]
  | [x] => [[x]]
  | x :: y :: rest =>
      if x = a ∧ y = b then [] :: splitPair a b rest
      else (splitPair a b (y :: rest)).modifyHead (x :: ·)

/-! ## Searching -/

/-- The first place where the pattern stands. -/
def position (pat : List α) : List α → Option Nat
  | [] => if pat = [] then some 0 else none
  | x :: xs => if pat.isPrefixOf (x :: xs) then some 0 else (position pat xs).map (· + 1)

variable {pat l m : List α} {i : Nat}

theorem position_eq_some :
    position pat l = some i ↔ pat <+: l.drop i ∧ i ≤ l.length ∧ ∀ j < i, ¬pat <+: l.drop j := by
  induction l generalizing i with
  | nil =>
    rw [position]
    split
    case isTrue hpat =>
      subst hpat
      constructor
      · rintro ⟨⟩
        exact ⟨List.nil_prefix, le_refl _, fun j hj => absurd hj (Nat.not_lt_zero j)⟩
      · rintro ⟨-, hi, -⟩
        rw [Nat.le_zero.mp hi]
    case isFalse hpat =>
      refine ⟨(fun h => nomatch h), fun ⟨hi, _, _⟩ => ?_⟩
      rw [List.drop_nil] at hi
      exact absurd (List.prefix_nil.mp hi) hpat
  | cons x xs ih =>
    rw [position]
    split
    case isTrue hpat =>
      have hhere : pat <+: x :: xs := List.isPrefixOf_iff_prefix.mp hpat
      constructor
      · rintro ⟨⟩
        exact ⟨hhere, Nat.zero_le _, fun j hj => absurd hj (Nat.not_lt_zero j)⟩
      · rintro ⟨-, -, hfirst⟩
        cases i with
        | zero => rfl
        | succ i => exact absurd hhere (hfirst 0 (Nat.succ_pos i))
    case isFalse hpat =>
      have hhere : ¬pat <+: x :: xs := fun h => hpat (List.isPrefixOf_iff_prefix.mpr h)
      cases i with
      | zero => simpa using fun h => absurd h hhere
      | succ i =>
        rw [Option.map_eq_some_iff]
        constructor
        · rintro ⟨i', hi', hsucc⟩
          obtain rfl := Nat.succ_injective hsucc
          obtain ⟨hat, hle, hfirst⟩ := ih.mp hi'
          refine ⟨hat, Nat.succ_le_succ hle, fun j hj => ?_⟩
          cases j with
          | zero => exact hhere
          | succ j => exact hfirst j (Nat.lt_of_succ_lt_succ hj)
        · rintro ⟨hat, hle, hfirst⟩
          refine ⟨i, ih.mpr ⟨hat, Nat.le_of_succ_le_succ hle, fun j hj => ?_⟩, rfl⟩
          exact hfirst (j + 1) (Nat.succ_lt_succ hj)

theorem position_eq_none : position pat l = none ↔ ∀ j ≤ l.length, ¬pat <+: l.drop j := by
  constructor
  · intro hnone j
    -- Otherwise there is a first such place.
    induction j using Nat.strong_induction_on with
    | _ j ih =>
      intro hj hat
      have hsome := position_eq_some.mpr ⟨hat, hj, fun k hk => ih k hk (by omega)⟩
      rw [hnone] at hsome
      cases hsome
  · intro hall
    cases hpos : position pat l with
    | none => rfl
    | some i =>
      obtain ⟨hat, hle, -⟩ := position_eq_some.mp hpos
      exact absurd hat (hall i hle)

/-- What follows does not change where the pattern is first found. -/
theorem position_append (h : position pat l = some i) (m : List α) :
    position pat (l ++ m) = some i := by
  obtain ⟨hat, hle, hfirst⟩ := position_eq_some.mp h
  have hlen := hat.length_le
  rw [List.length_drop] at hlen
  refine position_eq_some.mpr ⟨?_, ?_, fun j hj hat' => hfirst j hj ?_⟩
  · rw [List.drop_append_of_le_length hle]
    exact hat.trans (List.prefix_append _ m)
  · rw [List.length_append]
    omega
  · rw [List.drop_append_of_le_length (by omega)] at hat'
    refine List.prefix_of_prefix_length_le hat' (List.prefix_append _ m) ?_
    rw [List.length_drop]
    omega

/-- A pattern found only once more is there ends past the beginning. -/
theorem le_of_position_append (hnone : position pat l = none)
    (h : position pat (l ++ m) = some i) : l.length < i + pat.length := by
  obtain ⟨hat, -, -⟩ := position_eq_some.mp h
  by_contra hinside
  refine position_eq_none.mp hnone i (by omega) ?_
  rw [List.drop_append_of_le_length (by omega)] at hat
  refine List.prefix_of_prefix_length_le hat (List.prefix_append _ m) ?_
  rw [List.length_drop]
  omega

end Mlvpn.Verified.TextSplit
