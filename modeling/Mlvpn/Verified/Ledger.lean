import Mathlib

/-!
# Ledgers

Where things are, as a bag: a ledger is a multiset of items, each at a place.
A system that hands items around changes its ledger by *moves* (some entries
are replaced by entries they may move to) and by *entries* of new items.  Two
facts then hold of every run: an attribute no move changes is conserved, with
multiplicity, and a property every move keeps holds of all entries.

## Main results

* `Step.conserved` — one step keeps the bag of an attribute, up to new entries.
* `Step.mem_cases` — where an entry after a step comes from.
* `Step.forall_mem` — one step keeps a property of all entries.
* `Step.frame` — a step of one part of a ledger is a step of the whole.
-/

namespace Mlvpn.Verified.Ledger

variable {ε κ : Type*}

/-- Entries `gone` were replaced by entries `came` they may move to, and the
entries `fresh` are new. -/
structure Step (move : ε → ε → Prop) (ledger ledger' fresh : Multiset ε) : Prop where
  moved : ∃ gone came, Multiset.Rel move gone came ∧ gone ≤ ledger ∧
    ledger' + gone = ledger + came + fresh

variable {move : ε → ε → Prop} {ledger ledger' fresh : Multiset ε}

theorem Step.refl (ledger : Multiset ε) : Step move ledger ledger 0 :=
  ⟨0, 0, Multiset.Rel.zero, Multiset.zero_le _, by simp⟩

/-- Entries move, the rest of the ledger being `stay`. -/
theorem Step.moves {stay gone came : Multiset ε} (hrel : Multiset.Rel move gone came)
    (h : ledger = stay + gone) (h' : ledger' = stay + came) : Step move ledger ledger' 0 := by
  refine ⟨gone, came, hrel, ?_, ?_⟩
  · rw [h]
    exact Multiset.le_add_left _ _
  · rw [h, h']
    abel

/-- One entry moves. -/
theorem Step.move_one {stay : Multiset ε} {x y : ε} (hmove : move x y)
    (h : ledger = stay + {x}) (h' : ledger' = stay + {y}) : Step move ledger ledger' 0 :=
  Step.moves (Multiset.Rel.cons hmove Multiset.Rel.zero) h h'

/-- One entry is new. -/
theorem Step.enter {x : ε} (h : ledger' = ledger + {x}) : Step move ledger ledger' {x} :=
  ⟨0, 0, Multiset.Rel.zero, Multiset.zero_le _, by rw [h, add_zero, add_zero]⟩

theorem map_eq_of_rel {key : ε → κ} (hkey : ∀ x y, move x y → key x = key y)
    {gone came : Multiset ε} (h : Multiset.Rel move gone came) : gone.map key = came.map key := by
  induction h with
  | zero => rfl
  | cons hmove _ ih => rw [Multiset.map_cons, Multiset.map_cons, hkey _ _ hmove, ih]

/-- What no move changes is conserved, with multiplicity. -/
theorem Step.conserved {key : ε → κ} (hkey : ∀ x y, move x y → key x = key y)
    (h : Step move ledger ledger' fresh) : ledger'.map key = ledger.map key + fresh.map key := by
  obtain ⟨gone, came, hrel, -, heq⟩ := h.moved
  have hmap := congrArg (Multiset.map key) heq
  simp only [Multiset.map_add, map_eq_of_rel hkey hrel] at hmap
  refine add_right_cancel (b := came.map key) ?_
  rw [hmap]
  abel

/-- An entry after a step was there before, has moved, or is new. -/
theorem Step.mem_cases (h : Step move ledger ledger' fresh) {y : ε} (hy : y ∈ ledger') :
    y ∈ ledger ∨ (∃ x ∈ ledger, move x y) ∨ y ∈ fresh := by
  obtain ⟨gone, came, hrel, hle, heq⟩ := h.moved
  have hmem : y ∈ ledger + came + fresh := heq ▸ Multiset.mem_add.2 (Or.inl hy)
  rcases Multiset.mem_add.1 hmem with hmem | hfresh
  · rcases Multiset.mem_add.1 hmem with hstayed | hcame
    · exact Or.inl hstayed
    · obtain ⟨x, hx, hmove⟩ := Multiset.exists_mem_of_rel_of_mem (Multiset.rel_flip.2 hrel) hcame
      exact Or.inr (Or.inl ⟨x, Multiset.mem_of_le hle hx, hmove⟩)
  · exact Or.inr (Or.inr hfresh)

/-- What every move keeps, every entry keeps. -/
theorem Step.forall_mem {P : ε → Prop} (hP : ∀ x y, move x y → P x → P y)
    (h : Step move ledger ledger' fresh) (hold : ∀ x ∈ ledger, P x) (hnew : ∀ x ∈ fresh, P x) :
    ∀ x ∈ ledger', P x := by
  intro y hy
  rcases h.mem_cases hy with hstayed | ⟨x, hx, hmove⟩ | hfresh
  · exact hold y hstayed
  · exact hP x y hmove (hold x hx)
  · exact hnew y hfresh

/-- What takes no part in a step stays. -/
theorem Step.frame (h : Step move ledger ledger' fresh) (rest : Multiset ε) :
    Step move (ledger + rest) (ledger' + rest) fresh := by
  obtain ⟨gone, came, hrel, hle, heq⟩ := h.moved
  refine ⟨gone, came, hrel, hle.trans (Multiset.le_add_right _ _), ?_⟩
  calc ledger' + rest + gone = ledger' + gone + rest := by abel
    _ = ledger + rest + came + fresh := by rw [heq]; abel

end Mlvpn.Verified.Ledger
