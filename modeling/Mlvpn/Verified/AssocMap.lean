import Mathlib

/-!
# Association maps under bulk updates

Lookup lemmas for the bulk operations a keyed index goes through: erasing or
inserting every key of a list, dropping the entries that fail a test, and
shrinking, where entries may disappear but never appear or change.

## Main results

* `lookup_eraseAll`, `lookup_insertAll` — what a key finds after a bulk update.
* `lookup_retain` — what a pass over all entries keeps.
* `keys_perm_of_subset` — the keys of a map that has lost some, with those it has lost.
* `Shrinks.trans`, `shrinks_erase` — the order in which maps lose entries.
* `lookup_choose`, `lookup_adopt` — a map made from another, and one brought up to date from it.
-/

namespace Mlvpn.Verified.AssocMap

variable {κ : Type*} {ν : Type*} [DecidableEq κ]

/-- Erase every key of the list. -/
abbrev eraseAll (m : AList fun _ : κ => ν) (ks : List κ) : AList fun _ : κ => ν :=
  ks.foldl (fun m k => m.erase k) m

/-- Insert one value at every key of the list. -/
abbrev insertAll (m : AList fun _ : κ => ν) (v : ν) (ks : List κ) : AList fun _ : κ => ν :=
  ks.foldl (fun m k => m.insert k v) m

variable (m : AList fun _ : κ => ν) (keep : κ → ν → Bool) (ks : List κ) (k : κ)

theorem lookup_eraseAll : (eraseAll m ks).lookup k = if k ∈ ks then none else m.lookup k := by
  induction ks generalizing m with
  | nil => simp
  | cons a ks ih =>
    rw [eraseAll, List.foldl_cons]
    refine (ih (m.erase a)).trans ?_
    by_cases hka : k = a
    · subst hka
      simp
    · simp [hka, AList.lookup_erase_ne hka]

theorem lookup_insertAll (v : ν) (ks : List κ) (k : κ) :
    (insertAll m v ks).lookup k = if k ∈ ks then some v else m.lookup k := by
  induction ks generalizing m with
  | nil => simp
  | cons a ks ih =>
    rw [insertAll, List.foldl_cons]
    refine (ih (m.insert a v)).trans ?_
    by_cases hka : k = a
    · subst hka
      simp
    · simp [hka, AList.lookup_insert_ne hka]

/-- Keep the entries that pass the test. -/
def retain (m : AList fun _ : κ => ν) (keep : κ → ν → Bool) : AList fun _ : κ => ν :=
  ⟨m.entries.filter fun e => keep e.1 e.2, m.nodupKeys.sublist List.filter_sublist⟩

theorem lookup_retain : (retain m keep).lookup k = (m.lookup k).filter (keep k) := by
  refine Option.ext fun v => ?_
  rw [← Option.mem_def, AList.mem_lookup_iff, Option.filter_eq_some_iff, ← Option.mem_def,
    AList.mem_lookup_iff]
  exact List.mem_filter

/-- The keys that a smaller map lacks, and its own. -/
theorem keys_perm_of_subset {m m' : AList fun _ : κ => ν} (hsub : m'.keys ⊆ m.keys) :
    (m.keys.filter (· ∉ m') ++ m'.keys).Perm m.keys := by
  have hkept : m'.keys.Perm (m.keys.filter (· ∈ m')) := by
    refine (List.perm_ext_iff_of_nodup m'.keys_nodup (m.keys_nodup.filter _)).mpr fun k => ?_
    rw [List.mem_filter, decide_eq_true_iff, AList.mem_keys]
    exact ⟨fun hk => ⟨hsub hk, hk⟩, fun hk => hk.2⟩
  refine (hkept.append_left _).trans (List.perm_append_comm.trans ?_)
  convert List.filter_append_perm (fun k => decide (k ∈ m')) m.keys using 3
  funext k
  exact decide_not

omit [DecidableEq κ] in
theorem keys_retain_subset : (retain m keep).keys ⊆ m.keys :=
  (List.filter_sublist.map Sigma.fst).subset

theorem mem_of_lookup {m : AList fun _ : κ => ν} {k : κ} {v : ν} (h : m.lookup k = some v) :
    k ∈ m := AList.lookup_isSome.mp (Option.isSome_of_eq_some h)

theorem exists_lookup {m : AList fun _ : κ => ν} {k : κ} (h : k ∈ m) : ∃ v, m.lookup k = some v :=
  Option.isSome_iff_exists.mp (AList.lookup_isSome.mpr h)

/-- Every entry of `m'` is an entry of `m`. -/
def Shrinks (m m' : AList fun _ : κ => ν) : Prop :=
  ∀ k v, m'.lookup k = some v → m.lookup k = some v

theorem Shrinks.refl : Shrinks m m := fun _ _ h => h

theorem Shrinks.trans {m m' m'' : AList fun _ : κ => ν} (h : Shrinks m m')
    (h' : Shrinks m' m'') : Shrinks m m'' :=
  fun k v hk => h k v (h' k v hk)

theorem shrinks_erase (a : κ) : Shrinks m (m.erase a) := by
  intro k v hk
  by_cases hka : k = a
  · subst hka
    simp at hk
  · rwa [AList.lookup_erase_ne hka] at hk

theorem shrinks_empty : Shrinks m ∅ := by
  intro k v hk
  simp at hk

/-- An entry after an insertion is the new one or an old one. -/
theorem lookup_insert_cases {m : AList fun _ : κ => ν} {a k : κ} {v w : ν}
    (h : (m.insert a v).lookup k = some w) : (k = a ∧ w = v) ∨ m.lookup k = some w := by
  by_cases hka : k = a
  · subst hka
    left
    simpa [eq_comm] using h
  · right
    rwa [AList.lookup_insert_ne hka] at h

section

variable {ω : Type*}

/-- The entries for which `f` has a value, with that value. -/
def choose (m : AList fun _ : κ => ν) (f : ν → Option ω) : AList fun _ : κ => ω :=
  m.entries.foldl (fun out e => match f e.2 with
    | some w => out.insert e.1 w
    | none => out) ∅

/-- Bring `m` up to date: an entry of `u` for which `f` has a change makes it, on a key that
`m` need not have. -/
def adopt (m : AList fun _ : κ => ν) (empty : ν) (f : ω → Option (ν → ν))
    (u : AList fun _ : κ => ω) : AList fun _ : κ => ν :=
  u.entries.foldl (fun m e => match f e.2 with
    | some change => m.insert e.1 (change ((m.lookup e.1).getD empty))
    | none => m) m

/-- A pass over entries with different keys, each of which changes the value at its own key. -/
theorem lookup_foldl {m : AList fun _ : κ => ν} {f : ω → Option ν → Option ν}
    {g : AList (fun _ : κ => ν) → (Σ _ : κ, ω) → AList fun _ : κ => ν}
    (hg : ∀ m e k, (g m e).lookup k = if k = e.1 then f e.2 (m.lookup k) else m.lookup k)
    {es : List (Σ _ : κ, ω)} (hes : es.NodupKeys) (k : κ) :
    (es.foldl g m).lookup k =
      match es.dlookup k with
      | some w => f w (m.lookup k)
      | none => m.lookup k := by
  induction es generalizing m with
  | nil => rfl
  | cons e es ih =>
    obtain ⟨a, w⟩ := e
    obtain ⟨hnew, hrest⟩ := List.nodupKeys_cons.mp hes
    rw [List.foldl_cons, ih hrest, hg]
    by_cases hka : k = a
    · subst hka
      rw [if_pos rfl, List.dlookup_cons_eq, List.dlookup_eq_none.mpr hnew]
    · rw [if_neg hka, List.dlookup_cons_ne _ _ hka]

theorem lookup_choose (m : AList fun _ : κ => ν) (f : ν → Option ω) (k : κ) :
    (choose m f).lookup k = (m.lookup k).bind f := by
  have hpass := lookup_foldl (m := (∅ : AList fun _ : κ => ω))
    (f := fun v (old : Option ω) => (f v).or old)
    (g := fun out e => match f e.2 with
      | some w => out.insert e.1 w
      | none => out) ?_ m.nodupKeys k
  · refine hpass.trans ?_
    show _ = (m.entries.dlookup k).bind f
    cases m.entries.dlookup k with
    | none => rfl
    | some v => exact Option.or_none
  · intro out e k'
    cases f e.2 with
    | none => exact (ite_self _).symm
    | some w =>
      by_cases hk : k' = e.1
      · rw [if_pos hk, hk]
        exact AList.lookup_insert _
      · rw [if_neg hk]
        exact AList.lookup_insert_ne hk

theorem lookup_adopt (m : AList fun _ : κ => ν) (empty : ν) (f : ω → Option (ν → ν))
    (u : AList fun _ : κ => ω) (k : κ) :
    (adopt m empty f u).lookup k =
      match (u.lookup k).bind f with
      | some change => some (change ((m.lookup k).getD empty))
      | none => m.lookup k := by
  have hpass := lookup_foldl (m := m)
    (f := fun w (old : Option ν) => match f w with
      | some change => some (change (old.getD empty))
      | none => old)
    (g := fun m e => match f e.2 with
      | some change => m.insert e.1 (change ((m.lookup e.1).getD empty))
      | none => m) ?_ u.nodupKeys k
  · refine hpass.trans ?_
    show _ = match (u.entries.dlookup k).bind f with
      | some change => some (change ((m.lookup k).getD empty))
      | none => m.lookup k
    cases u.entries.dlookup k with
    | none => rfl
    | some w => rfl
  · intro m' e k'
    cases f e.2 with
    | none => exact (ite_self _).symm
    | some change =>
      by_cases hk : k' = e.1
      · rw [if_pos hk, hk]
        exact AList.lookup_insert _
      · rw [if_neg hk]
        exact AList.lookup_insert_ne hk

end

end Mlvpn.Verified.AssocMap
