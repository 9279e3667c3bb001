import Mathlib

/-!
# Slices with bounds checks

Reads and writes of a buffer in a language that checks its bounds: an access outside
of it stops the program.  A loop that runs out of the steps it was given stops it as
well, so that a computation that ends in `ok` has done neither.

## Main results

* `getElem?_overwrite`: what a write leaves at each position.
* `drop_overwrite`, `take_overwrite`: a write seen from a subslice.
-/

namespace Mlvpn.Verified.CheckedSlice

inductive Fault where
  | outOfBounds
  | outOfSteps
deriving Repr, DecidableEq

abbrev Checked := Except Fault

variable {α : Type*}

/-- `xs[i]`. -/
def index (xs : List α) (i : Nat) : Checked α :=
  match xs[i]? with
  | some x => .ok x
  | none => .error .outOfBounds

/-- `xs[i] = x`. -/
def assign (xs : List α) (i : Nat) (x : α) : Checked (List α) :=
  if i < xs.length then .ok (xs.set i x) else .error .outOfBounds

/-- `&xs[start..stop]`. -/
def subslice (xs : List α) (start stop : Nat) : Checked (List α) :=
  if start ≤ stop ∧ stop ≤ xs.length then .ok ((xs.drop start).take (stop - start))
  else .error .outOfBounds

/-- `ys` in place of what stands at `start`. -/
def overwrite (xs : List α) (start : Nat) (ys : List α) : List α :=
  xs.take start ++ ys ++ xs.drop (start + ys.length)

/-- `xs[start..stop].copy_from_slice(ys)`. -/
def copyFromSlice (xs : List α) (start stop : Nat) (ys : List α) : Checked (List α) :=
  if start ≤ stop ∧ stop ≤ xs.length ∧ ys.length = stop - start then .ok (overwrite xs start ys)
  else .error .outOfBounds

theorem ok_bind.{u, v} {ε : Type u} {γ δ : Type v} (x : γ) (f : γ → Except ε δ) :
    (Except.ok x >>= f) = f x := rfl

/-- A loop whose rounds all succeed. -/
theorem mapM_eq_ok {ε γ δ : Type} {f : γ → Except ε δ} {g : γ → δ} {l : List γ}
    (h : ∀ x ∈ l, f x = .ok (g x)) : l.mapM f = .ok (l.map g) := by
  induction l with
  | nil => rfl
  | cons x l ih =>
    rw [List.mapM_cons, h x List.mem_cons_self, ih fun y hy => h y (List.mem_cons_of_mem x hy)]
    rfl

theorem index_of_getElem? {xs : List α} {i : Nat} {x : α} (h : xs[i]? = some x) :
    index xs i = .ok x := by
  rw [index, h]

theorem subslice_of_le {xs : List α} {start stop : Nat} (h : start ≤ stop)
    (hstop : stop ≤ xs.length) :
    subslice xs start stop = .ok ((xs.drop start).take (stop - start)) := if_pos ⟨h, hstop⟩

theorem copyFromSlice_of_le {xs ys : List α} {start stop : Nat} (h : start ≤ stop)
    (hstop : stop ≤ xs.length) (hlen : ys.length = stop - start) :
    copyFromSlice xs start stop ys = .ok (overwrite xs start ys) := if_pos ⟨h, hstop, hlen⟩

/-! ## Writes -/

variable {xs ys : List α} {start : Nat}

theorem length_overwrite (h : start + ys.length ≤ xs.length) :
    (overwrite xs start ys).length = xs.length := by
  simp only [overwrite, List.length_append, List.length_take, List.length_drop]
  omega

theorem getElem?_overwrite (h : start + ys.length ≤ xs.length) (n : Nat) :
    (overwrite xs start ys)[n]? =
      if start ≤ n ∧ n < start + ys.length then ys[n - start]? else xs[n]? := by
  have htake : (xs.take start).length = start := by
    rw [List.length_take]
    omega
  rw [overwrite, List.append_assoc, List.getElem?_append, htake]
  by_cases hbefore : n < start
  · rw [if_pos hbefore, if_neg (by omega), List.getElem?_take_of_lt hbefore]
  · rw [if_neg hbefore, List.getElem?_append]
    by_cases hwithin : n - start < ys.length
    · rw [if_pos hwithin, if_pos (by omega)]
    · rw [if_neg hwithin, if_neg (by omega), List.getElem?_drop]
      congr 1
      omega

/-- A write past the first `d` elements is a write to the others. -/
theorem drop_overwrite {d : Nat} (hd : d ≤ start) (h : start + ys.length ≤ xs.length) :
    (overwrite xs start ys).drop d = overwrite (xs.drop d) (start - d) ys := by
  have hdrop : start - d + ys.length ≤ (xs.drop d).length := by
    rw [List.length_drop]
    omega
  apply List.ext_getElem?
  intro n
  rw [List.getElem?_drop, getElem?_overwrite h, getElem?_overwrite hdrop, List.getElem?_drop]
  by_cases hin : start ≤ d + n ∧ d + n < start + ys.length
  · rw [if_pos hin, if_pos (by omega)]
    congr 1
    omega
  · rw [if_neg hin, if_neg (by omega)]

/-- A write within the first `d` elements leaves the others. -/
theorem drop_overwrite_of_le {d : Nat} (hd : start + ys.length ≤ d)
    (h : start + ys.length ≤ xs.length) : (overwrite xs start ys).drop d = xs.drop d := by
  apply List.ext_getElem?
  intro n
  rw [List.getElem?_drop, getElem?_overwrite h, if_neg (by omega), List.getElem?_drop]

/-- A write within the first `d` elements is a write to those. -/
theorem take_overwrite {d : Nat} (hd : start + ys.length ≤ d) (h : start + ys.length ≤ xs.length) :
    (overwrite xs start ys).take d = overwrite (xs.take d) start ys := by
  have htake : start + ys.length ≤ (xs.take d).length := by
    rw [List.length_take]
    omega
  apply List.ext_getElem?
  intro n
  rw [List.getElem?_take, getElem?_overwrite h, getElem?_overwrite htake, List.getElem?_take]
  by_cases hin : start ≤ n ∧ n < start + ys.length
  · rw [if_pos (by omega), if_pos hin, if_pos hin]
  · rw [if_neg hin, if_neg hin]

/-- A subslice written back as it was. -/
theorem overwrite_self (len : Nat) (h : start + len ≤ xs.length) :
    overwrite xs start ((xs.drop start).take len) = xs := by
  have hlen : ((xs.drop start).take len).length = len := by
    rw [List.length_take, List.length_drop]
    omega
  apply List.ext_getElem?
  intro n
  rw [getElem?_overwrite (by rwa [hlen]), hlen]
  by_cases hin : start ≤ n ∧ n < start + len
  · rw [if_pos hin, List.getElem?_take_of_lt (by omega), List.getElem?_drop,
      Nat.add_sub_cancel' hin.1]
  · rw [if_neg hin]

/-- A write to a subslice is a write to the whole. -/
theorem overwrite_subslice {offset len : Nat} (hoffset : offset + ys.length ≤ len)
    (h : start + len ≤ xs.length) :
    overwrite xs start (overwrite ((xs.drop start).take len) offset ys) =
      overwrite xs (start + offset) ys := by
  have hlen : ((xs.drop start).take len).length = len := by
    rw [List.length_take, List.length_drop]
    omega
  have hsub : offset + ys.length ≤ ((xs.drop start).take len).length := by rwa [hlen]
  have hlen' : (overwrite ((xs.drop start).take len) offset ys).length = len := by
    rw [length_overwrite hsub, hlen]
  have hwhole : start + offset + ys.length ≤ xs.length := by omega
  apply List.ext_getElem?
  intro n
  rw [getElem?_overwrite (by rwa [hlen']), hlen', getElem?_overwrite hwhole,
    getElem?_overwrite hsub]
  by_cases hin : start ≤ n ∧ n < start + len
  · rw [if_pos hin]
    by_cases hwritten : offset ≤ n - start ∧ n - start < offset + ys.length
    · rw [if_pos hwritten, if_pos (by omega), Nat.sub_sub]
    · rw [if_neg hwritten, if_neg (by omega), List.getElem?_take_of_lt (by omega),
        List.getElem?_drop, Nat.add_sub_cancel' hin.1]
  · rw [if_neg hin, if_neg (by omega)]

theorem overwrite_append_left (zs : List α) (h : start + ys.length ≤ xs.length) :
    overwrite (xs ++ zs) start ys = overwrite xs start ys ++ zs := by
  rw [overwrite, overwrite, List.take_append_of_le_length (by omega),
    List.drop_append_of_le_length h, List.append_assoc, List.append_assoc, List.append_assoc]

theorem overwrite_append_right (zs : List α) (offset : Nat) :
    overwrite (zs ++ xs) (zs.length + offset) ys = zs ++ overwrite xs offset ys := by
  simp only [overwrite, List.take_length_add_append, Nat.add_assoc, List.drop_length_add_append,
    List.append_assoc]

theorem set_set_eq_overwrite {i : Nat} (x y : α) (h : i + 2 ≤ xs.length) :
    (xs.set i x).set (i + 1) y = overwrite xs i [x, y] := by
  apply List.ext_getElem?
  intro n
  rw [getElem?_overwrite h, List.getElem?_set, List.getElem?_set, List.length_set]
  by_cases hsecond : i + 1 = n
  · subst hsecond
    rw [if_pos rfl, if_pos (by omega), if_pos ⟨Nat.le_succ i, Nat.lt_succ_self _⟩,
      Nat.add_sub_cancel_left]
    rfl
  by_cases hfirst : i = n
  · subst hfirst
    rw [if_neg hsecond, if_pos rfl, if_pos (by omega), if_pos ⟨Nat.le_refl i, by simp⟩,
      Nat.sub_self]
    rfl
  · have hout : ¬(i ≤ n ∧ n < i + [x, y].length) := by
      rw [show [x, y].length = 2 from rfl]
      omega
    rw [if_neg hsecond, if_neg hfirst, if_neg hout]

end Mlvpn.Verified.CheckedSlice
