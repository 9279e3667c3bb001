import Mlvpn.Verified.CheckedSlice

/-!
# Programs that may trap

A program in a language with run-time checks stops at an access outside of a slice, at an
addition that overflows, and at an assertion that does not hold.  A computation that ends in
`ok` has met none of these.  Each operation has one lemma that gives its value where its
check passes.
-/

namespace Mlvpn.Verified.Trap

open CheckedSlice

inductive Cause where
  | slice (fault : Fault)
  | overflow
  | assertion
deriving Repr, DecidableEq

abbrev Trapping := Except Cause

variable {α : Type}

/-- Where a computation stopped, if it did. -/
def cause : Trapping α → Option Cause
  | .ok _ => none
  | .error c => some c

/-- An access to a slice. -/
def access (x : Checked α) : Trapping α := x.mapError .slice

/-- `assert!(p)`. -/
def require (p : Prop) [Decidable p] : Trapping Unit :=
  if p then .ok () else .error .assertion

/-- `a + b`. -/
def addU64 (a b : UInt64) : Trapping UInt64 :=
  if a.toNat + b.toNat < 2 ^ 64 then .ok (a + b) else .error .overflow

/-- `n += 1` on a 64-bit counter that is kept as a number. -/
def succU64 (n : Nat) : Trapping Nat :=
  if n + 1 < 2 ^ 64 then .ok (n + 1) else .error .overflow

/-- `n - m` on indices. -/
def subUsize (n m : Nat) : Trapping Nat :=
  if m ≤ n then .ok (n - m) else .error .overflow

theorem access_ok (x : α) : access (.ok x) = .ok x := rfl

theorem access_index {xs : List α} {i : Nat} {x : α} (h : xs[i]? = some x) :
    access (index xs i) = .ok x := by
  rw [index_of_getElem? h]
  rfl

theorem access_index_getD {xs : List α} {i : Nat} (h : i < xs.length) (d : α) :
    access (index xs i) = .ok (xs.getD i d) := by
  rw [List.getD_eq_getElem _ _ h]
  exact access_index (List.getElem?_eq_getElem h)

theorem access_assign {xs : List α} {i : Nat} (x : α) (h : i < xs.length) :
    access (assign xs i x) = .ok (xs.set i x) := by
  rw [assign, if_pos h]
  rfl

theorem require_of {p : Prop} [Decidable p] (h : p) : require p = .ok () := if_pos h

theorem addU64_of_lt {a b : UInt64} (h : a.toNat + b.toNat < 2 ^ 64) : addU64 a b = .ok (a + b) :=
  if_pos h

theorem succU64_of_lt {n : Nat} (h : n + 1 < 2 ^ 64) : succU64 n = .ok (n + 1) := if_pos h

theorem subUsize_of_le {n m : Nat} (h : m ≤ n) : subUsize n m = .ok (n - m) := if_pos h

/-- A loop over `l` that writes `f i` at each index `i` it names. -/
theorem foldlM_assign {ι : Type} {cell : ι → Nat} {value : ι → Trapping α} {f : Nat → α}
    {l : List ι} {xs : List α} (hbound : ∀ i ∈ l, cell i < xs.length)
    (hvalue : ∀ i ∈ l, value i = .ok (f (cell i))) :
    ∃ ys, (l.foldlM (fun xs i => value i >>= fun v => access (assign xs (cell i) v)) xs) = .ok ys ∧
      ys.length = xs.length ∧
      ∀ k, ys[k]? = if k ∈ l.map cell then some (f k) else xs[k]? := by
  induction l generalizing xs with
  | nil => exact ⟨xs, rfl, rfl, fun k => by simp⟩
  | cons i l ih =>
    have hi : cell i < xs.length := hbound i List.mem_cons_self
    have hset : ∀ j ∈ l, cell j < (xs.set (cell i) (f (cell i))).length := by
      intro j hj
      rw [List.length_set]
      exact hbound j (List.mem_cons_of_mem i hj)
    obtain ⟨ys, hys, hlen, hget⟩ := ih hset fun j hj => hvalue j (List.mem_cons_of_mem i hj)
    refine ⟨ys, ?_, by rw [hlen, List.length_set], fun k => ?_⟩
    · rw [List.foldlM_cons, hvalue i List.mem_cons_self, ok_bind, access_assign _ hi, ok_bind,
        hys]
    · rw [hget, List.map_cons, List.getElem?_set]
      by_cases hk : k ∈ l.map cell
      · rw [if_pos hk, if_pos (List.mem_cons_of_mem _ hk)]
      · rw [if_neg hk]
        by_cases heq : cell i = k
        · subst heq
          rw [if_pos rfl, if_pos hi, if_pos List.mem_cons_self]
        · rw [if_neg heq, if_neg (by simpa [Ne.symm heq] using hk)]

end Mlvpn.Verified.Trap
