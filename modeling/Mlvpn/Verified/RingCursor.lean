import Mathlib

/-!
# A bounded ring read with a cursor

A ring keeps the last so many of the items pushed onto it.  A reader keeps the largest key it
has seen and asks for the items with larger keys.  When keys grow in the order of the pushes,
and no more items were pushed since the last reading than the ring holds, the reader gets
exactly these.

## Main results

* `pushBounded_rtake` — a ring is the end of the list of everything pushed.
* `after_rtake` — what a cursor that separates the old items from the new ones finds in it.
-/

namespace Mlvpn.Verified.RingCursor

variable {α κ : Type*}

/-- Push an item, and drop the oldest one when there are `cap` already. -/
def pushBounded (cap : Nat) (ring : List α) (x : α) : List α :=
  (if ring.length = cap then ring.tail else ring) ++ [x]

theorem pushBounded_rtake {cap : Nat} (hcap : 0 < cap) (all : List α) (x : α) :
    pushBounded cap (all.rtake cap) x = (all ++ [x]).rtake cap := by
  unfold pushBounded List.rtake
  rw [List.length_drop, List.length_append, List.length_singleton]
  by_cases hfull : cap ≤ all.length
  · rw [if_pos (by omega), List.tail_drop, List.drop_append_of_le_length (by omega)]
    congr 2
    omega
  · rw [if_neg (by omega), List.drop_append_of_le_length (by omega)]
    congr 2
    omega

/-- Several items, one after the other. -/
theorem foldl_pushBounded {cap : Nat} (hcap : 0 < cap) (all xs : List α) :
    xs.foldl (pushBounded cap) (all.rtake cap) = (all ++ xs).rtake cap := by
  induction xs generalizing all with
  | nil => rw [List.foldl_nil, List.append_nil]
  | cons x xs ih =>
    rw [List.foldl_cons, pushBounded_rtake hcap, ih, List.append_assoc, List.singleton_append]

/-- The newest item is there. -/
theorem getLast?_rtake {cap : Nat} (hcap : 0 < cap) (all : List α) :
    (all.rtake cap).getLast? = all.getLast? := by
  rw [List.rtake, List.getLast?_drop]
  cases all with
  | nil => rfl
  | cons x xs => rw [if_neg (by rw [List.length_cons]; omega)]

section

variable [LinearOrder κ] (key : α → κ)

/-- The items past the cursor. -/
def after (cursor : κ) (ring : List α) : List α := ring.filter fun x => cursor < key x

variable {key} {cursor : κ} {old new : List α}

theorem after_append (hold : ∀ x ∈ old, key x ≤ cursor) (hnew : ∀ x ∈ new, cursor < key x) :
    after key cursor (old ++ new) = new := by
  unfold after
  rw [List.filter_append, List.filter_eq_nil_iff.mpr, List.filter_eq_self.mpr, List.nil_append]
  · exact fun x hx => decide_eq_true (hnew x hx)
  · exact fun x hx hlt => absurd (of_decide_eq_true hlt) (not_lt.mpr (hold x hx))

/-- The ring has lost old items only. -/
theorem after_rtake {cap : Nat} (hold : ∀ x ∈ old, key x ≤ cursor)
    (hnew : ∀ x ∈ new, cursor < key x) (hlen : new.length ≤ cap) :
    after key cursor ((old ++ new).rtake cap) = new := by
  have hsplit : (old ++ new).rtake cap = old.drop (old.length + new.length - cap) ++ new := by
    rw [List.rtake, List.length_append, List.drop_append_of_le_length (by omega)]
  rw [hsplit]
  exact after_append (fun x hx => hold x (List.mem_of_mem_drop hx)) hnew

end

end Mlvpn.Verified.RingCursor
