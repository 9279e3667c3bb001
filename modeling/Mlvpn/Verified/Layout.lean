import Mlvpn.Verified.BigEndian
import Mlvpn.Verified.CheckedSlice

/-!
# Fields at fixed offsets

Decoders of fixed layouts read arrays and big-endian integers at known offsets of a
buffer, in a language that checks every access.  `At buf start bs` says what stands
where; each read has one lemma from there to the value it gets, and one that says how long
the buffer must be for the read to stay inside.

## Main results

* `At.array`, `At.u16`, `At.u32`, `At.u64`: a field that was written is read back.
* `array_eq`, `u16_eq`, `u64_eq`: a read that ends inside the buffer gets the slice.
* `exists_array` and its like: a read that ends inside the buffer succeeds.
-/

namespace Mlvpn.Verified.Layout

open BigEndian CheckedSlice

/-! ## What stands where -/

/-- The bytes `bs` stand in `buf` from offset `start` on. -/
def At (buf : List UInt8) (start : Nat) (bs : List UInt8) : Prop :=
  ∃ before after, buf = before ++ (bs ++ after) ∧ before.length = start

variable {buf bs : List UInt8} {start : Nat}

theorem at_head (bs after : List UInt8) : At (bs ++ after) 0 bs := ⟨[], after, rfl, rfl⟩

theorem at_self (bs : List UInt8) : At bs 0 bs := ⟨[], [], (List.append_nil bs).symm, rfl⟩

/-- Behind a field of `n` bytes. -/
theorem At.behind {field : List UInt8} {n : Nat} (h : At buf start bs) (hn : field.length = n) :
    At (field ++ buf) (n + start) bs := by
  obtain ⟨before, after, rfl, rfl⟩ := h
  refine ⟨field ++ before, after, (List.append_assoc _ _ _).symm, ?_⟩
  rw [List.length_append, hn]

theorem At.append (h : At buf start bs) (rest : List UInt8) : At (buf ++ rest) start bs := by
  obtain ⟨before, after, rfl, hstart⟩ := h
  exact ⟨before, after ++ rest, by simp only [List.append_assoc], hstart⟩

theorem At.le_length (h : At buf start bs) : start + bs.length ≤ buf.length := by
  obtain ⟨before, after, rfl, rfl⟩ := h
  simp only [List.length_append]
  omega

theorem At.subslice (h : At buf start bs) {stop : Nat} (hstop : start + bs.length = stop) :
    subslice buf start stop = .ok bs := by
  subst hstop
  rw [subslice_of_le (Nat.le_add_right _ _) h.le_length]
  obtain ⟨before, after, rfl, rfl⟩ := h
  rw [List.drop_left, Nat.add_sub_cancel_left, List.take_left]

theorem At.index {b : UInt8} (h : At buf start [b]) : index buf start = .ok b := by
  apply index_of_getElem?
  obtain ⟨before, after, rfl, rfl⟩ := h
  rw [List.getElem?_append_right (Nat.le_refl _), Nat.sub_self]
  rfl

/-! ## Reads -/

/-- `xs.try_into().unwrap()`, or the destination's side of `copy_from_slice`. -/
def sized {α : Type} (n : Nat) (xs : List α) : Checked { xs : List α // xs.length = n } :=
  if h : xs.length = n then .ok ⟨xs, h⟩ else .error .outOfBounds

/-- `buf[start..start + n]` as an array. -/
def array (buf : List UInt8) (start n : Nat) : Checked { bs : List UInt8 // bs.length = n } := do
  let bs ← subslice buf start (start + n)
  sized n bs

def u16 (buf : List UInt8) (start : Nat) : Checked UInt16 := do
  let bs ← array buf start 2
  pure (UInt16.ofNat (readBigEndian bs.1))

def u32 (buf : List UInt8) (start : Nat) : Checked UInt32 := do
  let bs ← array buf start 4
  pure (UInt32.ofNat (readBigEndian bs.1))

def u64 (buf : List UInt8) (start : Nat) : Checked UInt64 := do
  let bs ← array buf start 8
  pure (UInt64.ofNat (readBigEndian bs.1))

theorem sized_of_length {α : Type} {n : Nat} {xs : List α} (h : xs.length = n) :
    sized n xs = .ok ⟨xs, h⟩ := dif_pos h

theorem At.array (h : At buf start bs) {n : Nat} (hn : bs.length = n) :
    array buf start n = .ok ⟨bs, hn⟩ := by
  rw [Layout.array, h.subslice (by rw [hn])]
  exact sized_of_length hn

/-- The number in a field of `n` bytes is the one that was written, if it fits. -/
theorem At.readBigEndian {n x : Nat} (h : At buf start (bigEndian n x)) (hx : x < 256 ^ n) :
    ∃ bs, Layout.array buf start n = .ok bs ∧ readBigEndian bs.1 = x := by
  refine ⟨_, h.array (bigEndian_length n x), ?_⟩
  rw [readBigEndian_bigEndian, Nat.mod_eq_of_lt hx]

theorem At.u16 {x : UInt16} (h : At buf start (bigEndian 2 x.toNat)) : u16 buf start = .ok x := by
  obtain ⟨bs, hbs, hx⟩ := h.readBigEndian x.toNat_lt
  rw [Layout.u16, hbs, ok_bind, hx, UInt16.ofNat_toNat]
  rfl

theorem At.u32 {x : UInt32} (h : At buf start (bigEndian 4 x.toNat)) : u32 buf start = .ok x := by
  obtain ⟨bs, hbs, hx⟩ := h.readBigEndian x.toNat_lt
  rw [Layout.u32, hbs, ok_bind, hx, UInt32.ofNat_toNat]
  rfl

theorem At.u64 {x : UInt64} (h : At buf start (bigEndian 8 x.toNat)) : u64 buf start = .ok x := by
  obtain ⟨bs, hbs, hx⟩ := h.readBigEndian x.toNat_lt
  rw [Layout.u64, hbs, ok_bind, hx, UInt64.ofNat_toNat]
  rfl

/-! ## Reads inside the buffer -/

theorem exists_index (buf : List UInt8) (start : Nat) (h : start < buf.length) :
    ∃ b, CheckedSlice.index buf start = .ok b :=
  ⟨_, index_of_getElem? (List.getElem?_eq_getElem h)⟩

/-- A read inside the buffer gets the slice. -/
theorem array_eq (buf : List UInt8) (start n : Nat) (h : start + n ≤ buf.length) :
    ∃ hn, Layout.array buf start n = .ok ⟨slice buf start (start + n), hn⟩ := by
  have hn : (slice buf start (start + n)).length = n := by
    rw [slice_length h, Nat.add_sub_cancel_left]
  refine ⟨hn, ?_⟩
  rw [Layout.array, subslice_of_le (Nat.le_add_right _ _) h]
  exact sized_of_length hn

theorem u16_eq (buf : List UInt8) (start : Nat) (h : start + 2 ≤ buf.length) :
    Layout.u16 buf start = .ok (UInt16.ofNat (readBigEndian (slice buf start (start + 2)))) := by
  obtain ⟨hn, hread⟩ := array_eq buf start 2 h
  rw [Layout.u16, hread]
  rfl

theorem u64_eq (buf : List UInt8) (start : Nat) (h : start + 8 ≤ buf.length) :
    Layout.u64 buf start = .ok (UInt64.ofNat (readBigEndian (slice buf start (start + 8)))) := by
  obtain ⟨hn, hread⟩ := array_eq buf start 8 h
  rw [Layout.u64, hread]
  rfl

theorem exists_array (buf : List UInt8) (start n : Nat) (h : start + n ≤ buf.length) :
    ∃ bs, Layout.array buf start n = .ok bs := by
  obtain ⟨hn, hread⟩ := array_eq buf start n h
  exact ⟨_, hread⟩

theorem exists_u32 (buf : List UInt8) (start : Nat) (h : start + 4 ≤ buf.length) :
    ∃ x, Layout.u32 buf start = .ok x := by
  obtain ⟨bs, hbs⟩ := exists_array buf start 4 h
  rw [Layout.u32, hbs]
  exact ⟨_, rfl⟩

theorem exists_u64 (buf : List UInt8) (start : Nat) (h : start + 8 ≤ buf.length) :
    ∃ x, Layout.u64 buf start = .ok x := ⟨_, u64_eq buf start h⟩

end Mlvpn.Verified.Layout
