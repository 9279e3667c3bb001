import Mathlib

/-!
# Big-endian integers in byte strings

Fixed-width big-endian encodings and the slicing facts a decoder of
fixed-stride tables needs.  `bigEndian n x` is the `n`-byte encoding of `x`,
truncated like an integer cast, and `readBigEndian` reads any byte string back.

## Main results

* `readBigEndian_bigEndian` — reading back an encoding returns the value modulo the
  width.
* `bigEndian_readBigEndian` — encoding what was read returns the bytes.
* `slice_table` — entry `i` of a table of fixed-width encodings sits at
  stride `i`.
-/

namespace Mlvpn.Verified.BigEndian

/-- The `n` low bytes of `x`, most significant first. -/
def bigEndian : Nat → Nat → List UInt8
  | 0, _ => []
  | n + 1, x => UInt8.ofNat (x / 256 ^ n) :: bigEndian n x

/-- The number a byte string spells, most significant byte first. -/
def readBigEndian (bytes : List UInt8) : Nat :=
  bytes.foldl (fun acc b => acc * 256 + b.toNat) 0

/-- The bytes `[start, stop)` of `buf`. -/
def slice (buf : List UInt8) (start stop : Nat) : List UInt8 :=
  (buf.drop start).take (stop - start)

variable {α : Type*} (f : α → List UInt8) {buf : List UInt8} {start : Nat} (n k x : Nat)
  (bytes : List UInt8) (acc : Nat)

@[simp] theorem bigEndian_length : (bigEndian n x).length = n := by
  induction n with
  | zero => rfl
  | succ n ih => simp [bigEndian, ih]

private theorem foldl_bigEndian :
    (bigEndian n x).foldl (fun acc b => acc * 256 + b.toNat) acc =
      acc * 256 ^ n + x % 256 ^ n := by
  induction n generalizing acc with
  | zero => simp [bigEndian, Nat.mod_one]
  | succ n ih =>
    have hdigit : (UInt8.ofNat (x / 256 ^ n)).toNat = x / 256 ^ n % 256 := rfl
    have hmod : x % 256 ^ (n + 1) = x % 256 ^ n + 256 ^ n * (x / 256 ^ n % 256) :=
      Nat.mod_mul
    rw [bigEndian, List.foldl_cons, ih, hdigit, hmod, pow_succ]
    ring

theorem readBigEndian_bigEndian : readBigEndian (bigEndian n x) = x % 256 ^ n := by
  rw [readBigEndian, foldl_bigEndian]
  simp

private theorem foldl_eq_add :
    bytes.foldl (fun acc b => acc * 256 + b.toNat) acc =
      acc * 256 ^ bytes.length + readBigEndian bytes := by
  induction bytes generalizing acc with
  | nil => simp [readBigEndian]
  | cons b bytes ih =>
    rw [readBigEndian, List.foldl_cons, List.foldl_cons, ih, ih (0 * 256 + b.toNat),
      List.length_cons, pow_succ]
    ring

theorem readBigEndian_cons (b : UInt8) (bytes : List UInt8) :
    readBigEndian (b :: bytes) = b.toNat * 256 ^ bytes.length + readBigEndian bytes := by
  rw [readBigEndian, List.foldl_cons, foldl_eq_add, Nat.zero_mul, Nat.zero_add]

theorem readBigEndian_lt : readBigEndian bytes < 256 ^ bytes.length := by
  induction bytes with
  | nil => simp [readBigEndian]
  | cons b bytes ih =>
    have hb : b.toNat + 1 ≤ 256 := b.toNat_lt
    calc readBigEndian (b :: bytes)
        = b.toNat * 256 ^ bytes.length + readBigEndian bytes := readBigEndian_cons b bytes
      _ < b.toNat * 256 ^ bytes.length + 256 ^ bytes.length := by omega
      _ = (b.toNat + 1) * 256 ^ bytes.length := by ring
      _ ≤ 256 * 256 ^ bytes.length := Nat.mul_le_mul_right _ hb
      _ = 256 ^ (b :: bytes).length := by rw [List.length_cons, pow_succ, Nat.mul_comm]

/-- Only the low `n` bytes count. -/
private theorem bigEndian_mul_add : bigEndian n (k * 256 ^ n + x) = bigEndian n x := by
  induction n generalizing k with
  | zero => rfl
  | succ n ih =>
    have hshift : k * 256 ^ (n + 1) + x = k * 256 * 256 ^ n + x := by ring
    have hdigit : (k * 256 * 256 ^ n + x) / 256 ^ n = k * 256 + x / 256 ^ n := by
      rw [Nat.add_comm, Nat.add_mul_div_right x (k * 256) (by positivity), Nat.add_comm]
    have hbyte : UInt8.ofNat (k * 256 + x / 256 ^ n) = UInt8.ofNat (x / 256 ^ n) := by
      apply UInt8.toNat_inj.mp
      show (k * 256 + x / 256 ^ n) % 256 = x / 256 ^ n % 256
      omega
    rw [bigEndian, bigEndian, hshift, ih, hdigit, hbyte]

theorem bigEndian_readBigEndian : bigEndian bytes.length (readBigEndian bytes) = bytes := by
  induction bytes with
  | nil => rfl
  | cons b bytes ih =>
    have hdigit : (b.toNat * 256 ^ bytes.length + readBigEndian bytes) / 256 ^ bytes.length =
        b.toNat := by
      rw [Nat.add_comm, Nat.add_mul_div_right _ _ (by positivity),
        Nat.div_eq_of_lt (readBigEndian_lt bytes), Nat.zero_add]
    rw [List.length_cons, bigEndian, readBigEndian_cons, hdigit, bigEndian_mul_add, ih,
      UInt8.ofNat_toNat]

theorem slice_length {stop : Nat} (h : stop ≤ buf.length) :
    (slice buf start stop).length = stop - start := by
  rw [slice, List.length_take, List.length_drop]
  omega

/-- Two slices next to each other. -/
theorem slice_append_slice {middle stop : Nat} (h : start ≤ middle) (hstop : middle ≤ stop) :
    slice buf start middle ++ slice buf middle stop = slice buf start stop := by
  obtain ⟨a, rfl⟩ := Nat.exists_eq_add_of_le h
  obtain ⟨b, rfl⟩ := Nat.exists_eq_add_of_le hstop
  rw [slice, slice, slice, Nat.add_sub_cancel_left, Nat.add_sub_cancel_left, Nat.add_assoc,
    Nat.add_sub_cancel_left, ← List.drop_drop, ← List.take_add]

/-- A table of fixed-width entries, taken apart and put together. -/
theorem flatMap_slice (buf : List UInt8) (start k n : Nat) :
    ((List.range n).flatMap fun i => slice buf (start + i * k) (start + i * k + k)) =
      slice buf start (start + n * k) := by
  induction n with
  | zero => simp [slice]
  | succ n ih =>
    rw [List.range_succ, List.flatMap_append, List.flatMap_singleton, ih,
      slice_append_slice (by omega) (by omega)]
    congr 1
    ring

/-- Slices see through a prefix of known length. -/
theorem slice_append_right {xs ys : List UInt8} {n start stop : Nat} (hn : xs.length = n)
    (hstart : n ≤ start) : slice (xs ++ ys) start stop = slice ys (start - n) (stop - n) := by
  subst hn
  have hwidth : stop - xs.length - (start - xs.length) = stop - start := by omega
  rw [slice, slice, List.drop_append, List.drop_eq_nil_of_le hstart, List.nil_append, hwidth]

/-- Entry `i` of a table whose entries all have width `k`, whatever follows
the table. -/
theorem slice_table (hf : ∀ a, (f a).length = k) (l : List α) (rest : List UInt8) (i : Nat)
    (hi : i < l.length) : slice (l.flatMap f ++ rest) (i * k) (i * k + k) = f l[i] := by
  induction l generalizing i with
  | nil => simp at hi
  | cons a l ih =>
    rw [List.flatMap_cons, List.append_assoc]
    cases i with
    | zero => simp [slice, hf]
    | succ i =>
      rw [slice_append_right (hf a) (by rw [Nat.succ_mul]; omega)]
      have hi' : i < l.length := by simpa using hi
      have h := ih i hi'
      rwa [show i * k = (i + 1) * k - k by rw [Nat.succ_mul]; omega,
        show (i + 1) * k - k + k = (i + 1) * k + k - k by rw [Nat.succ_mul]; omega] at h

theorem table_length (hf : ∀ a, (f a).length = k) (l : List α) :
    (l.flatMap f).length = l.length * k := by
  induction l with
  | nil => simp
  | cons a l ih => simp [ih, hf, Nat.succ_mul, Nat.add_comm]

end Mlvpn.Verified.BigEndian
