import Mlvpn.Ports.FecGf
import Mlvpn.Verified.Trap

/-!
# GF(256) arithmetic with its checks

`fec::gf` once more, with every table access, index subtraction and assertion of the source
as a check that may trap.  Each function is shown to pass its checks and to compute what its
port in `FecGf` computes.  Two of them have a precondition, the one the source asserts:
`inv` of a non-zero byte, and `mul_acc` into a destination that is long enough.

## Main results

* `exists_mulRow`: the lazily built product table is filled inside its bounds, and a row of it
  holds the products of its coefficient.
* `pow2_eq`, `inv_eq`, `mulAcc_eq`, `scale_eq`: no check fails.
-/

namespace Mlvpn.Ports.FecGfTraps

open Verified.CheckedSlice Verified.Trap
open FecGf (Tables buildTables expAt logAt expLoop doubleLoop)

/-! ## The functions -/

def mulSlow (a b : UInt8) : Trapping UInt8 :=
  if a = 0 ∨ b = 0 then pure 0
  else do
    let i ← access (index buildTables.log a.toNat)
    let j ← access (index buildTables.log b.toNat)
    access (index buildTables.exp (i.toNat + j.toNat))

/-- The pairs of the loops `for c in 1..256 { for x in 1..256 { .. } }`. -/
def cells : List (Nat × Nat) := (List.range' 1 255).product (List.range' 1 255)

/-- `mul_table`, as it is built on first use. -/
def mulTable : Trapping (List UInt8) :=
  cells.foldlM
    (fun t p => mulSlow (UInt8.ofNat p.1) (UInt8.ofNat p.2) >>= fun v =>
      access (assign t (p.1 * 256 + p.2) v))
    (List.replicate (256 * 256) 0)

/-- `&mul_table()[coef as usize * 256..coef as usize * 256 + 256]`. -/
def mulRow (coef : UInt8) : Trapping (List UInt8) := do
  let t ← mulTable
  access (subslice t (coef.toNat * 256) (coef.toNat * 256 + 256))

def pow2 (i : Nat) : Trapping UInt8 := access (index buildTables.exp (i % 255))

def inv (a : UInt8) : Trapping UInt8 := do
  require (a ≠ 0)
  let l ← access (index buildTables.log a.toNat)
  let i ← subUsize 255 l.toNat
  access (index buildTables.exp i)

/-- The `zip` loop of `mul_acc`. -/
def accumRow (row : List UInt8) : List UInt8 → List UInt8 → Trapping (List UInt8)
  | d :: ds, s :: ss => do
      let v ← access (index row s.toNat)
      let rest ← accumRow row ds ss
      pure ((d ^^^ v) :: rest)
  | ds, _ => pure ds

def mulAcc (dst src : List UInt8) (coef : UInt8) : Trapping (List UInt8) := do
  require (src.length ≤ dst.length)
  if coef = 0 then pure dst
  else
    let row ← mulRow coef
    accumRow row dst src

def scale (dst : List UInt8) (coef : UInt8) : Trapping (List UInt8) := do
  let row ← mulRow coef
  dst.mapM fun d => access (index row d.toNat)

/-! ## The static tables -/

theorem expLoop_log_length (n i : Nat) (x : UInt16) (t : Tables) :
    (expLoop n i x t).log.length = t.log.length := by
  induction n generalizing i x t with
  | zero => rfl
  | succ n ih => rw [expLoop, ih, List.length_set]

theorem doubleLoop_length (n j : Nat) (t : Tables) :
    (doubleLoop n j t).exp.length = t.exp.length := by
  induction n generalizing j t with
  | zero => rfl
  | succ n ih => rw [doubleLoop, ih, List.length_set]

theorem exp_length : buildTables.exp.length = 512 := by
  rw [buildTables, doubleLoop_length, FecGf.expLoop_length, List.length_replicate]

theorem log_length : buildTables.log.length = 256 := by
  rw [buildTables, FecGf.doubleLoop_log, expLoop_log_length, List.length_replicate]

theorem exp_index {i : Nat} (hi : i < 512) : access (index buildTables.exp i) = .ok (expAt i) := by
  unfold expAt
  exact access_index_getD (by rwa [exp_length]) 0

theorem log_index (a : UInt8) :
    ∃ l : UInt8, access (index buildTables.log a.toNat) = .ok l ∧ l.toNat = logAt a := by
  have hlt : a.toNat < buildTables.log.length := by
    rw [log_length]
    exact a.toNat_lt
  refine ⟨buildTables.log.getD a.toNat 0, access_index_getD hlt 0, ?_⟩
  unfold logAt
  rfl

theorem mulSlow_eq (a b : UInt8) : mulSlow a b = .ok (FecGf.mulSlow a b) := by
  unfold mulSlow FecGf.mulSlow
  split
  case isTrue => rfl
  case isFalse h =>
    obtain ⟨i, hi, hilog⟩ := log_index a
    obtain ⟨j, hj, hjlog⟩ := log_index b
    have ha := FecGf.logAt_lt (fun h0 => h (Or.inl h0))
    have hb := FecGf.logAt_lt (fun h0 => h (Or.inr h0))
    rw [hi, ok_bind, hj, ok_bind, hilog, hjlog, exp_index (by omega)]

theorem pow2_eq (i : Nat) : pow2 i = .ok (FecGf.pow2 i) :=
  exp_index ((Nat.mod_lt i (by decide)).trans (by decide))

theorem inv_eq {a : UInt8} (h : a ≠ 0) : inv a = .ok (FecGf.inv a) := by
  obtain ⟨l, hl, hlog⟩ := log_index a
  have hlt := FecGf.logAt_lt h
  rw [inv, require_of h, ok_bind, hl, ok_bind, hlog, subUsize_of_le (by omega), ok_bind,
    exp_index (by omega)]
  rfl

/-! ## The product table -/

theorem mem_cells {p : Nat × Nat} : p ∈ cells ↔ (1 ≤ p.1 ∧ p.1 < 256) ∧ 1 ≤ p.2 ∧ p.2 < 256 := by
  obtain ⟨c, x⟩ := p
  rw [cells, List.pair_mem_product, List.mem_range'_1, List.mem_range'_1]

/-- The table is filled inside its bounds, with the products. -/
theorem exists_mulTable :
    ∃ t, mulTable = .ok t ∧ t.length = 65536 ∧
      ∀ c x : UInt8, t[c.toNat * 256 + x.toNat]? = some (FecGf.mulTable c x) := by
  have hbound : ∀ p ∈ cells, p.1 * 256 + p.2 < (List.replicate (256 * 256) (0 : UInt8)).length := by
    intro p hp
    have hp := mem_cells.mp hp
    rw [List.length_replicate]
    omega
  have hvalue : ∀ p ∈ cells, mulSlow (UInt8.ofNat p.1) (UInt8.ofNat p.2) =
      .ok (FecGf.mulSlow (UInt8.ofNat ((p.1 * 256 + p.2) / 256))
        (UInt8.ofNat ((p.1 * 256 + p.2) % 256))) := by
    intro p hp
    have hp := mem_cells.mp hp
    rw [show (p.1 * 256 + p.2) / 256 = p.1 by omega, show (p.1 * 256 + p.2) % 256 = p.2 by omega]
    exact mulSlow_eq _ _
  obtain ⟨t, ht, hlen, hget⟩ := foldlM_assign
    (f := fun k => FecGf.mulSlow (UInt8.ofNat (k / 256)) (UInt8.ofNat (k % 256))) hbound hvalue
  refine ⟨t, ht, by rw [hlen, List.length_replicate], fun c x => ?_⟩
  have hc := c.toNat_lt
  have hx := x.toNat_lt
  rw [hget, FecGf.mulTable]
  by_cases hzero : c = 0 ∨ x = 0
  · have hnot : c.toNat * 256 + x.toNat ∉ cells.map fun p => p.1 * 256 + p.2 := by
      intro hmem
      obtain ⟨p, hp, heq⟩ := List.mem_map.mp hmem
      have hp := mem_cells.mp hp
      rcases hzero with rfl | rfl
      · simp only [UInt8.toNat_zero] at heq
        omega
      · simp only [UInt8.toNat_zero] at heq
        omega
    rw [if_neg hnot, if_pos hzero, List.getElem?_replicate, if_pos (by omega)]
  · have hcpos : c.toNat ≠ 0 := fun h => hzero (Or.inl (UInt8.toNat_inj.mp h))
    have hxpos : x.toNat ≠ 0 := fun h => hzero (Or.inr (UInt8.toNat_inj.mp h))
    have hmem : c.toNat * 256 + x.toNat ∈ cells.map fun p => p.1 * 256 + p.2 :=
      List.mem_map.mpr ⟨(c.toNat, x.toNat), mem_cells.mpr ⟨by omega, by omega⟩, rfl⟩
    rw [if_pos hmem, if_neg hzero, show (c.toNat * 256 + x.toNat) / 256 = c.toNat by omega,
      show (c.toNat * 256 + x.toNat) % 256 = x.toNat by omega, UInt8.ofNat_toNat,
      UInt8.ofNat_toNat]

/-- A row of the table, and what it holds. -/
theorem exists_mulRow (coef : UInt8) :
    ∃ row, mulRow coef = .ok row ∧
      ∀ x : UInt8, access (index row x.toNat) = .ok (FecGf.mulTable coef x) := by
  obtain ⟨t, ht, hlen, hget⟩ := exists_mulTable
  have hcoef := coef.toNat_lt
  refine ⟨(t.drop (coef.toNat * 256)).take 256, ?_, fun x => ?_⟩
  · rw [mulRow, ht, ok_bind, subslice_of_le (Nat.le_add_right _ _) (by omega),
      Nat.add_sub_cancel_left]
    exact access_ok _
  · apply access_index
    have hx := x.toNat_lt
    rw [List.getElem?_take_of_lt (by omega), List.getElem?_drop, hget]

theorem accumRow_eq {row : List UInt8} {f : UInt8 → UInt8}
    (h : ∀ x : UInt8, access (index row x.toNat) = .ok (f x)) (dst src : List UInt8) :
    accumRow row dst src = .ok (FecGf.accumWith f dst src) := by
  induction dst generalizing src with
  | nil => cases src <;> rfl
  | cons d ds ih =>
    cases src with
    | nil => rfl
    | cons s ss =>
      rw [accumRow, h s, ok_bind, ih ss, ok_bind]
      rfl

theorem mulAcc_eq {dst src : List UInt8} (coef : UInt8) (h : src.length ≤ dst.length) :
    mulAcc dst src coef = .ok (FecGf.mulAcc dst src coef) := by
  rw [mulAcc, require_of h, ok_bind, FecGf.mulAcc]
  split
  case isTrue => rfl
  case isFalse =>
    obtain ⟨row, hrow, hget⟩ := exists_mulRow coef
    rw [hrow, ok_bind, accumRow_eq hget]

theorem scale_eq (dst : List UInt8) (coef : UInt8) :
    scale dst coef = .ok (FecGf.scale dst coef) := by
  obtain ⟨row, hrow, hget⟩ := exists_mulRow coef
  rw [scale, hrow, ok_bind]
  exact mapM_eq_ok fun x _ => hget x

end Mlvpn.Ports.FecGfTraps
