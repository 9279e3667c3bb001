import Mathlib

/-!
# GF(256) arithmetic of the second parity share

Port of `fec::gf`: the field with reduction polynomial `0x11d` and generator
`2`, computed through an `exp` table of 512 bytes and a `log` table of 256.
The two tables are built by the source's own loops; nothing below looks at
their 768 entries.  Instead the loops are shown to enumerate the orbit of `1`
under multiplication by the generator, `xtime`, and every field law is a fact
about iterating that one linear map.

## Main results

* `mul_eq_iterate` — a table product is an iterate of `xtime`.
* `mul_xor`, `mul_assoc'`, `mul_inv_cancel'` — the laws of the field, carried
  by the `Field` instance on the wrapper `Gf`.
* `pow2_injOn` — the first 255 powers of the generator are distinct.
-/

namespace Mlvpn.Ports.FecGf

/-! ## The tables -/

/-- The `exp` and `log` tables of `gf::build_tables`. -/
structure Tables where
  exp : List UInt8
  log : List UInt8

/-- One step `x <<= 1; if x & 0x100 != 0 { x ^= 0x11d }` of the `u16` cursor. -/
def shiftReduce (x : UInt16) : UInt16 :=
  let x := x <<< 1
  if x &&& 0x100 ≠ 0 then x ^^^ 0x11d else x

/-- The first loop of `build_tables`: `n` rounds from index `i` and cursor `x`. -/
def expLoop : Nat → Nat → UInt16 → Tables → Tables
  | 0, _, _, t => t
  | n + 1, i, x, t =>
      expLoop n (i + 1) (shiftReduce x)
        { exp := t.exp.set i x.toUInt8, log := t.log.set x.toNat (UInt8.ofNat i) }

/-- The second loop: `exp[j] = exp[j - 255]` for `n` rounds from index `j`. -/
def doubleLoop : Nat → Nat → Tables → Tables
  | 0, _, t => t
  | n + 1, j, t =>
      doubleLoop n (j + 1) { t with exp := t.exp.set j (t.exp.getD (j - 255) 0) }

def buildTables : Tables :=
  doubleLoop 257 255
    (expLoop 255 0 1 { exp := List.replicate 512 0, log := List.replicate 256 0 })

/-- The static `TABLES.0`.  Irreducible, like `logAt`: an attempt to unify two
products must not end up running the table loops. -/
@[irreducible] def expAt (i : Nat) : UInt8 := buildTables.exp.getD i 0

/-- The static `TABLES.1`, widened to an index as every use of it is. -/
@[irreducible] def logAt (a : UInt8) : Nat := (buildTables.log.getD a.toNat 0).toNat

/-! ## The operations -/

def mulSlow (a b : UInt8) : UInt8 :=
  if a = 0 ∨ b = 0 then 0 else expAt (logAt a + logAt b)

def mul (a b : UInt8) : UInt8 := mulSlow a b

/-- Row `c` of the lazily built product table, as a function of the column.
Row `0` and column `0` keep the zeros they were allocated with. -/
def mulTable (c x : UInt8) : UInt8 :=
  if c = 0 ∨ x = 0 then 0 else mulSlow c x

/-- `g^i`, with `i` taken modulo 255. -/
def pow2 (i : Nat) : UInt8 := expAt (i % 255)

/-- Multiplicative inverse; the source asserts that `a` is non-zero. -/
def inv (a : UInt8) : UInt8 := expAt (255 - logAt a)

/-- The `zip` loop shared by plain and weighted accumulation: `dst[i] ^= f
src[i]` for as long as both run. -/
def accumWith (f : UInt8 → UInt8) : List UInt8 → List UInt8 → List UInt8
  | d :: ds, s :: ss => (d ^^^ f s) :: accumWith f ds ss
  | ds, _ => ds

/-- `dst[i] ^= src[i]`. -/
def xorInto (dst src : List UInt8) : List UInt8 := accumWith id dst src

/-- `dst[i] ^= coef * src[i]`. -/
def mulAcc (dst src : List UInt8) (coef : UInt8) : List UInt8 :=
  if coef = 0 then dst else accumWith (mulTable coef) dst src

/-- `dst[i] = coef * dst[i]`. -/
def scale (dst : List UInt8) (coef : UInt8) : List UInt8 :=
  dst.map (mulTable coef)

/-! ## Multiplication by the generator -/

/-- Multiplication by the generator `2` on a reduced byte. -/
def xtime (x : UInt8) : UInt8 :=
  if x &&& 0x80 ≠ 0 then (x <<< 1) ^^^ 0x1d else x <<< 1

variable (a : UInt8) (n : Nat) (x y : UInt8) (i j : Nat) (t : Tables) (b c : UInt8)

theorem xtime_eq_xor : xtime x = (x <<< 1) ^^^ (if x &&& 0x80 ≠ 0 then 0x1d else 0) := by
  unfold xtime
  split <;> simp

private theorem topBit_cases : x &&& 0x80 = 0 ∨ x &&& 0x80 = 0x80 := by
  revert x; decide +kernel

private theorem xor_and (m : UInt8) : (x ^^^ y) &&& m = (x &&& m) ^^^ (y &&& m) := by
  apply UInt8.toBitVec_inj.1
  ext i
  simp [Bool.and_xor_distrib_right]

private theorem xor_xor_xor_comm (d : UInt8) :
    (a ^^^ b) ^^^ (c ^^^ d) = (a ^^^ c) ^^^ (b ^^^ d) := by ac_rfl

/-- The generator acts linearly: the reduction fires on the top bit alone, and
top bits add like every other bit. -/
theorem xtime_xor : xtime (x ^^^ y) = xtime x ^^^ xtime y := by
  have hshift : (x ^^^ y) <<< 1 = (x <<< 1) ^^^ (y <<< 1) := UInt8.shiftLeft_xor ..
  rw [xtime_eq_xor, xtime_eq_xor x, xtime_eq_xor y, hshift, xor_and, xor_xor_xor_comm]
  congr 1
  rcases topBit_cases x with hx | hx <;> rcases topBit_cases y with hy | hy <;>
    simp [hx, hy]

@[simp] theorem xtime_zero : xtime 0 = 0 := rfl

theorem iterate_xtime_zero : xtime^[n] 0 = 0 :=
  Function.iterate_fixed xtime_zero n

theorem iterate_xtime_xor : xtime^[n] (x ^^^ y) = xtime^[n] x ^^^ xtime^[n] y := by
  induction n generalizing x y with
  | zero => rfl
  | succ n ih =>
    rw [Function.iterate_succ_apply, xtime_xor, ih, Function.iterate_succ_apply,
      Function.iterate_succ_apply]

/-- The `u16` cursor of the table loop stays a byte and moves by `xtime`. -/
theorem shiftReduce_toUInt16 : shiftReduce x.toUInt16 = (xtime x).toUInt16 := by
  revert x; decide +kernel

/-! ## The orbit of one

`orbit i` is the `i`-th power of the generator.  Its period is 255: the 255th
power is one, and the powers at the three maximal proper divisors are not.
-/

/-- The `i`-th power of the generator. -/
def orbit (i : Nat) : UInt8 := xtime^[i] 1

theorem orbit_succ : orbit (i + 1) = xtime (orbit i) :=
  Function.iterate_succ_apply' xtime i 1

theorem orbit_add : orbit (i + j) = xtime^[i] (orbit j) :=
  Function.iterate_add_apply xtime i j 1

private theorem orbit_periodic : Function.IsPeriodicPt xtime 255 (1 : UInt8) := by
  show xtime^[255] 1 = 1
  decide +kernel

private theorem eq_of_dvd_255 {d : Nat} (hd : d ∣ 255) (h85 : ¬d ∣ 85) (h51 : ¬d ∣ 51)
    (h15 : ¬d ∣ 15) : d = 255 := by
  have hmem : d ∈ Nat.divisors 255 := Nat.mem_divisors.2 ⟨hd, by decide⟩
  have hall : ∀ e ∈ Nat.divisors 255, ¬e ∣ 85 → ¬e ∣ 51 → ¬e ∣ 15 → e = 255 := by
    decide +kernel
  exact hall d hmem h85 h51 h15

theorem minimalPeriod_xtime_one : Function.minimalPeriod xtime (1 : UInt8) = 255 := by
  have hne : ∀ {n}, xtime^[n] 1 ≠ (1 : UInt8) →
      ¬Function.minimalPeriod xtime (1 : UInt8) ∣ n := fun h hdvd =>
    h (Function.isPeriodicPt_iff_minimalPeriod_dvd.2 hdvd)
  exact eq_of_dvd_255 orbit_periodic.minimalPeriod_dvd
    (hne (by decide +kernel)) (hne (by decide +kernel)) (hne (by decide +kernel))

/-- The first 255 powers of the generator are pairwise distinct. -/
theorem orbit_injOn : Set.InjOn orbit (Set.Iio 255) := by
  have h := Function.iterate_injOn_Iio_minimalPeriod (f := xtime) (x := (1 : UInt8))
  rwa [minimalPeriod_xtime_one] at h

theorem orbit_mod : orbit (n % 255) = orbit n := by
  have h := Function.iterate_mod_minimalPeriod_eq (f := xtime) (x := (1 : UInt8)) (n := n)
  rwa [minimalPeriod_xtime_one] at h

theorem orbit_255 : orbit 255 = 1 := orbit_periodic

theorem orbit_ne_zero : orbit i ≠ 0 := by
  intro h
  have hone : orbit ((255 - i % 255) + i % 255) = 0 := by
    rw [orbit_add, orbit_mod, h, iterate_xtime_zero]
  have hlt := Nat.mod_lt i (show 0 < 255 by decide)
  rw [Nat.sub_add_cancel hlt.le, orbit_255] at hone
  exact absurd hone (by decide)

/-- Every non-zero byte is a power of the generator, by counting: the orbit
already has 255 members. -/
theorem exists_orbit {a : UInt8} (ha : a ≠ 0) : ∃ i < 255, orbit i = a := by
  have hcard : ((Finset.range 255).image orbit).card = 255 := by
    rw [Finset.card_image_of_injOn, Finset.card_range]
    simpa [Set.InjOn] using orbit_injOn
  have hsub : (Finset.range 255).image orbit ⊆ Finset.univ.erase (0 : UInt8) := by
    intro x hx
    obtain ⟨i, -, rfl⟩ := Finset.mem_image.1 hx
    simp [orbit_ne_zero]
  have huniv : (Finset.univ.erase (0 : UInt8)).card ≤ 255 := by decide +kernel
  have heq := Finset.eq_of_subset_of_card_le hsub (by rw [hcard]; exact huniv)
  have hmem : a ∈ (Finset.range 255).image orbit := by rw [heq]; simp [ha]
  obtain ⟨i, hi, rfl⟩ := Finset.mem_image.1 hmem
  exact ⟨i, Finset.mem_range.1 hi, rfl⟩

/-! ## What the table loops compute -/

private theorem getD_set (l : List UInt8) (i j : Nat) (x d : UInt8) (hi : i < l.length) :
    (l.set i x).getD j d = if i = j then x else l.getD j d := by
  by_cases h : i = j
  · subst h; simp [List.getD, hi]
  · simp [List.getD, List.getElem?_set_ne h, h]

theorem expLoop_exp (hlen : i + n ≤ t.exp.length) :
    (expLoop n i (orbit i).toUInt16 t).exp.getD j 0 =
      if i ≤ j ∧ j < i + n then orbit j else t.exp.getD j 0 := by
  induction n generalizing i t with
  | zero => rw [expLoop, if_neg (by omega)]
  | succ n ih =>
    rw [expLoop, shiftReduce_toUInt16, ← orbit_succ, ih]
    · simp only [UInt8.toUInt8_toUInt16, getD_set _ _ _ _ _ (show i < t.exp.length by omega)]
      by_cases hij : i = j
      · subst hij
        rw [if_neg (by omega), if_pos rfl, if_pos (by omega)]
      · rw [if_neg hij]
        by_cases h : i + 1 ≤ j ∧ j < i + 1 + n
        · rw [if_pos h, if_pos (by omega)]
        · rw [if_neg h, if_neg (by omega)]
    · simp only [List.length_set]; omega

/-- The log loop records each exponent at its power.  Later rounds write to
other cells, because the orbit does not repeat within the loop. -/
theorem expLoop_log (hin : i + n ≤ 255) (hj : j < 255) (hlen : t.log.length = 256) :
    (expLoop n i (orbit i).toUInt16 t).log.getD (orbit j).toNat 0 =
      if i ≤ j ∧ j < i + n then UInt8.ofNat j else t.log.getD (orbit j).toNat 0 := by
  induction n generalizing i t with
  | zero => rw [expLoop, if_neg (by omega)]
  | succ n ih =>
    have hlt : (orbit i).toUInt16.toNat < t.log.length := by
      rw [UInt8.toNat_toUInt16, hlen]
      exact (orbit i).toNat_lt
    rw [expLoop, shiftReduce_toUInt16, ← orbit_succ, ih _ _ (by omega) (by simpa using hlen)]
    simp only [getD_set _ _ _ _ _ hlt]
    by_cases hij : i = j
    · subst hij
      rw [if_neg (by omega), if_pos (UInt8.toNat_toUInt16 _), if_pos (by omega)]
    · have hne : (orbit i).toUInt16.toNat ≠ (orbit j).toNat := by
        rw [UInt8.toNat_toUInt16]
        intro h
        exact hij (orbit_injOn (show i < 255 by omega) hj (UInt8.toNat_inj.1 h))
      rw [if_neg hne]
      by_cases h : i + 1 ≤ j ∧ j < i + 1 + n
      · rw [if_pos h, if_pos (by omega)]
      · rw [if_neg h, if_neg (by omega)]

theorem expLoop_length (x : UInt16) (t : Tables) : (expLoop n i x t).exp.length = t.exp.length := by
  induction n generalizing i x t with
  | zero => rfl
  | succ n ih => simp [expLoop, ih]

theorem doubleLoop_log : (doubleLoop n j t).log = t.log := by
  induction n generalizing j t with
  | zero => rfl
  | succ n ih => simp [doubleLoop, ih]

theorem doubleLoop_exp (k : Nat) (t : Tables) (hj : 255 ≤ j) (hlen : j + n ≤ t.exp.length)
    (ht : ∀ i < j, t.exp.getD i 0 = orbit i) (hk : k < j + n) :
    (doubleLoop n j t).exp.getD k 0 = orbit k := by
  induction n generalizing j t with
  | zero => exact ht k hk
  | succ n ih =>
    apply ih
    · omega
    · simp only [List.length_set]; omega
    · intro i hi
      rw [getD_set _ _ _ _ _ (by omega)]
      by_cases hji : j = i
      · subst hji
        have hmod : (j - 255) % 255 = j % 255 := by omega
        rw [if_pos rfl, ht _ (by omega), ← orbit_mod (j - 255), hmod, orbit_mod]
      · rw [if_neg hji]
        exact ht i (by omega)
    · omega

/-- The finished `exp` table holds the powers of the generator, over its whole
doubled range. -/
theorem expAt_eq_orbit {i : Nat} (hi : i < 512) : expAt i = orbit i := by
  unfold expAt
  apply doubleLoop_exp 257 255 i _ (le_refl _)
    (by rw [expLoop_length, List.length_replicate]) _ hi
  intro k hk
  have h := expLoop_exp 255 0 k
    { exp := List.replicate 512 0, log := List.replicate 256 0 }
    (by simp only [List.length_replicate]; omega)
  rw [if_pos (by omega)] at h
  exact h

/-- The finished `log` table inverts the orbit. -/
theorem logAt_orbit {i : Nat} (hi : i < 255) : logAt (orbit i) = i := by
  have h := expLoop_log 255 0 i
    { exp := List.replicate 512 0, log := List.replicate 256 0 } (by omega) hi
    List.length_replicate
  rw [if_pos (by omega)] at h
  have hlog : buildTables.log.getD (orbit i).toNat 0 = UInt8.ofNat i := by
    rw [buildTables, doubleLoop_log]
    exact h
  unfold logAt
  rw [hlog, UInt8.toNat_ofNat_of_lt' (by show i < 256; omega)]

theorem orbit_logAt {a : UInt8} (ha : a ≠ 0) : orbit (logAt a) = a := by
  obtain ⟨i, hi, rfl⟩ := exists_orbit ha
  rw [logAt_orbit hi]

theorem logAt_lt {a : UInt8} (ha : a ≠ 0) : logAt a < 255 := by
  obtain ⟨i, hi, rfl⟩ := exists_orbit ha
  rwa [logAt_orbit hi]

/-! ## The field laws -/

@[simp] theorem mulTable_eq_mul (x : UInt8) : mulTable c x = mul c x := by
  unfold mulTable mul
  split
  · rename_i h
    rw [mulSlow, if_pos h]
  · rfl

@[simp] theorem zero_mul' : mul 0 b = 0 := by simp [mul, mulSlow]

@[simp] theorem mul_zero' : mul a 0 = 0 := by simp [mul, mulSlow]

theorem mul_comm' : mul a b = mul b a := by
  simp only [mul, mulSlow, or_comm, Nat.add_comm]

/-- Multiplying by a non-zero byte is iterating the generator: the two table
lookups add exponents. -/
theorem mul_eq_iterate {a : UInt8} (ha : a ≠ 0) (b : UInt8) : mul a b = xtime^[logAt a] b := by
  by_cases hb : b = 0
  · rw [hb, mul_zero', iterate_xtime_zero]
  · have hla := logAt_lt ha
    have hlb := logAt_lt hb
    rw [mul, mulSlow, if_neg (by simp [ha, hb]), expAt_eq_orbit (by omega), orbit_add,
      orbit_logAt hb]

theorem mul_orbit : mul (orbit i) b = xtime^[i] b := by
  by_cases hb : b = 0
  · rw [hb, mul_zero', iterate_xtime_zero]
  · have hlog : logAt (orbit i) = i % 255 := by
      rw [← orbit_mod, logAt_orbit (Nat.mod_lt _ (by decide))]
    rw [mul_eq_iterate (orbit_ne_zero i), hlog, ← orbit_logAt hb, ← orbit_add, ← orbit_add,
      ← orbit_mod, ← orbit_mod (i + _), Nat.mod_add_mod]

theorem mul_xor : mul a (b ^^^ c) = mul a b ^^^ mul a c := by
  by_cases ha : a = 0
  · simp [ha]
  · rw [mul_eq_iterate ha, mul_eq_iterate ha, mul_eq_iterate ha, iterate_xtime_xor]

theorem mul_assoc' : mul (mul a b) c = mul a (mul b c) := by
  by_cases ha : a = 0
  · simp [ha]
  by_cases hb : b = 0
  · simp [hb]
  obtain ⟨i, -, rfl⟩ := exists_orbit ha
  obtain ⟨j, -, rfl⟩ := exists_orbit hb
  rw [mul_orbit i (orbit j), ← orbit_add, mul_orbit, mul_orbit i, mul_orbit,
    Function.iterate_add_apply]

theorem one_mul' : mul 1 b = b := mul_orbit 0 b

theorem mul_inv_cancel' {a : UInt8} (ha : a ≠ 0) : mul a (inv a) = 1 := by
  have hla := logAt_lt ha
  rw [mul_eq_iterate ha, inv, expAt_eq_orbit (by omega), ← orbit_add,
    Nat.add_sub_cancel' hla.le, orbit_255]

theorem pow2_eq_orbit : pow2 i = orbit i := by
  have hlt := Nat.mod_lt i (show 0 < 255 by decide)
  rw [pow2, expAt_eq_orbit (by omega), orbit_mod]

theorem pow2_ne_zero : pow2 i ≠ 0 := by
  rw [pow2_eq_orbit]; exact orbit_ne_zero i

/-- Two members of a group of at most 255 never share a weight. -/
theorem pow2_injOn : Set.InjOn pow2 (Set.Iio 255) := by
  intro i hi j hj h
  rw [pow2_eq_orbit, pow2_eq_orbit] at h
  exact orbit_injOn hi hj h

/-! ## The field, and byte strings as symbol streams -/

/-- A byte read as an element of GF(256). -/
@[ext] structure Gf where
  val : UInt8
deriving DecidableEq

namespace Gf

instance : Zero Gf := ⟨⟨0⟩⟩
instance : One Gf := ⟨⟨1⟩⟩
instance : Add Gf := ⟨fun a b => ⟨a.val ^^^ b.val⟩⟩
instance : Neg Gf := ⟨id⟩
instance : Mul Gf := ⟨fun a b => ⟨mul a.val b.val⟩⟩
instance : Inv Gf := ⟨fun a => ⟨if a.val = 0 then 0 else inv a.val⟩⟩

variable (a b : Gf)

theorem add_def : a + b = ⟨a.val ^^^ b.val⟩ := rfl
theorem mul_def : a * b = ⟨mul a.val b.val⟩ := rfl

theorem left_distrib' (c : Gf) : a * (b + c) = a * b + a * c :=
  Gf.ext (mul_xor a.val b.val c.val)

theorem mul_comm'' : a * b = b * a := Gf.ext (mul_comm' a.val b.val)

instance : CommRing Gf where
  add_assoc a b c := Gf.ext (UInt8.xor_assoc a.val b.val c.val)
  zero_add a := Gf.ext UInt8.zero_xor
  add_zero a := Gf.ext UInt8.xor_zero
  add_comm a b := Gf.ext (UInt8.xor_comm a.val b.val)
  neg_add_cancel a := Gf.ext UInt8.xor_self
  nsmul := nsmulRec
  zsmul := zsmulRec
  left_distrib := left_distrib'
  right_distrib a b c := by
    rw [mul_comm'', left_distrib', mul_comm'' c a, mul_comm'' c b]
  zero_mul a := Gf.ext (zero_mul' a.val)
  mul_zero a := Gf.ext (mul_zero' a.val)
  mul_assoc a b c := Gf.ext (mul_assoc' a.val b.val c.val)
  one_mul a := Gf.ext (one_mul' a.val)
  mul_one a := by
    rw [mul_comm'']
    exact Gf.ext (one_mul' a.val)
  mul_comm := mul_comm''

theorem val_ne_zero {a : Gf} (h : a ≠ 0) : a.val ≠ 0 := fun hv => h (Gf.ext hv)

theorem inv_def {a : Gf} (h : a ≠ 0) : a⁻¹ = ⟨inv a.val⟩ :=
  Gf.ext (if_neg (val_ne_zero h))

instance : Field Gf where
  exists_pair_ne := ⟨0, 1, fun h => absurd (congrArg Gf.val h) (by decide)⟩
  mul_inv_cancel a ha := by
    rw [inv_def ha]
    exact Gf.ext (mul_inv_cancel' (val_ne_zero ha))
  inv_zero := rfl
  nnqsmul := _
  nnqsmul_def _ _ := rfl
  qsmul := _
  qsmul_def _ _ := rfl

/-- In characteristic two adding a contribution removes it. -/
theorem sub_eq_add' : a - b = a + b := sub_eq_add_neg a b

end Gf

/-- The weight of group position `i` in the second share. -/
def weight (i : Nat) : Gf := ⟨pow2 i⟩

theorem weight_ne_zero (i : Nat) : weight i ≠ 0 :=
  fun h => pow2_ne_zero i (congrArg Gf.val h)

theorem weight_ne {i j : Nat} (hi : i < 255) (hj : j < 255) (hij : i ≠ j) : weight i ≠ weight j :=
  fun h => hij (pow2_injOn hi hj (congrArg Gf.val h))

/-- Byte `j` of `bytes` as a field symbol, zero past the end: the padding the
shares implicitly give a short member. -/
def sym (bytes : List UInt8) (j : Nat) : Gf := ⟨bytes.getD j 0⟩

/-- Two byte strings of one length are equal when their symbols are. -/
theorem eq_of_sym_eq {xs ys : List UInt8} (hlen : xs.length = ys.length)
    (h : ∀ j < xs.length, sym xs j = sym ys j) : xs = ys := by
  apply List.ext_getElem hlen
  intro j hx hy
  have hj := congrArg Gf.val (h j hx)
  simpa [sym, List.getD, hx, hy] using hj

theorem sym_take {bytes : List UInt8} {n j : Nat} (hj : j < n) :
    sym (bytes.take n) j = sym bytes j := by
  simp [sym, List.getD, hj]

variable (f : UInt8 → UInt8) (dst src : List UInt8) (coef : UInt8)

@[simp] theorem accumWith_length : (accumWith f dst src).length = dst.length := by
  induction dst generalizing src with
  | nil => rfl
  | cons d ds ih =>
      cases src with
      | nil => rfl
      | cons s ss => simp [accumWith, ih]

theorem accumWith_getD (hf : f 0 = 0) (dst src : List UInt8) (hlen : src.length ≤ dst.length)
    (j : Nat) : (accumWith f dst src).getD j 0 = dst.getD j 0 ^^^ f (src.getD j 0) := by
  induction dst generalizing src j with
  | nil =>
    have hnil : src = [] := List.eq_nil_of_length_eq_zero (Nat.le_zero.1 hlen)
    simp [accumWith, hnil, hf]
  | cons d ds ih =>
    cases src with
    | nil => simp [accumWith, hf]
    | cons s ss =>
      cases j with
      | zero => simp [accumWith]
      | succ j =>
        simpa [accumWith] using ih ss (by simpa using hlen) j

@[simp] theorem xorInto_length : (xorInto dst src).length = dst.length :=
  accumWith_length id dst src

theorem sym_xorInto {dst src : List UInt8} (hlen : src.length ≤ dst.length) (j : Nat) :
    sym (xorInto dst src) j = sym dst j + sym src j :=
  Gf.ext (accumWith_getD id rfl dst src hlen j)

@[simp] theorem mulAcc_length : (mulAcc dst src coef).length = dst.length := by
  unfold mulAcc
  split <;> simp

theorem sym_mulAcc {dst src : List UInt8} (hlen : src.length ≤ dst.length) (coef : UInt8)
    (j : Nat) : sym (mulAcc dst src coef) j = sym dst j + ⟨coef⟩ * sym src j := by
  apply Gf.ext
  unfold mulAcc
  split
  · rename_i h
    simp [sym, h, Gf.add_def, Gf.mul_def]
  · have h := accumWith_getD (mulTable coef) (by simp) dst src hlen j
    simpa [sym, Gf.add_def, Gf.mul_def] using h

@[simp] theorem scale_length : (scale dst coef).length = dst.length := List.length_map _

theorem sym_scale (j : Nat) : sym (scale dst coef) j = ⟨coef⟩ * sym dst j := by
  apply Gf.ext
  simp only [sym, scale, Gf.mul_def, List.getD, List.getElem?_map]
  cases dst[j]? <;> simp

end Mlvpn.Ports.FecGf
