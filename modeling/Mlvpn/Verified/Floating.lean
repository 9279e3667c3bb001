import Mathlib.Data.Rat.Floor
import Mathlib.Data.Rat.Sqrt

/-!
# Floating-point code without floating-point laws

A program over `f64` is written once over any type with the operations such code
uses: literals, rounding arithmetic, comparisons that may all be false, a total
order, and saturating casts.  No law relates them, so what is proved over the
class holds of IEEE doubles, of NaN and of infinities; `ℚ` is the instance in
which every operation but the square root is exact, and in which a program can
be evaluated.
-/

namespace Mlvpn.Verified

/-- The operations of `f64` that programs use. -/
class Floating (F : Type*) extends Add F, Sub F, Mul F, Div F, Min F, Max F, LT F, LE F where
  /-- A literal, or an integer cast with `as f64`: the nearest value. -/
  ofRat : ℚ → F
  /-- `f64::MAX`. -/
  maxValue : F
  sqrt : F → F
  round : F → F
  totalCmp : F → F → Ordering
  /-- `as u32`, `as u64` and `as i64` saturate. -/
  toU32 : F → UInt32
  toU64 : F → UInt64
  toI64 : F → Int
  display : F → String
  decLt : DecidableLT F
  decLe : DecidableLE F

namespace Floating

variable {F : Type*} [Floating F]

instance instDecidableLTFloating : DecidableLT F := decLt

instance instDecidableLEFloating : DecidableLE F := decLe

/-- `x.clamp(lo, hi)`: a NaN passes through. -/
def clamp (x lo hi : F) : F :=
  let x := if x < lo then lo else x
  if hi < x then hi else x

/-- `iter().sum()`. -/
def sum (xs : List F) : F := xs.foldl (· + ·) (ofRat 0)

end Floating

/-! ## The exact instance -/

/-- Truncation toward zero. -/
def truncRat (x : ℚ) : Int := if 0 ≤ x then ⌊x⌋ else ⌈x⌉

/-- `f64::round`: halves away from zero. -/
def roundRat (x : ℚ) : ℚ := if 0 ≤ x then ⌊x + 1 / 2⌋ else ⌈x - 1 / 2⌉

instance floatingRat : Floating ℚ where
  ofRat := id
  maxValue := 2 ^ 1024 - 2 ^ 971
  sqrt := Rat.sqrt
  round := roundRat
  totalCmp := compare
  toU32 x := UInt32.ofNat (min (truncRat x).toNat (2 ^ 32 - 1))
  toU64 x := UInt64.ofNat (min (truncRat x).toNat (2 ^ 64 - 1))
  toI64 x := max (-2 ^ 63) (min (2 ^ 63 - 1) (truncRat x))
  display := toString
  decLt := inferInstance
  decLe := inferInstance

end Mlvpn.Verified
