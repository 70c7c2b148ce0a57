/-!
Doubles as exact whole numbers. Every finite double is a multiple of `2 ^ -1074`, so its magnitude
is a natural number of such units. Results are rounded to the nearest double, a half to the even
neighbour.
-/

set_option autoImplicit false
set_option relaxedAutoImplicit false

namespace ValueSchema

/-- A double: its sign and the 63 bits below the sign, which grow with the magnitude. -/
structure Double where
  negative : Bool
  bits : Nat
  bits_lt : bits < 1 <<< 63
  deriving DecidableEq

namespace Double

/-- The bits of an infinite magnitude. All larger bits say "not a number". -/
def infinityBits : Nat := 2047 <<< 52

/-- The number of units in one. -/
def unitsPerOne : Nat := 1 <<< 1074

/-- The magnitude that given bits stand for, counted in units of `2 ^ -1074`. -/
def unitsOf (bits : Nat) : Nat :=
  if bits < 1 <<< 52 then bits else (1 <<< 52 + bits % 1 <<< 52) <<< (bits >>> 52 - 1)

/-- The whole number nearest to a quotient, a half going to the even neighbour. -/
def roundHalfEven (num den : Nat) : Nat :=
  let whole := num / den
  let twice := 2 * (num % den)
  if twice < den then whole
  else if den < twice then whole + 1
  else whole + whole % 2

/-- The bits of the double nearest to `num / den` units.

Magnitudes below `2 ^ 53` units are written out; above, the last 52 places are kept, and dropping
`excess` places adds `excess` to the exponent field. A carry out of the kept places runs into the
exponent field, which is the next double. -/
def nearestBits (num den : Nat) : Nat :=
  let excess := (num / den).log2 - 52
  min infinityBits (excess <<< 52 + roundHalfEven num (den <<< excess))

private theorem nearestBits_lt (num den : Nat) : nearestBits num den < 1 <<< 63 :=
  Nat.lt_of_le_of_lt (Nat.min_le_left _ _) (by decide)

def ofRatio (negative : Bool) (num den : Nat) : Double :=
  ⟨negative, nearestBits (num * unitsPerOne) den, nearestBits_lt _ _⟩

def ofNat (n : Nat) : Double := ofRatio false n 1

def ofInt (i : Int) : Double := ofRatio (i < 0) i.natAbs 1

instance (n : Nat) : OfNat Double n := ⟨ofNat n⟩

instance : Inhabited Double := ⟨0⟩

def infinity (negative : Bool) : Double := ⟨negative, infinityBits, by decide⟩

/-- The result of undefined arithmetic. It is neither above, below nor the same as any double. -/
def nan : Double := ⟨false, infinityBits + 1 <<< 51, by decide⟩

def isNaN (x : Double) : Bool := infinityBits < x.bits

def isFinite (x : Double) : Bool := x.bits < infinityBits

def isInfinite (x : Double) : Bool := x.bits == infinityBits

def isZero (x : Double) : Bool := x.bits == 0

def units (x : Double) : Nat := unitsOf x.bits

/-- The value in units; an infinity counts as the next step after the largest finite double. -/
def signedUnits (x : Double) : Int := if x.negative then -(x.units : Int) else x.units

/-- Strictly below, by value. Zero has no sign here and nothing is below or above `nan`. -/
def below (x y : Double) : Bool :=
  !x.isNaN && !y.isNaN && x.signedUnits < y.signedUnits

/-- Equal by value: the two zeros are the same, and `nan` is not even the same as itself. -/
def same (x y : Double) : Bool :=
  !x.isNaN && !y.isNaN && x.signedUnits == y.signedUnits

def toInt? (x : Double) : Option Int :=
  if x.isFinite && x.units % unitsPerOne == 0 then
    some (if x.negative then -((x.units / unitsPerOne : Nat) : Int)
      else ((x.units / unitsPerOne : Nat) : Int))
  else none

/-- Halves of even doubles are whole. -/
def isEven (x : Double) : Bool := x.isFinite && x.units % (2 * unitsPerOne) == 0

private theorem roundHalfEven_mul (n den : Nat) (h : 0 < den) : roundHalfEven
    (n * den) den = n := by
  simp [roundHalfEven, Nat.mul_div_cancel _ h, h]

/-- Rounding the units of a finite double gives its bits back. -/
theorem nearestBits_unitsOf {bits : Nat} (h : bits < infinityBits) :
    nearestBits (unitsOf bits) 1 = bits := by
  by_cases small : bits < 1 <<< 52
  · have excess : bits.log2 - 52 = 0 := by
      by_cases zero : bits = 0
      · subst zero; decide
      · have : bits.log2 < 52 := (Nat.log2_lt zero).2 small
        omega
    have round := roundHalfEven_mul bits 1 (by decide)
    simp only [Nat.mul_one] at round
    have value : unitsOf bits = bits := if_pos small
    simp only [nearestBits, value, Nat.div_one, excess, Nat.zero_shiftLeft, Nat.shiftLeft_zero,
      Nat.zero_add, round]
    exact Nat.min_eq_right (Nat.le_of_lt h)
  · have low : bits % 2 ^ 52 < 2 ^ 52 := Nat.mod_lt _ (by decide)
    have exponent : 1 ≤ bits / 2 ^ 52 := (Nat.le_div_iff_mul_le (by decide)).2 (by omega)
    have split : bits / 2 ^ 52 * 2 ^ 52 + bits % 2 ^ 52 = bits := by
      have := Nat.div_add_mod bits (2 ^ 52)
      omega
    generalize bits / 2 ^ 52 = e at exponent split
    generalize bits % 2 ^ 52 = f at low split
    obtain ⟨k, rfl⟩ : ∃ k, e = k + 1 := ⟨e - 1, by omega⟩
    have value : unitsOf bits = (2 ^ 52 + f) * 2 ^ k := by
      have div : bits / 2 ^ 52 = k + 1 := by omega
      have mod : bits % 2 ^ 52 = f := by omega
      rw [unitsOf, if_neg small]
      simp only [Nat.shiftLeft_eq, Nat.shiftRight_eq_div_pow, Nat.one_mul, div, mod,
        Nat.add_sub_cancel]
    have place : ((2 ^ 52 + f) * 2 ^ k).log2 = 52 + k := by
      have least := Nat.mul_le_mul_right (2 ^ k) (show 2 ^ 52 ≤ 2 ^ 52 + f by omega)
      have most := Nat.mul_lt_mul_of_pos_right (show 2 ^ 52 + f < 2 ^ 53 by omega)
        (Nat.two_pow_pos k)
      have nonzero : (2 ^ 52 + f) * 2 ^ k ≠ 0 := Nat.mul_ne_zero (by omega)
        (Nat.pos_iff_ne_zero.1 (Nat.two_pow_pos k))
      rw [← Nat.pow_add] at least most
      exact (Nat.log2_eq_iff nonzero).2 ⟨least, by rwa [show 52 + k + 1 = 53 + k by omega]⟩
    have round := roundHalfEven_mul (2 ^ 52 + f) (2 ^ k) (Nat.two_pow_pos k)
    simp only [nearestBits, value, Nat.div_one, place, Nat.add_sub_cancel_left, Nat.shiftLeft_eq,
      Nat.one_mul, round]
    rw [Nat.succ_mul, Nat.add_assoc] at split
    rw [split]
    exact Nat.min_eq_right (Nat.le_of_lt h)

/-- The double nearest to the product of two finite doubles. -/
def mul (x y : Double) : Double :=
  ⟨x.negative != y.negative, nearestBits (x.units * y.units) unitsPerOne, nearestBits_lt _ _⟩

/-- The double nearest to the quotient of two finite doubles, of which the second is not zero. -/
def div (x y : Double) : Double :=
  ⟨x.negative != y.negative, nearestBits (x.units * unitsPerOne) y.units, nearestBits_lt _ _⟩

end Double

end ValueSchema
