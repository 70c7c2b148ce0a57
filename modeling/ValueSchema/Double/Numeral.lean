import ValueSchema.Double.Basic

/-!
Decimal numerals and the doubles nearest to them.
-/

set_option autoImplicit false
set_option relaxedAutoImplicit false

namespace ValueSchema

def digitsValue (digits : List Char) : Nat :=
  digits.foldl (fun value c => 10 * value + (c.toNat - '0'.toNat)) 0

/-- An optional sign in front: `some true` for minus, `some false` for plus. -/
def splitSign : List Char → Option Bool × List Char
  | '-' :: rest => (some true, rest)
  | '+' :: rest => (some false, rest)
  | rest => (none, rest)

structure Numeral where
  sign : Option Bool
  whole : List Char
  /-- The digits after the decimal point, if there is a point. -/
  fraction : Option (List Char)
  exponent : Option Int

namespace Numeral

/-- An exponent mark, an optional sign and at least one digit; or nothing at all. -/
def scanExponent? : List Char → Option (Option Int)
  | [] => some none
  | mark :: rest =>
    let (sign, digits) := splitSign rest
    if (mark == 'e' || mark == 'E') && !digits.isEmpty && digits.all Char.isDigit then
      let size : Int := digitsValue digits
      some (some (if sign == some true then -size else size))
    else none

/-- Reads a numeral that takes up the whole text, with a digit on at least one side of the point. -/
def scan? (text : List Char) : Option Numeral :=
  let (sign, rest) := splitSign text
  let whole := rest.takeWhile Char.isDigit
  let (fraction, tail) := match rest.dropWhile Char.isDigit with
    | '.' :: rest => (some (rest.takeWhile Char.isDigit), rest.dropWhile Char.isDigit)
    | rest => (none, rest)
  if whole.isEmpty && (fraction.getD []).isEmpty then none
  else (scanExponent? tail).map fun exponent => ⟨sign, whole, fraction, exponent⟩

/-- All digits and the power of ten that the last one stands for. -/
def toDecimal (n : Numeral) : Nat × Int :=
  let fraction := n.fraction.getD []
  (digitsValue (n.whole ++ fraction), n.exponent.getD 0 - fraction.length)

/-- The nearest double. Exponents far outside the range of doubles decide without any power of
ten: the largest double is below `10 ^ 310`, and half the least one is above `10 ^ -330`. -/
def toDouble (n : Numeral) : Double :=
  let negative := n.sign == some true
  let (digits, power) := n.toDecimal
  let size := power + (Nat.toDigits 10 digits).length
  if digits = 0 || size < -330 then .ofRatio negative 0 1
  else if 310 < size then .infinity negative
  else .ofRatio negative (digits * Nat.pow 10 power.toNat) (Nat.pow 10 (-power).toNat)

end Numeral

namespace Double

def lowerCase (text : List Char) : List Char := text.map Char.toLower

/-- Reads a numeral, or `inf`, `infinity` or `nan` in any case, with an optional sign. -/
def ofText? (text : String) : Option Double :=
  let (sign, rest) := splitSign text.toList
  let name := lowerCase rest
  if name == ['i', 'n', 'f'] || name == ['i', 'n', 'f', 'i', 'n', 'i', 't', 'y'] then
    some (.infinity (sign == some true))
  else if name == ['n', 'a', 'n'] then some .nan
  else (Numeral.scan? text.toList).map Numeral.toDouble

end Double

end ValueSchema
