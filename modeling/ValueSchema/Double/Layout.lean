import ValueSchema.Double.Basic

/-!
The fewest decimal digits that read back as a double, and doubles as text. Grids of powers of ten
are tried from coarse to fine. On each only the two neighbours of the value can be nearest, so the
first grid on which one of them reads back has the fewest digits.
-/

set_option autoImplicit false
set_option relaxedAutoImplicit false

namespace ValueSchema

namespace Double

/-- Which of two decimals at the same distance from a value is taken. -/
inductive Tie where
  | up
  | even
  deriving DecidableEq

structure Decimal where
  digits : Nat
  power : Int
  deriving DecidableEq

/-- `10 ^ power` as a quotient of natural numbers. -/
def tenTo (power : Int) : Nat × Nat := (Nat.pow 10 power.toNat, Nat.pow 10 (-power).toNat)

/-- Twice the value of a decimal in units, over the denominator of its power of ten. -/
def twiceUnits (digits : Nat) (power : Int) : Nat :=
  2 * digits * (tenTo power).1 * unitsPerOne

/-- Whether `digits * 10 ^ power` reads back as the magnitude with the given positive bits. -/
def readsBack (bits digits : Nat) (power : Int) : Bool :=
  let scale := (tenTo power).2
  let low := (unitsOf (bits - 1) + unitsOf bits) * scale
  let high := (unitsOf bits + unitsOf (bits + 1)) * scale
  let value := twiceUnits digits power
  if bits % 2 == 0 then low ≤ value && value ≤ high else low < value && value < high

/-- The neighbour of the value on the grid of `10 ^ power` that reads back, the nearer of two. -/
def onGrid (tie : Tie) (bits : Nat) (power : Int) : Option Nat :=
  let num := unitsOf bits * (tenTo power).2
  let den := (tenTo power).1 * unitsPerOne
  let floor := num / den
  let twice := 2 * (num % den)
  match readsBack bits floor power, readsBack bits (floor + 1) power with
  | false, false => none
  | true, false => some floor
  | false, true => some (floor + 1)
  | true, true =>
    if twice < den then some floor
    else if den < twice then some (floor + 1)
    else match tie with
      | .up => some (floor + 1)
      | .even => some (floor + floor % 2)

/-- Searches the grids from `10 ^ (steps - 1074)` down. On the last one every double is exact. -/
def search (tie : Tie) (bits : Nat) : Nat → Decimal
  | 0 => ⟨unitsOf bits * Nat.pow 5 1074, -1074⟩
  | steps + 1 =>
    let power : Int := (steps + 1 : Int) - 1074
    match onGrid tie bits power with
    | some digits => ⟨digits, power⟩
    | none => search tie bits steps

/-- The shortest decimal for the magnitude with the given positive finite bits, and of those the
nearest. No power of ten above the whole part can be within reach. -/
def shortest (tie : Tie) (bits : Nat) : Decimal :=
  search tie bits (1074 + (Nat.toDigits 10 (unitsOf bits / unitsPerOne)).length)

structure Layout where
  /-- The choice between two equally near shortest decimals. -/
  tie : Tie
  /-- The least and the greatest exponent written without one, or all of them. -/
  positional : Option (Int × Int)
  /-- Whether a whole number is marked by `.0`. -/
  wholeMark : Bool
  /-- Whether an exponent that is not negative has a plus sign. -/
  plusSign : Bool

/-- Numbers in messages: never an exponent, no mark on whole numbers. -/
def plain : Layout := ⟨.up, none, false, false⟩

/-- Numbers in listings of values: an exponent below `1e-4` and from `1e16` on. -/
def literal : Layout := ⟨.up, some (-4, 15), true, false⟩

/-- Numbers in JSON that are not integers: an exponent below `1e-5` and from `1e16` on. -/
def json : Layout := ⟨.even, some (-5, 15), true, true⟩

namespace Layout

/-- Digits with the decimal point after the digit of weight one; `exponent` belongs to the first. -/
def positionalText (layout : Layout) (digits : List Char) (exponent : Int) : List Char :=
  let places := (exponent + 1).toNat
  let mark : List Char := if layout.wholeMark then ['.', '0'] else []
  if exponent < 0 then
    '0' :: '.' :: List.replicate (-exponent - 1).toNat '0' ++ digits
  else if digits.length ≤ places then
    digits ++ List.replicate (places - digits.length) '0' ++ mark
  else digits.take places ++ '.' :: digits.drop places

/-- One digit before the decimal point, and the exponent after an `e`. -/
def exponentText (layout : Layout) (digits : List Char) (exponent : Int) : List Char :=
  let sign : List Char :=
    if exponent < 0 then ['-'] else if layout.plusSign then ['+'] else []
  let fraction : List Char := if digits.length ≤ 1 then [] else '.' :: digits.drop 1
  digits.take 1 ++ fraction ++ 'e' :: sign ++ Nat.toDigits 10 exponent.natAbs

def magnitudeText (layout : Layout) (bits : Nat) : List Char :=
  if bits = 0 then layout.positionalText ['0'] 0
  else
    let decimal := shortest layout.tie bits
    let digits := Nat.toDigits 10 decimal.digits
    let exponent := decimal.power + digits.length - 1
    match layout.positional with
    | none => layout.positionalText digits exponent
    | some (least, greatest) =>
      if least ≤ exponent && exponent ≤ greatest then layout.positionalText digits exponent
      else layout.exponentText digits exponent

def render (layout : Layout) (x : Double) : String :=
  if x.isNaN then "NaN"
  else
    let sign : List Char := if x.negative then ['-'] else []
    if x.isInfinite then String.ofList (sign ++ ['i', 'n', 'f'])
    else String.ofList (sign ++ layout.magnitudeText x.bits)

example : plain.render (.ofRatio false 3 2) = "1.5" ∧ plain.render 3 = "3" ∧
    plain.render (.ofNat (10 ^ 17)) = "100000000000000000" := by decide +kernel

example : literal.render (.ofRatio true 0 1) = "-0.0" ∧
    literal.render (.ofNat (10 ^ 15)) = "1000000000000000.0" ∧
    literal.render (.ofNat (10 ^ 16)) = "1e16" ∧
    literal.render (.ofRatio false 1 (10 ^ 4)) = "0.0001" ∧
    literal.render (.ofRatio false 1 (10 ^ 5)) = "1e-5" := by decide +kernel

example : json.render (.ofRatio false 1 10) = "0.1" ∧
    json.render (.ofNat (10 ^ 16)) = "1e+16" ∧
    json.render (.ofRatio false 1 (10 ^ 5)) = "0.00001" ∧
    json.render (.ofRatio false 1 (10 ^ 6)) = "1e-6" := by decide +kernel

end Layout

end Double

end ValueSchema
