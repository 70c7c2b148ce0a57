import ValueSchema.Double.Numeral

/-!
JSON trees and number literals. A literal that is no integer of 64 bits is read in steps that are
rounded one by one, so the result is not always the nearest double.
-/

set_option autoImplicit false
set_option relaxedAutoImplicit false

namespace ValueSchema

/-- A JSON number: an integer literal of 64 bits, or a double. -/
inductive Json.Number where
  | integer (value : Int)
  | real (value : Double)
  deriving DecidableEq

inductive Json where
  | null
  | bool (value : Bool)
  | number (value : Json.Number)
  | string (value : String)
  | array (items : List Json)
  | object (members : List (String × Json))

instance : Inhabited Json := ⟨.null⟩

namespace Json

/-- The integers that are kept as integers: signed 64 bits below zero, unsigned from zero on. -/
def isWordRange (i : Int) : Bool := -(1 <<< 63 : Nat) ≤ i && i < (1 <<< 64 : Nat)

/-- The double nearest to a number. -/
def Number.toDouble : Number → Double
  | .integer i => .ofInt i
  | .real x => x

/-- A double as a number, if it is finite. -/
def Number.ofDouble? (x : Double) : Option Number := if x.isFinite then some (.real x) else none

mutual

/-- Whether every number in a tree is finite, as in all trees that are read from a text. -/
def allFinite : Json → Bool
  | .number (.real x) => x.isFinite
  | .array items => allFiniteItems items
  | .object members => allFiniteMembers members
  | _ => true

def allFiniteItems : List Json → Bool
  | [] => true
  | item :: rest => item.allFinite && allFiniteItems rest

def allFiniteMembers : List (String × Json) → Bool
  | [] => true
  | (_, item) :: rest => item.allFinite && allFiniteMembers rest

end

/-- The name that a tree stands for: a string, or an object that maps the name alone to null. -/
def name? : Json → Option String
  | .string name => some name
  | .object [(name, .null)] => some name
  | _ => none

def word? : Json → Option Nat
  | .number (.integer i) => if 0 ≤ i && i < (1 <<< 64 : Nat) then some i.toNat else none
  | _ => none

/-- Whether a numeral is a JSON number: it has no plus sign, no needless leading zero, and digits
around its point. -/
def isLiteral (n : Numeral) : Bool :=
  n.sign != some false && !n.whole.isEmpty &&
    (n.whole.length == 1 || n.whole.head? != some '0') &&
    n.fraction.all fun digits => !digits.isEmpty

/-- Appends decimal digits to a number for as long as it fits 64 bits. With the result comes how
many digits went in. -/
def takeDigits (value : Nat) : List Char → Nat × Nat
  | [] => (value, 0)
  | c :: rest =>
    let next := 10 * value + (c.toNat - '0'.toNat)
    if next < 1 <<< 64 then
      let (result, taken) := takeDigits next rest
      (result, taken + 1)
    else (value, 0)

/-- The leading digits of a numeral, and the power of ten that the last of them stands for. Digits
before the point that are left out count in the power; those after it are dropped. -/
def leadingDecimal (n : Numeral) : Nat × Int :=
  let (whole, taken) := takeDigits 0 n.whole
  let (digits, places) := takeDigits whole (n.fraction.getD [])
  (digits, n.exponent.getD 0 + (n.whole.length - taken : Nat) - places)

def greatestPower : Nat := 308

def powerOfTen (power : Nat) : Double := .ofNat (Nat.pow 10 power)

/-- `digits * 10 ^ power` for digits of 64 bits, rounded after every step. Nothing is left of them
after two divisions by the greatest power, and nothing is given beyond the largest double. -/
def scaled? (digits : Nat) (power : Int) : Option Double :=
  let x := Double.ofNat digits
  let size := power.natAbs
  if x.isZero then some x
  else if 0 ≤ power then
    if size ≤ greatestPower then (some (x.mul (powerOfTen size))).filter Double.isFinite else none
  else if size ≤ greatestPower then some (x.div (powerOfTen size))
  else if size ≤ 2 * greatestPower then
    some ((x.div (powerOfTen greatestPower)).div (powerOfTen (size - greatestPower)))
  else some 0

/-- Both steps are rounded: the double nearest to `10 ^ -23` is another one. -/
example : scaled? 1 (-23) ≠ some (.ofRatio false 1 (10 ^ 23)) ∧
    scaled? 5 (-324) = some (.ofRatio false 5 (10 ^ 324)) ∧
    scaled? 17976931348623158 292 = none := by decide +kernel

/-- The number of a literal, if it is not beyond the largest double. Negative zero is a double. -/
def numberOf? (n : Numeral) : Option Number :=
  let negative := n.sign == some true
  let size := digitsValue n.whole
  let value : Int := if negative then -(size : Int) else size
  if n.fraction.isNone && n.exponent.isNone && isWordRange value && (value != 0 || !negative) then
    some (.integer value)
  else
    let (digits, power) := leadingDecimal n
    (scaled? digits power).map fun x => .real { x with negative }

end Json

end ValueSchema
