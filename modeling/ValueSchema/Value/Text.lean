import ValueSchema.Json.Printer
import ValueSchema.Text.Nonprinting
import ValueSchema.Value.Basic

set_option autoImplicit false
set_option relaxedAutoImplicit false

namespace ValueSchema

namespace Value

/-- The integers that numbers are written as: the signed 64-bit ones. -/
def isSignedWord (i : Int) : Bool := -(1 <<< 63 : Nat) ≤ i && i < (1 <<< 63 : Nat)

/-- A double in JSON: an integer where it is one of 64 bits, and null where it is not finite. -/
def jsonOfDouble (x : Double) : Json :=
  match x.toInt?.filter isSignedWord with
  | some i => .number (.integer i)
  | none => (Json.Number.ofDouble? x).elim .null .number

mutual

def toJson : Value → Json
  | .undefined => .null
  | .null => .null
  | .bool b => .bool b
  | .number x => jsonOfDouble x
  | .string s => .string s
  | .array items => .array (itemsToJson items)
  | .object entries => .object (entriesToJson entries)

def itemsToJson : List Value → List Json
  | [] => []
  | v :: rest => v.toJson :: itemsToJson rest

def entriesToJson : List (String × Value) → List (String × Json)
  | [] => []
  | (name, v) :: rest =>
    if v.isUndefined then entriesToJson rest else (name, v.toJson) :: entriesToJson rest

end

mutual

/-- A JSON tree as a value. A repeated member keeps its first place and takes the last content. -/
def ofJson : Json → Value
  | .null => .null
  | .bool b => .bool b
  | .number n => .number n.toDouble
  | .string s => .string s
  | .array items => .array (ofJsonItems items)
  | .object members => .object (Entries.ofList (ofJsonMembers members))

def ofJsonItems : List Json → List Value
  | [] => []
  | item :: rest => ofJson item :: ofJsonItems rest

def ofJsonMembers : List (String × Json) → List (String × Value)
  | [] => []
  | (name, item) :: rest => (name, ofJson item) :: ofJsonMembers rest

end

mutual

/-- The value of a JSON tree that is only looked at: each part is copied where it stands, and a
member is put into the object as soon as it is reached. -/
def copyOfJson : Json → Value
  | .null => .null
  | .bool b => .bool b
  | .number n => .number n.toDouble
  | .string s => .string s
  | .array items => .array (copyItems items)
  | .object members => .object (copyMembers [] members)

def copyItems : List Json → List Value
  | [] => []
  | item :: rest => copyOfJson item :: copyItems rest

def copyMembers (done : Entries Value) : List (String × Json) → Entries Value
  | [] => done
  | (name, item) :: rest => copyMembers (Entries.put done name (copyOfJson item)) rest

end

section Serialization

variable {α : Type} (w : Json.Serializer α)

mutual

/-- What a serializer makes of a value that is handed to it part by part. -/
def serializeTo : Value → α
  | .undefined => w.null
  | .null => w.null
  | .bool b => w.bool b
  | .number x => (jsonOfDouble x).write w
  | .string s => w.string s
  | .array items => w.array (serializeItems items)
  | .object entries => w.object (serializeEntries entries)

def serializeItems : List Value → List α
  | [] => []
  | v :: rest => v.serializeTo :: serializeItems rest

def serializeEntries : List (String × Value) → List (String × α)
  | [] => []
  | (name, v) :: rest =>
    if v.isUndefined then serializeEntries rest
    else (name, v.serializeTo) :: serializeEntries rest

end

end Serialization

def serialize (v : Value) : String := v.serializeTo Json.compact

/-- The text of a value in messages: its JSON text, or the word for an absent value. -/
def display (v : Value) : String := if v.isUndefined then "undefined" else v.serialize

/-- A character inside the quotes of a listing. One that would not be seen on its own is written by
its code point, where it has no short form. -/
def listingEscape (c : Char) : List Char :=
  if c = '"' then ['\\', '"']
  else if c = '\\' then ['\\', '\\']
  else if c = '\n' then ['\\', 'n']
  else if c = '\r' then ['\\', 'r']
  else if c = '\t' then ['\\', 't']
  else if c = '\x00' then ['\\', '0']
  else if isNonprinting c then
    ['\\', 'u', '\x7b'] ++ Nat.toDigits 16 c.toNat ++ ['\x7d']
  else [c]

def listingQuote (s : String) : String :=
  String.ofList ('"' :: s.toList.flatMap listingEscape ++ ['"'])

mutual

def listing : Value → String
  | .undefined => "Undefined"
  | .null => "Null"
  | .bool b => if b then "Bool(true)" else "Bool(false)"
  | .number x => "Number(" ++ Double.literal.render x ++ ")"
  | .string s => "String(" ++ listingQuote s ++ ")"
  | .array items => "Array([" ++ String.intercalate ", " (listingItems items) ++ "])"
  | .object entries =>
    "Object(\x7b" ++ String.intercalate ", " (listingEntries entries) ++ "\x7d)"

def listingItems : List Value → List String
  | [] => []
  | v :: rest => v.listing :: listingItems rest

def listingEntries : List (String × Value) → List String
  | [] => []
  | (name, v) :: rest => (listingQuote name ++ ": " ++ v.listing) :: listingEntries rest

end

end Value

end ValueSchema
