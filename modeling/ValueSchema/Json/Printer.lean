import ValueSchema.Double.Layout
import ValueSchema.Json.Basic

set_option autoImplicit false
set_option relaxedAutoImplicit false

namespace ValueSchema

namespace Json

def escape (c : Char) : List Char :=
  if c = '"' then ['\\', '"']
  else if c = '\\' then ['\\', '\\']
  else if c = '\x08' then ['\\', 'b']
  else if c = '\x0c' then ['\\', 'f']
  else if c = '\n' then ['\\', 'n']
  else if c = '\r' then ['\\', 'r']
  else if c = '\t' then ['\\', 't']
  else if c.toNat < 32 then
    ['\\', 'u', '0', '0', Nat.digitChar (c.toNat / 16), Nat.digitChar (c.toNat % 16)]
  else [c]

def quote (s : String) : String :=
  String.ofList ('"' :: s.toList.flatMap escape ++ ['"'])

/-- The text of a number. What no number literal can say is null. -/
def Number.render : Number → String
  | .integer i => toString i
  | .real x => if x.isFinite then Double.json.render x else "null"

/-- What a serializer makes of each kind of value. The parts of arrays and objects are written
already, so nothing else has to be known of it. -/
structure Serializer (α : Type) where
  null : α
  bool : Bool → α
  number : Number → α
  string : String → α
  array : List α → α
  object : List (String × α) → α

mutual

def write {α : Type} (w : Serializer α) : Json → α
  | .null => w.null
  | .bool b => w.bool b
  | .number n => w.number n
  | .string s => w.string s
  | .array items => w.array (writeItems w items)
  | .object members => w.object (writeMembers w members)

def writeItems {α : Type} (w : Serializer α) : List Json → List α
  | [] => []
  | item :: rest => item.write w :: writeItems w rest

def writeMembers {α : Type} (w : Serializer α) : List (String × Json) → List (String × α)
  | [] => []
  | (name, item) :: rest => (name, item.write w) :: writeMembers w rest

end

def compact : Serializer String where
  null := "null"
  bool b := if b then "true" else "false"
  number := Number.render
  string := quote
  array items := "[" ++ String.intercalate "," items ++ "]"
  object members :=
    "\x7b" ++ String.intercalate "," (members.map fun m => quote m.1 ++ ":" ++ m.2) ++ "\x7d"

def render (j : Json) : String := j.write compact

end Json

end ValueSchema
