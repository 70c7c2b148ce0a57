import ValueSchema.Schema.Basic

set_option autoImplicit false
set_option relaxedAutoImplicit false

namespace ValueSchema

namespace Schema

/-- A schema that matches only absent values. They are its type, so it is optional from the
start. -/
def undefined : Schema := .primitive { optional := true } .undefined

def null : Schema := .primitive {} .null

def boolean : Schema := .primitive {} .boolean

def number : Schema := .primitive {} (.number [])

def string : Schema := .primitive {} (.string [])

def arrayOf (element : Schema) : Schema := .array {} [] element

def tupleOf (items : List Schema) : Schema := .tuple {} items

def unionOf (candidates : List Schema) : Schema := .union {} candidates

/-- An object schema; a repeated name keeps its first place and takes the last schema. -/
def objectOf (fields : List (String × Schema)) : Schema :=
  .object {} .passthrough (Entries.ofList fields)

def withModifiers (m : Modifiers) : Schema → Schema
  | .primitive _ p => .primitive m p
  | .array _ size element => .array m size element
  | .tuple _ items => .tuple m items
  | .object _ unknownKeys fields => .object m unknownKeys fields
  | .union _ candidates => .union m candidates

def modify (s : Schema) (change : Modifier) : Schema :=
  s.withModifiers (s.modifiers.apply change)

def boundNumber? (kind : ConstraintKind) (limit : Double) : Schema → Option Schema
  | .primitive m (.number bounds) => some (.primitive m (.number (bounds.set kind limit)))
  | _ => none

/-- A string or array schema with a bound on its size set. -/
def boundSize? (kind : ConstraintKind) (limit : Nat) : Schema → Option Schema
  | .primitive m (.string bounds) => some (.primitive m (.string (bounds.set kind limit)))
  | .array m size element => some (.array m (size.set kind limit) element)
  | _ => none

def positive? : Schema → Option Schema := boundNumber? .min 0

def negative? : Schema → Option Schema := boundNumber? .max 0

def field? (s : Schema) (name : String) (field : Schema) : Option Schema :=
  match s with
  | .object m unknownKeys fields => some (.object m unknownKeys (Entries.put fields name field))
  | _ => none

def withUnknownKeys? (policy : UnknownKeys) : Schema → Option Schema
  | .object m _ fields => some (.object m policy fields)
  | _ => none

/-- Two schemas in one. Fields of the second object schema win, at the place they have in the
first; the policy is that of the first, and no modifiers are kept. The candidates of the second
union come after those of the first, whose modifiers are kept. -/
def merge? : Schema → Schema → Option Schema
  | .object _ unknownKeys fields, .object _ _ others =>
    some (.object {} unknownKeys (Entries.putAll fields others))
  | .union m candidates, .union _ others => some (.union m (candidates ++ others))
  | _, _ => none

def item? (position : Nat) : Schema → Option Schema
  | .array _ _ element => some element
  | .tuple _ items => items[position]?
  | .union _ candidates => candidates[position]?
  | _ => none

def fieldNamed? (name : String) : Schema → Option Schema
  | .object _ _ fields => Entries.find? fields name
  | _ => none

end Schema

end ValueSchema
