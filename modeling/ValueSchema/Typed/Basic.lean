import ValueSchema.Schema.Builders

/-!
Typed schemas: schemas whose accepted values have a typed output.
-/

set_option autoImplicit false
set_option relaxedAutoImplicit false

namespace ValueSchema

/-- The typed form of an accepted value. -/
inductive Output where
  | unit
  | bool (value : Bool)
  | number (value : Double)
  | integer (value : Int)
  | string (value : String)
  /-- A value without a type of its own. -/
  | value (v : Value)
  /-- Nothing, for an absent or empty value. -/
  | absent
  /-- Something, where there could be nothing. -/
  | present (output : Output)
  | list (items : List Output)
  | tuple (items : List Output)
  /-- The output of the union candidate with the given index. -/
  | choice (index : Nat) (output : Output)
  | record (fields : List (String × Output))

instance : Inhabited Output := ⟨.unit⟩

namespace Output

def length? : Output → Option Nat
  | .list items => some items.length
  | _ => none

end Output

inductive FieldType where
  /-- A natural number of so many bits. -/
  | unsigned (bits : Nat)
  | text
  | boolean
  | listOf (item : FieldType)
  /-- Null, or no entry at all, stands for nothing. -/
  | optional (content : FieldType)

/-- A record type: its name and its fields in the order of declaration. -/
structure RecordType where
  name : String
  fields : List (String × FieldType)

inductive RecordError where
  | invalidType (found : Json) (expected : String)
  | invalidInteger (value : Int) (expected : String)
  | missingField (name : String)
  | invalidLength (length : Nat) (expected : String)

/-- A tree by its kind, and by its content where that is short. -/
def Json.describe : Json → String
  | .null => "null"
  | .bool b => if b then "boolean `true`" else "boolean `false`"
  | .number (.integer i) => s!"integer `{i}`"
  | .number (.real x) => "floating point `" ++ Json.Number.render (.real x) ++ "`"
  | .string s => "string " ++ Value.listingQuote s
  | .array _ => "sequence"
  | .object _ => "map"

namespace RecordError

def message : RecordError → String
  | .invalidType found expected => s!"invalid type: {found.describe}, expected {expected}"
  | .invalidInteger value expected =>
    s!"invalid value: {Json.describe (.number (.integer value))}, expected {expected}"
  | .missingField name => s!"missing field `{name}`"
  | .invalidLength length expected => s!"invalid length {length}, expected {expected}"

end RecordError

namespace FieldType

def expectation : FieldType → String
  | .unsigned bits => s!"u{bits}"
  | .text => "a string"
  | .boolean => "a boolean"
  | .listOf _ => "a sequence"
  | .optional _ => "option"

def readAll (reader : Json → Except RecordError Output) :
    List Json → Except RecordError (List Output)
  | [] => .ok []
  | item :: rest =>
    match reader item, readAll reader rest with
    | .error error, _ => .error error
    | .ok _, .error error => .error error
    | .ok output, .ok outputs => .ok (output :: outputs)

def read : FieldType → Json → Except RecordError Output
  | .unsigned bits, .number (.integer i) =>
    if 0 ≤ i && i < (1 <<< bits : Nat) then .ok (.integer i)
    else .error (.invalidInteger i (expectation (.unsigned bits)))
  | .text, .string s => .ok (.string s)
  | .boolean, .bool b => .ok (.bool b)
  | .listOf item, .array items => (readAll item.read items).map .list
  | .optional _, .null => .ok .absent
  | .optional content, json => (content.read json).map .present
  | type, json => .error (.invalidType json type.expectation)

/-- The content of a field without an entry, if it may be missing. -/
def missing? : FieldType → Option Output
  | .optional _ => some .absent
  | _ => none

end FieldType

namespace RecordType

/-- Reads the members that are declared, in the order of the object. -/
def readMembers (fields : List (String × FieldType)) :
    List (String × Json) → Except RecordError (List (String × Output))
  | [] => .ok []
  | (name, json) :: rest =>
    match List.lookup name fields with
    | none => readMembers fields rest
    | some type =>
      match type.read json with
      | .error error => .error error
      | .ok output => (readMembers fields rest).map ((name, output) :: ·)

def arrange (found : List (String × Output)) :
    List (String × FieldType) → Except RecordError (List (String × Output))
  | [] => .ok []
  | (name, type) :: rest =>
    match List.lookup name found, type.missing? with
    | some output, _ | none, some output => (arrange found rest).map ((name, output) :: ·)
    | none, none => .error (.missingField name)

def shape (type : RecordType) : String :=
  let count := type.fields.length
  s!"struct {type.name} with {count} element" ++ (if count = 1 then "" else "s")

def readItems (type : RecordType) (position : Nat) :
    List (String × FieldType) → List Json → Except RecordError (List (String × Output))
  | [], [] => .ok []
  | [], rest => .error (.invalidLength (position + rest.length) "fewer elements in array")
  | _ :: _, [] => .error (.invalidLength position type.shape)
  | (name, field) :: fields, item :: rest =>
    match field.read item with
    | .error error => .error error
    | .ok output => (readItems type (position + 1) fields rest).map ((name, output) :: ·)

def read (type : RecordType) : Json → Except RecordError Output
  | .object members =>
    match readMembers type.fields members with
    | .error error => .error error
    | .ok found => (arrange found type.fields).map .record
  | .array items => (readItems type 0 type.fields items).map .record
  | json => .error (.invalidType json ("struct " ++ type.name))

end RecordType

abbrev Conversion := Value → Except Failure Output

namespace Conversion

def refusal {α : Type} (message : String) : Except Failure α :=
  .error (.here (.conversion message))

def unexpected {α : Type} (expected : String) (found : Value) : Except Failure α :=
  refusal s!"expected {expected}, found {found.kind.name}"

def primitive : SchemaKind → Conversion
  | .undefined, .undefined => .ok .unit
  | .null, .null => .ok .unit
  | .boolean, .bool b => .ok (.bool b)
  | .number, .number x => .ok (.number x)
  | .string, .string s => .ok (.string s)
  | kind, value => unexpected kind.name value

def refused : Conversion := fun _ => refusal "refused"

/-- The nearest integer of 64 bits to a whole number. -/
def clampWord (i : Int) : Int := max (-(1 <<< 63 : Nat)) (min i (1 <<< 63 - 1 : Nat))

/-- Even numbers as integers. -/
def even : Conversion := fun value =>
  match value.asNumber?.filter Double.isEven with
  | some x => .ok (.integer (clampWord (x.toInt?.getD 0)))
  | none => refusal s!"{value.display} is not an even number"

def items : Conversion
  | .array items => .ok (.list (items.map .value))
  | value => refusal s!"{value.display} is not an array"

def record (type : RecordType) : Conversion := fun value =>
  match type.read value.toJson with
  | .ok output => .ok output
  | .error error => refusal error.message

def normal : Conversion := fun value => .ok (.value (.ofJson value.toJson))

end Conversion

/-- Which values an optional part has nothing for. -/
inductive Absence where
  | undefined
  | null
  | either
  deriving DecidableEq

namespace Absence

def holds : Absence → Value → Bool
  | .undefined, value => value.isUndefined
  | .null, value => value.isNull
  | .either, value => value.isUndefined || value.isNull

def modifier : Absence → Modifier
  | .undefined => .optional
  | .null => .nullable
  | .either => .nullish

end Absence

/-- A typed schema. -/
inductive Typed where
  /-- A schema with a conversion of what it accepts. -/
  | leaf (schema : Schema) (convert : Conversion)
  /-- Nothing for an absent value, or the output of the inner schema. -/
  | option (absence : Absence) (inner : Typed)
  | array (element : Typed)
  | tuple (items : List Typed)
  | union (candidates : List Typed)
  /-- Another modifier on the schema, and the same conversion. -/
  | modified (change : Modifier) (inner : Typed)
  /-- A bound on the number of items. An array schema takes it as a bound of its own; otherwise
  the items are counted after the conversion. -/
  | bounded (kind : ConstraintKind) (limit : Nat) (inner : Typed)

instance : Inhabited Typed := ⟨.leaf default .refused⟩

namespace Typed

/-- A bound on the size of an array schema; other schemas stay. -/
def boundArray (kind : ConstraintKind) (limit : Nat) : Schema → Schema
  | .array m size element => .array m (size.set kind limit) element
  | s => s

mutual

/-- The schema that decides what a typed schema accepts. -/
def schema : Typed → Schema
  | .leaf s _ => s
  | .option absence inner => inner.schema.modify absence.modifier
  | .array element => .arrayOf element.schema
  | .tuple items => .tupleOf (schemas items)
  | .union candidates => .unionOf (schemas candidates)
  | .modified change inner => inner.schema.modify change
  | .bounded kind limit inner => boundArray kind limit inner.schema

def schemas : List Typed → List Schema
  | [] => []
  | t :: rest => t.schema :: schemas rest

end

theorem schemas_eq_map (items : List Typed) : schemas items = items.map schema := by
  induction items with
  | nil => rfl
  | cons t rest ih => rw [schemas, ih]; rfl

def ofPrimitive (s : Schema) : Typed := .leaf s (.primitive s.kind)

end Typed

end ValueSchema
