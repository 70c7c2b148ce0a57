import ValueSchema.Double.Basic
import ValueSchema.Entries

/-!
Dynamically typed values, in which an absent value (`undefined`) differs from an empty one (`null`).
-/

set_option autoImplicit false
set_option relaxedAutoImplicit false

namespace ValueSchema

/-- A dynamically typed value. -/
inductive Value where
  | undefined
  | null
  | bool (value : Bool)
  | number (value : Double)
  | string (value : String)
  | array (items : List Value)
  | object (entries : List (String × Value))

instance : Inhabited Value := ⟨.undefined⟩

inductive ValueKind where
  | undefined
  | null
  | boolean
  | number
  | string
  | array
  | object
  deriving DecidableEq

namespace ValueKind

def all : List ValueKind := [.undefined, .null, .boolean, .number, .string, .array, .object]

def name : ValueKind → String
  | .undefined => "undefined"
  | .null => "null"
  | .boolean => "boolean"
  | .number => "number"
  | .string => "string"
  | .array => "array"
  | .object => "object"

def ofName? (name : String) : Option ValueKind := all.find? fun kind => kind.name == name

end ValueKind

namespace Value

def kind : Value → ValueKind
  | .undefined => .undefined
  | .null => .null
  | .bool _ => .boolean
  | .number _ => .number
  | .string _ => .string
  | .array _ => .array
  | .object _ => .object

def isUndefined : Value → Bool
  | .undefined => true
  | _ => false

def isNull : Value → Bool
  | .null => true
  | _ => false

theorem eq_undefined_of_kind {v : Value} (kind : v.kind = .undefined) : v = .undefined := by
  cases v <;> first | rfl | cases kind

theorem eq_null_of_kind {v : Value} (kind : v.kind = .null) : v = .null := by
  cases v <;> first | rfl | cases kind

theorem isUndefined_eq_true_iff {v : Value} : v.isUndefined = true ↔ v = .undefined := by
  cases v <;> simp [isUndefined]

theorem isUndefined_eq_of_kind {v w : Value} (kind : v.kind = w.kind) :
    v.isUndefined = w.isUndefined := by
  cases v <;> cases w <;> first | rfl | cases kind

def asBool? : Value → Option Bool
  | .bool b => some b
  | _ => none

def asNumber? : Value → Option Double
  | .number x => some x
  | _ => none

def asString? : Value → Option String
  | .string s => some s
  | _ => none

def asArray? : Value → Option (List Value)
  | .array items => some items
  | _ => none

def asObject? : Value → Option (Entries Value)
  | .object entries => some entries
  | _ => none

def get? (v : Value) (name : String) : Option Value :=
  v.asObject?.bind (Entries.find? · name)

/-- An object from entries that may repeat names. -/
def ofEntries (entries : List (String × Value)) : Value := .object (Entries.ofList entries)

/-- No value is null. -/
def ofOption (v : Option Value) : Value := v.getD .null

def ofInt (i : Int) : Value := .number (.ofInt i)

mutual

/-- Equality by content: numbers by value, objects by the entries they have, in any order. -/
def same : Value → Value → Bool
  | .undefined, .undefined => true
  | .null, .null => true
  | .bool a, .bool b => a == b
  | .number x, .number y => x.same y
  | .string s, .string t => s == t
  | .array as, .array bs => sameItems as bs
  | .object es, .object fs => es.length == fs.length && sameEntries es fs
  | _, _ => false

def sameItems : List Value → List Value → Bool
  | [], [] => true
  | a :: as, b :: bs => a.same b && sameItems as bs
  | _, _ => false

def sameEntries : List (String × Value) → List (String × Value) → Bool
  | [], _ => true
  | (name, v) :: rest, entries =>
    (match List.lookup name entries with
      | some w => v.same w
      | none => false) && sameEntries rest entries

end

mutual

/-- No object in a value names an entry twice. Objects built by `ofEntries` from such values keep
to it. -/
def WellFormed : Value → Prop
  | .array items => WellFormedItems items
  | .object entries => (Entries.names entries).Nodup ∧ WellFormedEntries entries
  | _ => True

def WellFormedItems : List Value → Prop
  | [] => True
  | v :: rest => v.WellFormed ∧ WellFormedItems rest

def WellFormedEntries : List (String × Value) → Prop
  | [] => True
  | (_, v) :: rest => v.WellFormed ∧ WellFormedEntries rest

end

end Value

end ValueSchema
