set_option autoImplicit false
set_option relaxedAutoImplicit false

namespace ValueSchema

inductive SchemaKind where
  | undefined
  | null
  | boolean
  | number
  | string
  | array
  | object
  | union
  | tuple
  deriving DecidableEq

namespace SchemaKind

def all : List SchemaKind :=
  [.undefined, .null, .boolean, .number, .string, .array, .object, .union, .tuple]

def name : SchemaKind → String
  | .undefined => "undefined"
  | .null => "null"
  | .boolean => "boolean"
  | .number => "number"
  | .string => "string"
  | .array => "array"
  | .object => "object"
  | .union => "union"
  | .tuple => "tuple"

def ofName? (name : String) : Option SchemaKind := all.find? fun kind => kind.name == name

end SchemaKind

/-- What a bound demands: at least, at most, or exactly its limit. -/
inductive ConstraintKind where
  | min
  | max
  | length
  deriving DecidableEq

namespace ConstraintKind

def all : List ConstraintKind := [.min, .max, .length]

def name : ConstraintKind → String
  | .min => "min"
  | .max => "max"
  | .length => "length"

def phrase : ConstraintKind → String
  | .min => "at least"
  | .max => "at most"
  | .length => "exactly"

def ofName? (name : String) : Option ConstraintKind := all.find? fun kind => kind.name == name

end ConstraintKind

/-- What a bound measures: a number, the bytes of a string, or the items of an array. -/
inductive Subject where
  | number
  | stringLength
  | arrayLength
  deriving DecidableEq

namespace Subject

def all : List Subject := [.number, .stringLength, .arrayLength]

def name : Subject → String
  | .number => "number"
  | .stringLength => "string_length"
  | .arrayLength => "array_length"

def phrase : Subject → String
  | .number => "number"
  | .stringLength => "string length"
  | .arrayLength => "array length"

def ofName? (name : String) : Option Subject := all.find? fun subject => subject.name == name

end Subject

end ValueSchema
