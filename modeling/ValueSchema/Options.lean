import ValueSchema.Json.Reader

set_option autoImplicit false
set_option relaxedAutoImplicit false

namespace ValueSchema

/-- What becomes of object entries that a schema does not declare. -/
inductive UnknownKeys where
  /-- They are kept as they are. -/
  | passthrough
  /-- They make the parse fail. -/
  | strict
  /-- They are dropped. -/
  | strip
  deriving DecidableEq

namespace UnknownKeys

def all : List UnknownKeys := [.passthrough, .strict, .strip]

def name : UnknownKeys → String
  | .passthrough => "passthrough"
  | .strict => "strict"
  | .strip => "strip"

def ofName? (name : String) : Option UnknownKeys := all.find? fun policy => policy.name == name

end UnknownKeys

/-- How much a failed union reports: the failures of all candidates or of the first one. -/
inductive UnionFailures where
  | all
  | first
  deriving DecidableEq

namespace UnionFailures

def name : UnionFailures → String
  | .all => "all"
  | .first => "first"

def ofName? (name : String) : Option UnionFailures :=
  [UnionFailures.all, .first].find? fun detail => detail.name == name

end UnionFailures

structure Options where
  /-- How many schemas may be entered inside each other. -/
  maxDepth : Nat := 100
  unionFailures : UnionFailures := .all
  /-- Overrides the policy of every object schema. -/
  unknownKeys? : Option UnknownKeys := none

namespace Options

def strict : Options := { maxDepth := 50, unknownKeys? := some .strict }

def permissive : Options := { maxDepth := 200 }

def preset? (name : String) : Option Options :=
  if name = "default" then some {}
  else if name = "strict" then some strict
  else if name = "permissive" then some permissive
  else none

def toJson (options : Options) : Json :=
  .object [("max_depth", .number (.integer options.maxDepth)),
    ("union_failures", .string options.unionFailures.name),
    ("unknown_keys", match options.unknownKeys? with
      | some policy => .string policy.name
      | none => .null)]

/-- Applies a reader to an optional setting; an absent one keeps the default. -/
def read? {α : Type} (reader : Json → Option α) (fallback : α) : Option Json → Option α
  | some json => reader json
  | none => some fallback

def unknownKeysOfJson? : Json → Option (Option UnknownKeys)
  | .null => some none
  | json => (json.name?.bind UnknownKeys.ofName?).map some

def ofParts? (maxDepth unionFailures unknownKeys : Option Json) : Option Options := do
  let maxDepth ← read? Json.word? 100 maxDepth
  let unionFailures ← read? (fun json => json.name?.bind UnionFailures.ofName?) .all unionFailures
  let unknownKeys? ← read? unknownKeysOfJson? none unknownKeys
  some { maxDepth, unionFailures, unknownKeys? }

/-- The only member of a name, if there is one. Two members of one name are an error, and so is a
member that has no value. -/
def member? (members : List (Option String × Json.Outline)) (name : String) :
    Option (Option Json) :=
  match members.filter fun m => m.1 == some name with
  | [] => some none
  | [m] => m.2.tree?.map some
  | _ => none

/-- Settings from an outline: an object with some of the settings, or a list of the first ones. All
members of the object must have names; the values of those that are no settings do not matter. -/
def ofOutline? : Json.Outline → Option Options
  | .object members => do
    if members.any fun m => m.1.isNone then none
    let maxDepth ← member? members "max_depth"
    let unionFailures ← member? members "union_failures"
    let unknownKeys ← member? members "unknown_keys"
    ofParts? maxDepth unionFailures unknownKeys
  | .array items => do
    let items ← items.mapM Json.Outline.tree?
    if items.length ≤ 3 then ofParts? items[0]? items[1]? items[2]? else none
  | _ => none

def ofText? (text : String) : Option Options := (Json.Outline.scan? text).bind ofOutline?

end Options

end ValueSchema
