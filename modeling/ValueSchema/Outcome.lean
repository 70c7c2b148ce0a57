import ValueSchema.Schema.Kind
import ValueSchema.Value.Text

/-!
Paths, failures and outcomes. An exhausted union has the failures of its candidates below its own,
so failures are trees.
-/

set_option autoImplicit false
set_option relaxedAutoImplicit false

namespace ValueSchema

/-- One step into a value: to an entry of an object or to an item of an array. -/
inductive Segment where
  | key (name : String)
  | index (position : Nat)
  deriving DecidableEq

/-- The steps from the root, outermost first. -/
abbrev Path := List Segment

namespace Segment

def toJson : Segment → Json
  | .key name => .string name
  | .index position => .number (.integer position)

/-- A string is a name, and a natural number of 64 bits is a position. -/
def ofJson? : Json → Option Segment
  | .string name => some (.key name)
  | json => json.word?.map .index

def text : Segment → String
  | .key name => "." ++ name
  | .index position => "[" ++ toString position ++ "]"

end Segment

namespace Path

/-- The text of a path. A name in front has no point before it. -/
def text : Path → String
  | [] => ""
  | .key name :: rest => name ++ String.join (rest.map Segment.text)
  | path => String.join (path.map Segment.text)

def toJson (path : Path) : Json := .array (path.map Segment.toJson)

def ofJson? : Json → Option Path
  | .array items => items.mapM Segment.ofJson?
  | _ => none

end Path

/-- The cause of a failure that has no failures below it. -/
inductive Cause where
  | typeMismatch (expected : SchemaKind) (received : ValueKind)
  | constraintViolation (subject : Subject) (constraint : ConstraintKind) (limit actual : Double)
  /-- A required value is absent. -/
  | missing
  | tupleLengthMismatch (expected received : Nat)
  | recursionLimitExceeded (limit : Nat)
  | unrecognizedKeys (keys : List String)
  /-- An accepted value could not be converted to its typed output. -/
  | conversion (message : String)
  deriving DecidableEq

inductive Failure where
  | plain (path : Path) (cause : Cause)
  | exhausted (path : Path) (candidates : List Failure)

instance : Inhabited Failure := ⟨.plain [] .missing⟩

inductive FailureCode where
  | typeMismatch
  | constraintViolation
  | missing
  | tupleLengthMismatch
  | unionExhausted
  | recursionLimitExceeded
  | unrecognizedKeys
  | conversion
  deriving DecidableEq

def FailureCode.name : FailureCode → String
  | .typeMismatch => "type_mismatch"
  | .constraintViolation => "constraint_violation"
  | .missing => "missing_or_undefined_value"
  | .tupleLengthMismatch => "tuple_length_mismatch"
  | .unionExhausted => "union_exhausted"
  | .recursionLimitExceeded => "recursion_limit_exceeded"
  | .unrecognizedKeys => "unrecognized_keys"
  | .conversion => "conversion"

namespace Cause

def code : Cause → FailureCode
  | .typeMismatch .. => .typeMismatch
  | .constraintViolation .. => .constraintViolation
  | .missing => .missing
  | .tupleLengthMismatch .. => .tupleLengthMismatch
  | .recursionLimitExceeded .. => .recursionLimitExceeded
  | .unrecognizedKeys .. => .unrecognizedKeys
  | .conversion .. => .conversion

def message : Cause → String
  | .typeMismatch expected received => s!"expected {expected.name}, received {received.name}"
  | .constraintViolation subject constraint limit actual =>
    let limit := Double.plain.render limit
    let actual := Double.plain.render actual
    s!"{subject.phrase} must be {constraint.phrase} {limit}, received {actual}"
  | .missing => "required value is missing"
  | .tupleLengthMismatch expected received =>
    s!"tuple expects {expected} elements, received {received}"
  | .recursionLimitExceeded limit => s!"recursion limit of {limit} exceeded"
  | .unrecognizedKeys keys => "unrecognized keys: " ++ String.intercalate ", " keys
  | .conversion message => "output conversion failed: " ++ message

end Cause

namespace Failure

def here (cause : Cause) : Failure := .plain [] cause

def path : Failure → Path
  | .plain path _ => path
  | .exhausted path _ => path

def code : Failure → FailureCode
  | .plain _ cause => cause.code
  | .exhausted .. => .unionExhausted

/-- A failure that ends a parse at once, even where other candidates are left. -/
def isLimit (failure : Failure) : Bool := failure.code == .recursionLimitExceeded

mutual

/-- The same failure seen from one step further out: every path in the tree gets longer. -/
def prefixed (segment : Segment) : Failure → Failure
  | .plain path cause => .plain (segment :: path) cause
  | .exhausted path candidates => .exhausted (segment :: path) (prefixedAll segment candidates)

def prefixedAll (segment : Segment) : List Failure → List Failure
  | [] => []
  | failure :: rest => failure.prefixed segment :: prefixedAll segment rest

end

mutual

def count : Failure → Nat
  | .plain .. => 1
  | .exhausted _ candidates => 1 + countAll candidates

def countAll : List Failure → Nat
  | [] => 0
  | failure :: rest => failure.count + countAll rest

end

def located (path : Path) (message : String) : String :=
  if path.isEmpty then message else path.text ++ ": " ++ message

mutual

def message : Failure → String
  | .plain _ cause => cause.message
  | .exhausted _ candidates =>
    s!"no union candidate matched ({candidates.length} tried)" ++
      (if candidates.isEmpty then "" else ": ") ++
      String.intercalate "; " (numbered 0 candidates)

/-- The displayed failures of union candidates, each after its number. -/
def numbered (number : Nat) : List Failure → List String
  | [] => []
  | failure :: rest =>
    s!"#{number} {located failure.path failure.message}" :: numbered (number + 1) rest

end

def display (failure : Failure) : String := located failure.path failure.message

end Failure

inductive Outcome (α : Type) where
  | success (data : α)
  | failure (error : Failure)

namespace Outcome

variable {α : Type}

def ofExcept : Except Failure α → Outcome α
  | .ok data => .success data
  | .error error => .failure error

def toExcept : Outcome α → Except Failure α
  | .success data => .ok data
  | .failure error => .error error

def isSuccess : Outcome α → Bool
  | .success _ => true
  | .failure _ => false

def data? : Outcome α → Option α
  | .success data => some data
  | .failure _ => none

def error? : Outcome α → Option Failure
  | .success _ => none
  | .failure error => some error

def reason? (outcome : Outcome α) : Option String := outcome.error?.map Failure.display

def serialize : Outcome Value → String
  | .success data => Json.compact.object [("success", "true"), ("data", data.serialize)]
  | .failure error =>
    Json.compact.object [("success", "false"), ("reason", Json.quote error.display)]

end Outcome

end ValueSchema
