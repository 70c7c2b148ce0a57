import ValueSchema.Schema.Parse
import ValueSchema.Typed.Basic

/-!
Parsing a value to a typed output. The schema decides first; what it accepts is then converted. For
a union, the conversion parses the input again by each candidate in turn.
-/

set_option autoImplicit false
set_option relaxedAutoImplicit false

namespace ValueSchema

abbrev Converted (α : Type) := Except Failure α × Session

/-- A conversion of an accepted value, given the input that it came from. -/
abbrev Converter := (input value : Value) → Session → Converted Output

namespace Converter

/-- What a union tries its candidates on: the input, or what was put in place of an absent one. -/
def source (input value : Value) : Value := if input.isUndefined then value else input

def option (absence : Absence) (inner : Converter) : Converter := fun input value session =>
  if absence.holds value then (.ok .absent, session)
  else
    let (result, session) := inner input value session
    (result.map .present, session)

/-- The inputs that the items of an accepted array came from: the items of an input array of the
same length, and else the accepted items. -/
def itemInputs (input : Value) (items : List Value) : List Value :=
  match input with
  | .array inputs => if inputs.length = items.length then inputs else items
  | _ => items

def inOrder (position : Nat) :
    List Converter → List (Value × Value) → Session → Converted (List Output)
  | [], _, session => (.ok [], session)
  | _ :: _, [], session => (Conversion.refusal "tuple is shorter than declared", session)
  | converter :: converters, (input, item) :: rest, session =>
    match converter input item session with
    | (.error failure, session) => (.error (failure.prefixed (.index position)), session)
    | (.ok output, session) =>
      match inOrder (position + 1) converters rest session with
      | (.error failure, session) => (.error failure, session)
      | (.ok outputs, session) => (.ok (output :: outputs), session)

def array (element : Converter) : Converter := fun input value session =>
  match value with
  | .array items =>
    let (result, session) :=
      inOrder 0 (items.map fun _ => element) ((itemInputs input items).zip items) session
    (result.map .list, session)
  | other => (Conversion.unexpected "array" other, session)

def tuple (converters : List Converter) : Converter := fun input value session =>
  match value with
  | .array items =>
    let (result, session) := inOrder 0 converters ((itemInputs input items).zip items) session
    (result.map .tuple, session)
  | other => (Conversion.unexpected "array" other, session)

/-- The first candidate whose schema accepts the source converts it, for better or worse; without
one, the failures of all. -/
def firstOf (o : Options) (index : Nat) (source : Value) :
    List (Schema × Converter) → Session → Except (List Failure) (Except Failure Output) × Session
  | [], session => (.error [], session)
  | (schema, converter) :: rest, session =>
    match schema.parse o source session with
    | (.ok value, session) =>
      let (result, session) := converter source value session
      (.ok (result.map (.choice index)), session)
    | (.error failure, session) =>
      match firstOf o (index + 1) source rest session with
      | (.error failures, session) => (.error (failure :: failures), session)
      | (.ok result, session) => (.ok result, session)

def union (o : Options) (candidates : List (Schema × Converter)) : Converter :=
  fun input value session =>
    match firstOf o 0 (source input value) candidates session with
    | (.ok result, session) => (result, session)
    | (.error failures, session) =>
      (.error (.exhausted [] (Parser.reported o.unionFailures failures)), session)

def counted (kind : ConstraintKind) (limit : Nat) (inner : Converter) : Converter :=
  fun input value session =>
    match inner input value session with
    | (.error failure, session) => (.error failure, session)
    | (.ok output, session) =>
      match output.length?.bind (Bounds.violation? [⟨kind, limit⟩] .arrayLength) with
      | some failure => (.error failure, session)
      | none => (.ok output, session)

end Converter

namespace Typed

mutual

/-- The conversion of what the schema of a typed schema accepts. -/
def converter (o : Options) : Typed → Converter
  | .leaf _ convert => fun _ value session => (convert value, session)
  | .option absence inner => .option absence (inner.converter o)
  | .array element => .array (element.converter o)
  | .tuple items => .tuple (converters o items)
  | .union candidates => .union o (candidateConverters o candidates)
  | .modified _ inner => inner.converter o
  | .bounded kind limit inner =>
    if inner.schema.kind = .array then inner.converter o
    else .counted kind limit (inner.converter o)

def converters (o : Options) : List Typed → List Converter
  | [] => []
  | t :: rest => t.converter o :: converters o rest

def candidateConverters (o : Options) : List Typed → List (Schema × Converter)
  | [] => []
  | t :: rest => (t.schema, t.converter o) :: candidateConverters o rest

end

def parse (t : Typed) (o : Options) (input : Value) (session : Session) : Converted Output :=
  match t.schema.parse o input session with
  | (.error failure, session) => (.error failure, session)
  | (.ok value, session) => t.converter o input value session

/-- Converts an accepted value whose input is no longer known. -/
def convert (t : Typed) (value : Value) (session : Session) : Converted Output :=
  t.converter {} value value session

end Typed

end ValueSchema
