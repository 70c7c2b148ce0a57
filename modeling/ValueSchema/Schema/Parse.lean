import ValueSchema.Schema.Basic

/-!
Parsing a value by a schema. A run carries the number of schemas that are entered and not yet left,
beside the session. Each kind of schema has one combinator over the parsers of the schemas below it.
-/

set_option autoImplicit false
set_option relaxedAutoImplicit false

namespace ValueSchema

inductive Event where
  /-- A candidate of a union did not accept the value. -/
  | candidateRejected (index : Nat) (kind : SchemaKind) (code : FailureCode)
  /-- The limit on nested schemas stopped the parse. -/
  | limitReached (limit : Nat)
  /-- A whole parse failed. -/
  | parseFailed (path : Path) (code : FailureCode)

/-- The calls of producers and the events so far, both in order. -/
structure Session where
  /-- The slots of the producers that were called. -/
  calls : List Nat := []
  events : List Event := []

namespace Session

def emit (session : Session) (event : Event) : Session :=
  { session with events := session.events ++ [event] }

/-- The value that stands in for an absent one, and the session after a possible call for it. -/
def produce (session : Session) : Default → Value × Session
  | .value v => (v, session)
  | .producer p =>
    (p.output (session.calls.count p.slot), { session with calls := session.calls ++ [p.slot] })

end Session

structure Run extends Session where
  /-- How many schemas are entered and not yet left. -/
  depth : Nat := 0

abbrev Step (α : Type) := Except Failure α × Run

/-- A parser checks a value and gives the conforming value, or the failure. -/
abbrev Parser := Value → Run → Step Value

namespace Run

def emit (run : Run) (event : Event) : Run := { run with toSession := run.toSession.emit event }

def produce (run : Run) (d : Default) : Value × Run :=
  let (value, session) := run.toSession.produce d
  (value, { run with toSession := session })

end Run

namespace Parser

/-- Enters one more schema, unless as many are entered as the limit allows. -/
def guarded (limit : Nat) (parser : Parser) : Parser := fun input run =>
  if run.depth < limit then
    let (result, after) := parser input { run with depth := run.depth + 1 }
    (result, { after with depth := after.depth - 1 })
  else (.error (.here (.recursionLimitExceeded limit)), run.emit (.limitReached limit))

/-- Settles absent and empty values by the modifiers, without a default, and leaves the others to
the check. Some checks also look at absent values. -/
def settled (m : Modifiers) (handlesUndefined : Bool) (check : Parser) : Parser
  | .undefined, run =>
    if m.optional then (.ok .undefined, run)
    else if handlesUndefined then check .undefined run
    else (.error (.here .missing), run)
  | .null, run => if m.nullable then (.ok .null, run) else check .null run
  | input, run => check input run

/-- Replaces an absent value by the default, once, and settles the result. -/
def resolved (m : Modifiers) (handlesUndefined : Bool) (check : Parser) : Parser :=
  fun input run =>
    match input, m.default? with
    | .undefined, some d =>
      let (value, run) := run.produce d
      settled m handlesUndefined check value run
    | _, _ => settled m handlesUndefined check input run

/-- Runs the parsers on their values in order, up to the first failure, which is moved below the
position of its value. -/
def inOrder (position : Nat) : List (Parser × Value) → Run → Step (List Value)
  | [], run => (.ok [], run)
  | (parser, input) :: rest, run =>
    match parser input run with
    | (.error failure, run) => (.error (failure.prefixed (.index position)), run)
    | (.ok value, run) =>
      match inOrder (position + 1) rest run with
      | (.error failure, run) => (.error failure, run)
      | (.ok values, run) => (.ok (value :: values), run)

def asArray : Step (List Value) → Step Value
  | (.ok items, run) => (.ok (.array items), run)
  | (.error failure, run) => (.error failure, run)

def array (size : Bounds Nat) (element : Parser) : Parser
  | .array items, run =>
    match size.violation? .arrayLength items.length with
    | some failure => (.error failure, run)
    | none => asArray (inOrder 0 (items.map fun item => (element, item)) run)
  | input, run => (.error (.here (.typeMismatch .array input.kind)), run)

def tuple (parsers : List Parser) : Parser
  | .array items, run =>
    if items.length = parsers.length then asArray (inOrder 0 (parsers.zip items) run)
    else (.error (.here (.tupleLengthMismatch parsers.length items.length)), run)
  | input, run => (.error (.here (.typeMismatch .tuple input.kind)), run)

/-- Runs the parsers of declared fields in order, up to the first failure, which is moved below
its field. A field that is absent is parsed as `undefined` and stays out of the result if nothing
came of it. -/
def fieldsInOrder (entries : Entries Value) :
    List (String × Parser) → Run → Step (List (String × Value))
  | [], run => (.ok [], run)
  | (name, parser) :: rest, run =>
    let present := Entries.find? entries name
    match parser (present.getD .undefined) run with
    | (.error failure, run) => (.error (failure.prefixed (.key name)), run)
    | (.ok value, run) =>
      match fieldsInOrder entries rest run with
      | (.error failure, run) => (.error failure, run)
      | (.ok values, run) =>
        if present.isSome || !value.isUndefined then (.ok ((name, value) :: values), run)
        else (.ok values, run)

/-- Adds the undeclared entries to the parsed fields, drops them, or refuses them. -/
def withUndeclared (policy : UnknownKeys) (undeclared fields : Entries Value) :
    Except Failure Value :=
  match policy with
  | .passthrough => .ok (.object (fields ++ undeclared))
  | .strip => .ok (.object fields)
  | .strict =>
    if undeclared.isEmpty then .ok (.object fields)
    else .error (.here (.unrecognizedKeys (Entries.names undeclared)))

def object (policy : UnknownKeys) (fields : List (String × Parser)) : Parser
  | .object entries, run =>
    match fieldsInOrder entries fields run with
    | (.error failure, run) => (.error failure, run)
    | (.ok values, run) =>
      (withUndeclared policy (Entries.without entries fields) values, run)
  | input, run => (.error (.here (.typeMismatch .object input.kind)), run)

/-- What the candidates of a union make of a value. -/
inductive Trial where
  /-- A candidate accepts it. -/
  | accepted (value : Value)
  /-- The limit on nested schemas stopped the parse, so that no later candidate counts. -/
  | stopped (failure : Failure)
  /-- All candidates refuse it, each with its failure. -/
  | refused (failures : List Failure)

def Trial.after (failure : Failure) : Trial → Trial
  | .refused failures => .refused (failure :: failures)
  | trial => trial

/-- Tries candidates in order, and reports each one that fails. -/
def firstOf (index : Nat) : List (SchemaKind × Parser) → Value → Run → Trial × Run
  | [], _, run => (.refused [], run)
  | (kind, parser) :: rest, input, run =>
    match parser input run with
    | (.ok value, run) => (.accepted value, run)
    | (.error failure, run) =>
      let run := run.emit (.candidateRejected index kind failure.code)
      if failure.isLimit then (.stopped failure, run)
      else
        let (trial, run) := firstOf (index + 1) rest input run
        (trial.after failure, run)

def reported (detail : UnionFailures) (failures : List Failure) : List Failure :=
  match detail with
  | .all => failures
  | .first => failures.take 1

/-- The first candidate that accepts the value. -/
def union (detail : UnionFailures) (candidates : List (SchemaKind × Parser)) : Parser :=
  fun input run =>
    match firstOf 0 candidates input run with
    | (.accepted value, run) => (.ok value, run)
    | (.stopped failure, run) => (.error failure, run)
    | (.refused failures, run) => (.error (.exhausted [] (reported detail failures)), run)

end Parser

def Primitive.check : Primitive → Value → Except Failure Value
  | .undefined, .undefined => .ok .undefined
  | .null, .null => .ok .null
  | .boolean, .bool b => .ok (.bool b)
  | .number bounds, .number x => (bounds.check .number x).map fun _ => .number x
  | .string bounds, .string s =>
    (bounds.check .stringLength s.utf8ByteSize).map fun _ => .string s
  | p, input => .error (.here (.typeMismatch p.kind input.kind))

namespace Schema

def entering (o : Options) (s : Schema) (check : Parser) : Parser :=
  .guarded o.maxDepth (.resolved s.modifiers s.handlesUndefined check)

mutual

/-- The check of a schema's kind, with the modifiers settled already. -/
def check (o : Options) : Schema → Parser
  | .primitive _ p => fun input run => (p.check input, run)
  | .array _ size element => .array size (entering o element (check o element))
  | .tuple _ items => .tuple (enterItems o items)
  | .object _ unknownKeys fields =>
    .object (o.unknownKeys?.getD unknownKeys) (enterFields o fields)
  | .union _ candidates => .union o.unionFailures (enterCandidates o candidates)

def enterItems (o : Options) : List Schema → List Parser
  | [] => []
  | s :: rest => entering o s (check o s) :: enterItems o rest

def enterFields (o : Options) : List (String × Schema) → List (String × Parser)
  | [] => []
  | (name, s) :: rest => (name, entering o s (check o s)) :: enterFields o rest

def enterCandidates (o : Options) : List Schema → List (SchemaKind × Parser)
  | [] => []
  | s :: rest => (s.kind, entering o s (check o s)) :: enterCandidates o rest

end

/-- A schema as part of a run: one more schema is entered, and its modifiers are settled. -/
def enter (o : Options) (s : Schema) : Parser := entering o s (check o s)

theorem enterItems_eq (o : Options) (items : List Schema) :
    enterItems o items = items.map (enter o) := by
  induction items with
  | nil => rfl
  | cons s rest ih => rw [enterItems, ih]; rfl

theorem enterFields_eq (o : Options) (fields : List (String × Schema)) :
    enterFields o fields = fields.map fun f => (f.1, enter o f.2) := by
  induction fields with
  | nil => rfl
  | cons f rest ih => rw [enterFields, ih]; rfl

theorem enterCandidates_eq (o : Options) (candidates : List Schema) :
    enterCandidates o candidates = candidates.map fun s => (s.kind, enter o s) := by
  induction candidates with
  | nil => rfl
  | cons s rest ih => rw [enterCandidates, ih]; rfl

/-- A whole parse. It starts with no schema entered, and reports it if it fails. -/
def parse (s : Schema) (o : Options) (input : Value) (session : Session) :
    Except Failure Value × Session :=
  match s.enter o input ⟨session, 0⟩ with
  | (.error failure, run) =>
    (.error failure, run.toSession.emit (.parseFailed failure.path failure.code))
  | (.ok value, run) => (.ok value, run.toSession)

end Schema

end ValueSchema
