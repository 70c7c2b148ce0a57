import ValueSchema.Proofs.Parser.Loops
import ValueSchema.Proofs.Schema.Nodes

/-!
Which schemas are entered in the course of a run. A visit makes further visits only in the check of
its kind, one after the other, and each of them starts in the run that the earlier ones left.
-/

set_option autoImplicit false
set_option relaxedAutoImplicit false

namespace ValueSchema

def Event.isRejection : Event → Bool
  | .candidateRejected .. => true
  | _ => false

def Run.Rejects (run next : Run) : Prop :=
  ∃ new, next.events = run.events ++ new ∧ ∀ e ∈ new, e.isRejection = true

namespace Run.Rejects

variable {run mid next : Run}

private theorem of_eq (same : next.events = run.events) : run.Rejects next :=
  ⟨[], by rw [same, List.append_nil], fun _ member => (List.not_mem_nil member).elim⟩

private theorem trans (first : run.Rejects mid) (second : mid.Rejects next) : run.Rejects next := by
  obtain ⟨old, before, rejected⟩ := first
  obtain ⟨new, later, rejected'⟩ := second
  exact ⟨old ++ new, by rw [later, before, List.append_assoc],
    List.forall_mem_append.2 ⟨rejected, rejected'⟩⟩

end Run.Rejects

theorem Step.Lawful.rejects {α : Type} {run : Run} {step : Step α} (lawful : Step.Lawful run step)
    (untripped : tripped step.1 = false) : run.Rejects step.2 := by
  obtain ⟨new, later, unfinished, trips⟩ := lawful.events
  refine ⟨new, later, fun e member => ?_⟩
  cases e with
  | candidateRejected index kind code => rfl
  | limitReached limit =>
    rw [trips.1 ⟨limit, member⟩] at untripped
    cases untripped
  | parseFailed path code => exact absurd (unfinished _ member) (by simp [Event.isFinal])

namespace Modifiers

/-- The value that is settled, the default in place of an absent one, and the run when it is
made. -/
def drawn (m : Modifiers) (input : Value) (run : Run) : Value × Run :=
  match input, m.default? with
  | .undefined, some d => run.produce d
  | _, _ => (input, run)

theorem drawn_cases (m : Modifiers) (input : Value) (run : Run) :
    (∃ d, input = .undefined ∧ m.default? = some d ∧ m.drawn input run = run.produce d) ∨
      ((input = .undefined → m.default? = none) ∧ m.drawn input run = (input, run)) := by
  cases input with
  | undefined => cases standing : m.default? <;> simp [drawn, standing]
  | _ => exact .inr ⟨by simp, rfl⟩

@[simp] theorem drawn_depth (m : Modifiers) (input : Value) (run : Run) :
    (m.drawn input run).2.depth = run.depth := by
  rcases m.drawn_cases input run with ⟨d, -, -, eq⟩ | ⟨-, eq⟩
  · rw [eq]
    rfl
  · rw [eq]

@[simp] private theorem drawn_events (m : Modifiers) (input : Value) (run : Run) :
    (m.drawn input run).2.events = run.events := by
  rcases m.drawn_cases input run with ⟨d, -, -, eq⟩ | ⟨-, eq⟩
  · rw [eq, run.produce_events]
  · rw [eq]

end Modifiers

theorem Parser.resolved_eq_drawn (m : Modifiers) (handles : Bool) (check : Parser) (input : Value)
    (run : Run) : resolved m handles check input run =
      settled m handles check (m.drawn input run).1 (m.drawn input run).2 := by
  rcases m.drawn_cases input run with ⟨d, rfl, standing, eq⟩ | ⟨none, eq⟩
  · simp [resolved, standing, eq]
  · rw [resolved_apply_eq_settled none, eq]

namespace Parser

@[simp] private theorem asArray_run (step : Step (List Value)) : (asArray step).2 = step.2 := by
  obtain ⟨result, after⟩ := step
  cases result <;> rfl

theorem array_of_within {size : Bounds Nat} {items : List Value}
    (within : size.violation? .arrayLength items.length = none) (element : Parser) (run : Run) :
    array size element (.array items) run =
      asArray (inOrder 0 (items.map fun item => (element, item)) run) := by
  simp only [array, within]

theorem tuple_of_same {parsers : List Parser} {items : List Value}
    (same : items.length = parsers.length) (run : Run) :
    tuple parsers (.array items) run = asArray (inOrder 0 (parsers.zip items) run) := by
  simp only [tuple, same, if_true]

private theorem object_run (policy : UnknownKeys) (fields : List (String × Parser))
    (entries : Entries Value) (run : Run) :
    (object policy fields (.object entries) run).2 = (fieldsInOrder entries fields run).2 := by
  simp only [object]
  rcases fieldsInOrder entries fields run with ⟨failure | values, after⟩
  · rfl
  · rfl

theorem object_of_error {fields : List (String × Parser)} {entries : Entries Value}
    {run after : Run} {failure : Failure}
    (failed : fieldsInOrder entries fields run = (.error failure, after)) (policy : UnknownKeys) :
    object policy fields (.object entries) run = (.error failure, after) := by
  simp only [object, failed]

end Parser

/-- A turn from a schema to one below it: into a part of the value, or to a candidate for it. -/
inductive Turn where
  | into (segment : Segment)
  | candidate (index : Nat) (kind : SchemaKind)
  deriving DecidableEq

namespace Turn

def segment? : Turn → Option Segment
  | .into segment => some segment
  | .candidate .. => none

def isCandidate : Turn → Bool
  | .into _ => false
  | .candidate .. => true

private def outward : Turn → Failure → Failure
  | .into segment, failure => failure.prefixed segment
  | .candidate .., failure => failure

/-- What is reported before the turn if the limit was tripped over after it. -/
def rejection? : Turn → Option Event
  | .into _ => none
  | .candidate index kind => some (.candidateRejected index kind .recursionLimitExceeded)

end Turn

/-- The turns that lead from a schema to one in it, outermost first. -/
abbrev Way := List Turn

namespace Way

def path (way : Way) : Path := way.filterMap Turn.segment?

def unions (way : Way) : Nat := way.countP Turn.isCandidate

/-- One rejection for each union on the way, innermost first. -/
def rejections (way : Way) : List Event := way.reverse.filterMap Turn.rejection?

theorem length_path_add_unions (way : Way) : way.path.length + way.unions = way.length := by
  induction way with
  | nil => rfl
  | cons turn rest ih =>
    cases turn with
    | into segment =>
      change (path rest).length + 1 + unions rest = rest.length + 1
      rw [← ih, Nat.add_right_comm]
    | candidate index kind =>
      have counted : unions (.candidate index kind :: rest) = unions rest + 1 :=
        List.countP_cons_of_pos rfl
      rw [counted, List.length_cons, ← ih]
      rfl

private theorem rejections_cons (turn : Turn) (way : Way) :
    rejections (turn :: way) = way.rejections ++ turn.rejection?.toList := by
  rw [rejections, rejections, List.reverse_cons, List.filterMap_append]
  cases turn <;> rfl

private theorem outward_path (turn : Turn) (way : Way) (cause : Cause) :
    turn.outward (.plain way.path cause) = .plain (path (turn :: way)) cause := by
  cases turn <;> rfl

end Way

/-- A schema that is entered, for a value and in a run. -/
structure Visit where
  schema : Schema
  input : Value
  run : Run

namespace Visit

variable {o : Options} {x y z : Visit} {turn : Turn} {way : Way} {u : Value} {inner : Run}
  {failure : Failure}

def step (o : Options) (x : Visit) : Step Value := x.schema.enter o x.input x.run

def start (s : Schema) (input : Value) (session : Session) : Visit := ⟨s, input, ⟨session, 0⟩⟩

def Full (o : Options) (x : Visit) : Prop := o.maxDepth ≤ x.run.depth

/-- A visit gets to the check of its kind, with a value and a run. -/
structure Checks (o : Options) (x : Visit) (u : Value) (inner : Run) : Prop where
  room : x.run.depth < o.maxDepth
  drawn : x.schema.modifiers.drawn x.input { x.run with depth := x.run.depth + 1 } = (u, inner)
  closed : x.schema.modifiers.passes u = false
  handled : u = .undefined → x.schema.handlesUndefined = true

private theorem step_of_full (full : x.Full o) :
    x.step o = (.error (.here (.recursionLimitExceeded o.maxDepth)),
      x.run.emit (.limitReached o.maxDepth)) :=
  Schema.enter_of_full o full x.schema x.input

namespace Checks

variable (checks : x.Checks o u inner)

include checks

theorem depth : inner.depth = x.run.depth + 1 := by
  have same := Modifiers.drawn_depth x.schema.modifiers x.input
    { x.run with depth := x.run.depth + 1 }
  rwa [checks.drawn] at same

theorem events : inner.events = x.run.events := by
  have same := Modifiers.drawn_events x.schema.modifiers x.input
    { x.run with depth := x.run.depth + 1 }
  rwa [checks.drawn] at same

theorem step_eq :
    x.step o = ((x.schema.check o u inner).1,
      { (x.schema.check o u inner).2 with
        depth := (x.schema.check o u inner).2.depth - 1 }) := by
  have settled : Parser.settled x.schema.modifiers x.schema.handlesUndefined (x.schema.check o) u
      inner = x.schema.check o u inner := by
    rcases Parser.settled_cases x.schema.modifiers x.schema.handlesUndefined (x.schema.check o) u
      inner with ⟨-, passes⟩ | ⟨-, absent, -, closed⟩ | ⟨eq, -⟩
    · rw [checks.closed] at passes
      cases passes
    · rw [checks.handled absent] at closed
      cases closed
    · exact eq
  rw [step, Schema.enter_eq]
  simp only [Parser.guarded, checks.room, if_true, Parser.resolved_eq_drawn, checks.drawn, settled]

theorem step_eq_iff {result : Except Failure Value} {after : Run} :
    x.step o = (result, after) ↔ ∃ last, x.schema.check o u inner = (result, last) ∧
      after = { last with depth := x.run.depth } := by
  rcases returned : x.schema.check o u inner with ⟨result', last⟩
  have level : last.depth = x.run.depth + 1 := by
    have kept := (x.schema.check_lawful o u inner).depth
    rw [returned] at kept
    exact kept.trans checks.depth
  rw [checks.step_eq, returned, level, Nat.add_sub_cancel]
  constructor
  · rintro ⟨⟩
    exact ⟨last, rfl, rfl⟩
  · rintro ⟨_, ⟨⟩, rfl⟩
    rfl

theorem result_eq : (x.step o).1 = (x.schema.check o u inner).1 := by rw [checks.step_eq]

theorem events_eq : (x.step o).2.events = (x.schema.check o u inner).2.events := by
  rw [checks.step_eq]

end Checks

theorem passes_or_checks {w : Value} {after : Run} (made : x.step o = (.ok w, after)) :
    (∃ inner,
      x.schema.modifiers.drawn x.input { x.run with depth := x.run.depth + 1 } = (w, inner) ∧
      x.schema.modifiers.passes w = true ∧ after.toSession = inner.toSession) ∨
    ∃ u inner, x.Checks o u inner := by
  have room : x.run.depth < o.maxDepth := by
    by_contra full
    rw [step_of_full (Nat.le_of_not_lt full)] at made
    cases made
  rcases drawn : x.schema.modifiers.drawn x.input { x.run with depth := x.run.depth + 1 } with
    ⟨u, inner⟩
  simp only [step, Schema.enter_eq, Parser.guarded, room, if_true, Parser.resolved_eq_drawn,
    drawn] at made
  rcases Parser.settled_cases x.schema.modifiers x.schema.handlesUndefined (x.schema.check o) u
    inner with ⟨settled, passes⟩ | ⟨settled, -⟩ | ⟨-, closed, handled⟩
  · rw [settled] at made
    obtain ⟨same, rfl⟩ := Prod.mk.inj made
    obtain rfl := Except.ok.inj same
    exact .inl ⟨inner, rfl, passes, rfl⟩
  · rw [settled] at made
    cases made
  · exact .inr ⟨u, inner, room, drawn, closed, handled⟩

private theorem cases (o : Options) (x : Visit) :
    x.Full o ∨ ((x.step o).2.events = x.run.events ∧ tripped (x.step o).1 = false) ∨
      ∃ u inner, x.Checks o u inner := by
  by_cases room : x.run.depth < o.maxDepth
  · right
    rcases drawn : x.schema.modifiers.drawn x.input { x.run with depth := x.run.depth + 1 } with
      ⟨u, inner⟩
    have events : inner.events = x.run.events := by
      have same := Modifiers.drawn_events x.schema.modifiers x.input
        { x.run with depth := x.run.depth + 1 }
      rwa [drawn] at same
    simp only [step, Schema.enter_eq, Parser.guarded, room, if_true, Parser.resolved_eq_drawn,
      drawn]
    rcases Parser.settled_cases x.schema.modifiers x.schema.handlesUndefined (x.schema.check o) u
      inner with ⟨eq, -⟩ | ⟨eq, -⟩ | ⟨-, closed, handled⟩
    · rw [eq]
      exact .inl ⟨events, rfl⟩
    · rw [eq]
      exact .inl ⟨events, rfl⟩
    · exact .inr ⟨u, inner, room, drawn, closed, handled⟩
  · exact .inl (Nat.le_of_not_lt room)

/-- The visits that a visit makes in the check of its kind. All that come before in an array, a
tuple or an object succeed, and all candidates that come before refuse. -/
inductive Calls (o : Options) : Visit → Turn → Visit → Prop
  | element {m : Modifiers} {size : Bounds Nat} {element : Schema} {v : Value}
      {run inner next : Run} {items done rest : List Value} {item : Value} {values : List Value}
      (checks : Checks o ⟨.array m size element, v, run⟩ (.array items) inner)
      (within : size.violation? .arrayLength items.length = none)
      (split : items = done ++ item :: rest)
      (before : Parser.inOrder 0 (done.map fun i => (element.enter o, i)) inner =
        (.ok values, next)) :
      Calls o ⟨.array m size element, v, run⟩ (.into (.index done.length)) ⟨element, item, next⟩
  | item {m : Modifiers} {schemas : List Schema} {v : Value} {run inner next : Run}
      {items : List Value} {done rest : List (Schema × Value)} {t : Schema} {item : Value}
      {values : List Value}
      (checks : Checks o ⟨.tuple m schemas, v, run⟩ (.array items) inner)
      (same : items.length = schemas.length)
      (split : schemas.zip items = done ++ (t, item) :: rest)
      (before : Parser.inOrder 0 (done.map fun d => (d.1.enter o, d.2)) inner =
        (.ok values, next)) :
      Calls o ⟨.tuple m schemas, v, run⟩ (.into (.index done.length)) ⟨t, item, next⟩
  | field {m : Modifiers} {unknownKeys : UnknownKeys} {fields done rest : List (String × Schema)}
      {v : Value} {run inner next : Run} {entries : Entries Value} {name : String} {t : Schema}
      {values : List (String × Value)}
      (checks : Checks o ⟨.object m unknownKeys fields, v, run⟩ (.object entries) inner)
      (split : fields = done ++ (name, t) :: rest)
      (before : Parser.fieldsInOrder entries (done.map fun f => (f.1, f.2.enter o)) inner =
        (.ok values, next)) :
      Calls o ⟨.object m unknownKeys fields, v, run⟩ (.into (.key name))
        ⟨t, Parser.fieldValue entries name, next⟩
  | candidate {m : Modifiers} {candidates done rest : List Schema} {v u : Value}
      {run inner next : Run} {t : Schema} {failures : List Failure}
      (checks : Checks o ⟨.union m candidates, v, run⟩ u inner)
      (split : candidates = done ++ t :: rest)
      (before : Parser.firstOf 0 (done.map fun s => (s.kind, s.enter o)) u inner =
        (.refused failures, next)) :
      Calls o ⟨.union m candidates, v, run⟩ (.candidate done.length t.kind) ⟨t, u, next⟩

section Lawful

variable (o : Options)

private theorem elements_lawful (element : Schema) (items : List Value) :
    ∀ x ∈ items.map fun i => (element.enter o, i), x.1.Lawful :=
  List.forall_mem_map.2 fun _ _ => element.enter_lawful o

private theorem items_lawful (items : List (Schema × Value)) :
    ∀ x ∈ items.map fun d => (d.1.enter o, d.2), x.1.Lawful :=
  List.forall_mem_map.2 fun d _ => d.1.enter_lawful o

theorem fields_lawful (fields : List (String × Schema)) :
    ∀ f ∈ fields.map fun f => (f.1, f.2.enter o), f.2.Lawful :=
  List.forall_mem_map.2 fun f _ => f.2.enter_lawful o

theorem candidates_lawful (candidates : List Schema) :
    ∀ c ∈ candidates.map fun s => (s.kind, s.enter o), c.2.Lawful :=
  List.forall_mem_map.2 fun s _ => s.enter_lawful o

end Lawful

section Split

variable {m : Modifiers} {inner : Run}

private theorem check_array_split {size : Bounds Nat} {element : Schema}
    {items done rest : List Value}
    {item : Value} (within : size.violation? .arrayLength items.length = none)
    (split : items = done ++ item :: rest) :
    (Schema.array m size element).check o (.array items) inner =
      Parser.asArray (Parser.inOrder 0 ((done.map fun i => (element.enter o, i)) ++
        (element.enter o, item) :: rest.map fun i => (element.enter o, i)) inner) := by
  rw [Schema.check_array, Parser.array_of_within within, split, List.map_append, List.map_cons]

private theorem check_tuple_split {schemas : List Schema} {items : List Value}
    {done rest : List (Schema × Value)} {t : Schema} {item : Value}
    (same : items.length = schemas.length) (split : schemas.zip items = done ++ (t, item) :: rest) :
    (Schema.tuple m schemas).check o (.array items) inner =
      Parser.asArray (Parser.inOrder 0 ((done.map fun d => (d.1.enter o, d.2)) ++
        (t.enter o, item) :: rest.map fun d => (d.1.enter o, d.2)) inner) := by
  have whole : (schemas.map (Schema.enter o)).zip items =
      (schemas.zip items).map fun d => (d.1.enter o, d.2) := by
    rw [List.zip_map_left]
    rfl
  rw [Schema.check_tuple, Parser.tuple_of_same (by rw [List.length_map, same]), whole, split,
    List.map_append, List.map_cons]

private theorem check_object_split {unknownKeys : UnknownKeys}
    {fields done rest : List (String × Schema)}
    {name : String} {t : Schema} {v : Value} (split : fields = done ++ (name, t) :: rest) :
    (Schema.object m unknownKeys fields).check o v inner =
      Parser.object (o.unknownKeys?.getD unknownKeys) ((done.map fun f => (f.1, f.2.enter o)) ++
        (name, t.enter o) :: rest.map fun f => (f.1, f.2.enter o)) v inner := by
  rw [Schema.check_object, split, List.map_append, List.map_cons]

theorem check_union_split {candidates done rest : List Schema} {t : Schema} {v : Value}
    (split : candidates = done ++ t :: rest) :
    (Schema.union m candidates).check o v inner =
      Parser.union o.unionFailures ((done.map fun s => (s.kind, s.enter o)) ++
        (t.kind, t.enter o) :: rest.map fun s => (s.kind, s.enter o)) v inner := by
  rw [Schema.check_union, split, List.map_append, List.map_cons]

end Split

namespace Calls

theorem starts (calls : Calls o x turn y) :
    x.run.depth < o.maxDepth ∧ y.run.depth = x.run.depth + 1 ∧ x.run.Rejects y.run := by
  have reached : ∀ {α : Type} {x : Visit} {u : Value} {inner : Run} {step : Step α},
      Checks o x u inner → Step.Lawful inner step → tripped step.1 = false →
      x.run.depth < o.maxDepth ∧ step.2.depth = x.run.depth + 1 ∧ x.run.Rejects step.2 :=
    fun checks loop untripped => ⟨checks.room, loop.depth.trans checks.depth,
      (Run.Rejects.of_eq checks.events).trans (loop.rejects untripped)⟩
  cases calls with
  | @element _ _ element _ _ inner _ _ done _ _ _ checks within split before =>
    have loop := Parser.Lawful.inOrder (elements_lawful o element done) 0 inner
    rw [before] at loop
    exact reached checks loop rfl
  | @item _ _ _ _ inner _ _ done _ _ _ _ checks same split before =>
    have loop := Parser.Lawful.inOrder (items_lawful o done) 0 inner
    rw [before] at loop
    exact reached checks loop rfl
  | @field _ _ _ done _ _ _ inner _ entries _ _ _ checks split before =>
    have loop := Parser.Lawful.fieldsInOrder (fields_lawful o done) entries inner
    rw [before] at loop
    exact reached checks loop rfl
  | @candidate _ _ done _ _ u _ inner _ _ _ checks split before =>
    have loop := (Parser.Lawful.firstOf (candidates_lawful o done) .all 0 u inner).1
    rw [before] at loop
    exact reached checks loop rfl

private theorem stops (calls : Calls o x turn y) {failure : Failure}
    (failed : (y.step o).1 = .error failure) (limit : failure.isLimit = true) :
    (x.step o).1 = .error (turn.outward failure) ∧
      (x.step o).2.events = (y.step o).2.events ++ turn.rejection?.toList := by
  rcases returned : y.step o with ⟨result, after⟩
  obtain rfl : result = .error failure := by rw [← failed, returned]
  cases calls with
  | @element _ _ element _ _ _ _ _ _ _ item _ checks within split before =>
    rw [checks.result_eq, checks.events_eq, check_array_split within split,
      Parser.inOrder_stops (x := (element.enter o, item)) before returned]
    simp [Parser.asArray, Turn.outward, Turn.rejection?]
  | @item _ _ _ _ _ _ _ _ _ t item _ checks same split before =>
    rw [checks.result_eq, checks.events_eq, check_tuple_split same split,
      Parser.inOrder_stops (x := (t.enter o, item)) before returned]
    simp [Parser.asArray, Turn.outward, Turn.rejection?]
  | @field _ _ _ _ _ _ _ _ _ _ name t _ checks split before =>
    rw [checks.result_eq, checks.events_eq, check_object_split split, Parser.object_of_error
      (Parser.fieldsInOrder_stops (f := (name, t.enter o)) before returned)]
    simp [Turn.outward, Turn.rejection?]
  | @candidate _ _ _ _ _ _ _ _ _ t _ checks split before =>
    rw [checks.result_eq, checks.events_eq, check_union_split split, Parser.union_eq,
      Parser.firstOf_stops (c := (t.kind, t.enter o)) before returned limit]
    have code : failure.code = .recursionLimitExceeded := by simpa [Failure.isLimit] using limit
    simp [Turn.outward, Turn.rejection?, Parser.Trial.outcome, Run.emit, Session.emit, code]

private theorem reports (calls : Calls o x turn y) : (y.step o).2.events <+:
    (x.step o).2.events := by
  cases calls with
  | @element _ _ element _ _ _ _ _ _ rest item _ checks within split before =>
    rw [checks.events_eq, check_array_split within split, Parser.asArray_run]
    exact Parser.inOrder_reports (elements_lawful o element rest) before (element.enter o, item)
  | @item _ _ _ _ _ _ _ _ rest t item _ checks same split before =>
    rw [checks.events_eq, check_tuple_split same split, Parser.asArray_run]
    exact Parser.inOrder_reports (items_lawful o rest) before (t.enter o, item)
  | @field _ _ _ _ rest _ _ _ _ _ name t _ checks split before =>
    rw [checks.events_eq, check_object_split split, Parser.object_run]
    exact Parser.fieldsInOrder_reports (fields_lawful o rest) before (name, t.enter o)
  | @candidate _ _ _ rest _ _ _ _ _ t _ checks split before =>
    rw [checks.events_eq, check_union_split split, Parser.union_eq]
    exact Parser.firstOf_reports (candidates_lawful o rest) before (t.kind, t.enter o)

private theorem everywhere {P : Schema → Prop} (calls : Calls o x turn y)
    (all : x.schema.Everywhere P) : y.schema.Everywhere P := by
  cases calls with
  | element checks within split before => exact all.element
  | item checks same split before =>
    have member := List.of_mem_zip (split ▸ List.mem_append_right _ List.mem_cons_self)
    exact all.item member.1
  | field checks split before =>
    subst split
    exact all.field (List.mem_append_right _ List.mem_cons_self)
  | candidate checks split before =>
    subst split
    exact all.candidate (List.mem_append_right _ List.mem_cons_self)

end Calls

theorem exists_split_of_map {α β : Type} {f : α → β} {l : List α} {before after : List β} {b : β}
    (split : l.map f = before ++ b :: after) :
    ∃ done a rest, l = done ++ a :: rest ∧ done.map f = before ∧ f a = b := by
  obtain ⟨done, others, rfl, front, back⟩ := List.map_eq_append_iff.1 split
  obtain ⟨a, rest, rfl, here, -⟩ := List.map_eq_cons_iff.1 back
  exact ⟨done, a, rest, rfl, front, here⟩

section Tripping

variable {m : Modifiers} {v : Value} {run : Run}

private theorem tripping_element {size : Bounds Nat} {element : Schema} {items : List Value}
    (checks : Checks o ⟨.array m size element, v, run⟩ (.array items) inner)
    (trips : tripped (Parser.array size (element.enter o) (.array items) inner).1 = true) :
    ∃ turn y, Calls o ⟨.array m size element, v, run⟩ turn y ∧ tripped (y.step o).1 = true := by
  cases within : size.violation? .arrayLength items.length with
  | some failure =>
    obtain ⟨b, -, -, rfl⟩ := Bounds.of_violation?_eq_some within
    simp only [Parser.array, within] at trips
    cases trips
  | none =>
    rw [Parser.array_of_within within] at trips
    rcases returned : Parser.inOrder 0 (items.map fun i => (element.enter o, i)) inner with
      ⟨failure | values, after⟩
    · obtain ⟨done', x, rest', values, mid, below, split, before, fails, rfl⟩ :=
        Parser.inOrder_error_split returned
      obtain ⟨done, item, rest, parts, rfl, rfl⟩ := exists_split_of_map split
      refine ⟨_, _, .element checks within parts before, ?_⟩
      have called : step o ⟨element, item, mid⟩ = (.error below, after) := fails
      rw [called]
      simpa [returned, Parser.asArray] using trips
    · rw [returned] at trips
      cases trips

private theorem tripping_item {schemas : List Schema} {items : List Value}
    (checks : Checks o ⟨.tuple m schemas, v, run⟩ (.array items) inner)
    (trips : tripped (Parser.tuple (schemas.map (Schema.enter o)) (.array items) inner).1 = true) :
    ∃ turn y, Calls o ⟨.tuple m schemas, v, run⟩ turn y ∧ tripped (y.step o).1 = true := by
  by_cases same : items.length = schemas.length
  · rw [Parser.tuple_of_same (by rw [List.length_map, same]), List.zip_map_left] at trips
    rcases returned : Parser.inOrder 0
      ((schemas.zip items).map (Prod.map (Schema.enter o) id)) inner with
      ⟨failure | values, after⟩
    · obtain ⟨done', x, rest', values, mid, below, split, before, fails, rfl⟩ :=
        Parser.inOrder_error_split returned
      obtain ⟨done, ⟨t, item⟩, rest, parts, rfl, rfl⟩ := exists_split_of_map split
      refine ⟨_, _, .item checks same parts before, ?_⟩
      have called : step o ⟨t, item, mid⟩ = (.error below, after) := fails
      rw [called]
      simpa [returned, Parser.asArray] using trips
    · rw [returned] at trips
      cases trips
  · simp only [Parser.tuple, List.length_map, same, if_false] at trips
    cases trips

private theorem tripping_field {unknownKeys policy : UnknownKeys} {fields : List (String × Schema)}
    {entries : Entries Value}
    (checks : Checks o ⟨.object m unknownKeys fields, v, run⟩ (.object entries) inner)
    (trips : tripped (Parser.object policy (fields.map fun f => (f.1, f.2.enter o))
      (.object entries) inner).1 = true) :
    ∃ turn y, Calls o ⟨.object m unknownKeys fields, v, run⟩ turn y ∧
      tripped (y.step o).1 = true := by
  rcases returned : Parser.fieldsInOrder entries (fields.map fun f => (f.1, f.2.enter o)) inner with
    ⟨failure | values, after⟩
  · obtain ⟨done', f, rest', values, mid, below, split, before, fails, rfl⟩ :=
      Parser.fieldsInOrder_error_split returned
    obtain ⟨done, ⟨name, t⟩, rest, parts, rfl, rfl⟩ := exists_split_of_map split
    refine ⟨_, _, .field checks parts before, ?_⟩
    rw [Parser.object_of_error returned] at trips
    have called : step o ⟨t, Parser.fieldValue entries name, mid⟩ = (.error below, after) := fails
    rw [called]
    simpa using trips
  · simp only [Parser.object, returned, Parser.withUndeclared_eq] at trips
    split at trips <;> cases trips

private theorem tripping_candidate {candidates : List Schema} {detail : UnionFailures}
    (checks : Checks o ⟨.union m candidates, v, run⟩ u inner)
    (trips : tripped (Parser.union detail (candidates.map fun s => (s.kind, s.enter o)) u inner).1 =
      true) :
    ∃ turn y, Calls o ⟨.union m candidates, v, run⟩ turn y ∧ tripped (y.step o).1 = true := by
  rw [Parser.union_eq] at trips
  rcases returned : Parser.firstOf 0 (candidates.map fun s => (s.kind, s.enter o)) u inner with
    ⟨value | failure | failures, after⟩
  · rw [returned] at trips
    cases trips
  · obtain ⟨done', c, rest', failures, mid, stop, split, before, fails, limit, rfl⟩ :=
      Parser.firstOf_stopped_split returned
    obtain ⟨done, t, rest, parts, rfl, rfl⟩ := exists_split_of_map split
    refine ⟨_, _, .candidate checks parts before, ?_⟩
    have called : step o ⟨t, u, mid⟩ = (.error failure, stop) := fails
    rw [called, tripped_error, limit]
  · rw [returned] at trips
    cases trips

end Tripping

private theorem Checks.tripping_call (checks : x.Checks o u inner)
    (trips : tripped (x.step o).1 = true) :
    ∃ turn y, Calls o x turn y ∧ tripped (y.step o).1 = true := by
  rw [checks.result_eq] at trips
  obtain ⟨s, v, run⟩ := x
  cases s with
  | primitive m p =>
    change tripped (p.check u) = true at trips
    rcases p.check_cases u with eq | ⟨eq, -⟩ | ⟨cause, eq, violates⟩
    · rw [eq] at trips
      cases trips
    · rw [eq] at trips
      cases trips
    · rw [eq] at trips
      cases violates <;> cases trips
  | array m size element =>
    rw [Schema.check_array] at trips
    cases u with
    | array items => exact tripping_element checks trips
    | _ => cases trips
  | tuple m schemas =>
    rw [Schema.check_tuple] at trips
    cases u with
    | array items => exact tripping_item checks trips
    | _ => cases trips
  | object m unknownKeys fields =>
    rw [Schema.check_object] at trips
    cases u with
    | object entries => exact tripping_field checks trips
    | _ => cases trips
  | union m candidates =>
    rw [Schema.check_union] at trips
    exact tripping_candidate checks trips

/-- The visits that are made in the course of a visit, with the ways that lead to them. -/
inductive Enters (o : Options) : Visit → Way → Visit → Prop
  | here (x : Visit) : Enters o x [] x
  | further {x y z : Visit} {turn : Turn} {way : Way} (calls : Calls o x turn y)
      (enters : Enters o y way z) : Enters o x (turn :: way) z

namespace Enters

theorem depth (enters : Enters o x way z) : z.run.depth = x.run.depth + way.length := by
  induction enters with
  | here x => rfl
  | further calls _ ih =>
    rw [ih, calls.starts.2.1, List.length_cons]
    omega

theorem depth_le (enters : Enters o x way z) (within : x.run.depth ≤ o.maxDepth) :
    z.run.depth ≤ o.maxDepth := by
  induction enters with
  | here x => exact within
  | further calls _ ih =>
    obtain ⟨room, deeper, -⟩ := calls.starts
    exact ih (by omega)

theorem rejects (enters : Enters o x way z) : x.run.Rejects z.run := by
  induction enters with
  | here x => exact .of_eq rfl
  | further calls _ ih => exact calls.starts.2.2.trans ih

theorem reports (enters : Enters o x way z) : (z.step o).2.events <+: (x.step o).2.events := by
  induction enters with
  | here x => exact List.prefix_refl _
  | further calls _ ih => exact ih.trans calls.reports

theorem unions_eq_zero (enters : Enters o x way z) (unionless : x.schema.WithoutUnions) :
    way.unions = 0 := by
  induction enters with
  | here x => rfl
  | @further _ _ _ turn way calls _ ih =>
    have later := ih (calls.everywhere unionless)
    cases calls with
    | candidate checks split before => exact (unionless.self rfl).elim
    | _ => exact later

/-- A visit that trips over the limit ends all visits around it: they fail at its place, and each
union reports that it rejects the candidate. -/
theorem stops (enters : Enters o x way z) (full : z.Full o) :
    (x.step o).1 = .error (.plain way.path (.recursionLimitExceeded o.maxDepth)) ∧
      (x.step o).2.events =
        z.run.events ++ .limitReached o.maxDepth :: way.rejections := by
  induction enters with
  | here x =>
    rw [step_of_full full]
    exact ⟨rfl, rfl⟩
  | @further _ _ _ turn way calls _ ih =>
    obtain ⟨failed, events⟩ := ih full
    obtain ⟨outer, later⟩ := calls.stops failed rfl
    refine ⟨by rw [outer, Way.outward_path], ?_⟩
    rw [later, events, Way.rejections_cons]
    simp

end Enters

theorem exists_full (trips : tripped (x.step o).1 = true) :
    ∃ way z, Enters o x way z ∧ z.Full o := by
  -- the depth that is left decreases with every call
  induction left : o.maxDepth - x.run.depth using Nat.strongRecOn generalizing x with
  | ind left' ih =>
    rcases x.cases o with full | ⟨-, untripped⟩ | ⟨u, inner, checks⟩
    · exact ⟨[], x, .here x, full⟩
    · rw [trips] at untripped
      cases untripped
    · obtain ⟨turn, y, calls, trips⟩ := checks.tripping_call trips
      obtain ⟨room, deeper, -⟩ := calls.starts
      obtain ⟨way, z, enters, full⟩ := ih (o.maxDepth - y.run.depth) (by omega) trips rfl
      exact ⟨turn :: way, z, .further calls enters, full⟩

end Visit

end ValueSchema
