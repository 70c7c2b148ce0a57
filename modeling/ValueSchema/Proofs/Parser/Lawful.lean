import ValueSchema.Proofs.Failure.Tree
import ValueSchema.Proofs.Parser.Cases

/-!
What every step of a run keeps: the count of entered schemas, the events so far, and that the limit
is reported exactly if it is the failure that comes out.
-/

set_option autoImplicit false
set_option relaxedAutoImplicit false

namespace ValueSchema

variable {α β : Type}

/-- Whether a result is the failure of the limit on nested schemas. -/
def tripped : Except Failure α → Bool
  | .error failure => failure.isLimit
  | .ok _ => false

@[simp] theorem tripped_ok (x : α) : tripped (.ok x : Except Failure α) = false := rfl

@[simp] theorem tripped_error (failure : Failure) :
    tripped (.error failure : Except Failure α) = failure.isLimit := rfl

def Event.isFinal : Event → Bool
  | .parseFailed .. => true
  | _ => false

/-- No failure below this one is the failure of the limit. -/
def Failure.Clean (failure : Failure) : Prop :=
  failure.isLimit = false → ∀ f ∈ failure.nodes, f.isLimit = false

private theorem Failure.clean_plain (path : Path) (cause : Cause) :
    (Failure.plain path cause).Clean := by
  intro limit f member
  obtain rfl : f = .plain path cause := by simpa [Failure.nodes] using member
  exact limit

private theorem Failure.Clean.prefixed {failure : Failure} (clean : failure.Clean)
    (segment : Segment) : (failure.prefixed segment).Clean := by
  intro limit f member
  rw [Failure.isLimit_prefixed] at limit
  rw [Failure.nodes_prefixed, List.mem_map] at member
  obtain ⟨g, below, rfl⟩ := member
  rw [Failure.isLimit_prefixed]
  exact clean limit g below

private theorem Failure.clean_exhausted {candidates : List Failure} (path : Path)
    (below : ∀ f ∈ candidates, f.isLimit = false ∧ f.Clean) :
    (Failure.exhausted path candidates).Clean := by
  intro _ f member
  rcases Failure.mem_nodes_exhausted.1 member with rfl | ⟨c, here, inside⟩
  · rfl
  · obtain ⟨other, clean⟩ := below c here
    exact clean other f inside

namespace Step

/-- What a step keeps of the run that it starts from. -/
structure Lawful (run : Run) (step : Step α) : Prop where
  depth : step.2.depth = run.depth
  events : ∃ new, step.2.events = run.events ++ new ∧ (∀ e ∈ new, e.isFinal = false) ∧
    ((∃ limit, Event.limitReached limit ∈ new) ↔ tripped step.1 = true)
  clean : ∀ failure, step.1 = .error failure → failure.Clean

namespace Lawful

variable {run mid after : Run}

private theorem ok (run : Run) (x : α) : Lawful run ((.ok x, run) : Step α) where
  depth := rfl
  events := ⟨[], by simp⟩
  clean _ h := by cases h

private theorem plain (run : Run) (cause : Cause) (other : (Failure.here cause).isLimit = false) :
    Lawful run ((.error (.here cause), run) : Step α) where
  depth := rfl
  events := ⟨[], by simp [other]⟩
  clean _ h := by
    cases h
    exact Failure.clean_plain [] cause

private theorem after_ok {x : α} {step : Step β} (first : Lawful run ((.ok x, mid) : Step α))
    (second : Lawful mid step) : Lawful run step where
  depth := second.depth.trans first.depth
  events := by
    obtain ⟨old, before, unfinished, quiet⟩ := first.events
    obtain ⟨new, later, unfinished', trips⟩ := second.events
    have none_old : ¬ ∃ limit, Event.limitReached limit ∈ old := by simpa using quiet
    refine ⟨old ++ new, by rw [later, before, List.append_assoc],
      List.forall_mem_append.2 ⟨unfinished, unfinished'⟩, ?_⟩
    rw [← trips]
    constructor
    · rintro ⟨limit, member⟩
      rcases List.mem_append.1 member with member | member
      · exact (none_old ⟨limit, member⟩).elim
      · exact ⟨limit, member⟩
    · rintro ⟨limit, member⟩
      exact ⟨limit, List.mem_append_right old member⟩
  clean := second.clean

private theorem map_ok {x : α} (step : Lawful run ((.ok x, after) : Step α)) (y : β) :
    Lawful run ((.ok y, after) : Step β) where
  depth := step.depth
  events := step.events
  clean _ h := by cases h

private theorem map_error {failure other : Failure}
    (step : Lawful run ((.error failure, after) : Step α))
    (same : other.isLimit = failure.isLimit) (clean : other.Clean) :
    Lawful run ((.error other, after) : Step β) where
  depth := step.depth
  events := by
    obtain ⟨new, later, unfinished, trips⟩ := step.events
    exact ⟨new, later, unfinished, by rw [trips, tripped_error, tripped_error, same]⟩
  clean _ h := by
    cases h
    exact clean

private theorem prefixed {failure : Failure} (step : Lawful run ((.error failure, after) : Step α))
    (segment : Segment) : Lawful run ((.error (failure.prefixed segment), after) : Step β) :=
  step.map_error (failure.isLimit_prefixed segment) ((step.clean failure rfl).prefixed segment)

private theorem error {failure : Failure} (step : Lawful run ((.error failure, after) : Step α)) :
    Lawful run ((.error failure, after) : Step β) :=
  step.map_error rfl (step.clean failure rfl)

private theorem emit_rejected {step : Step α} (lawful : Lawful run step) (index : Nat)
    (kind : SchemaKind) (code : FailureCode) :
    Lawful run (step.1, step.2.emit (.candidateRejected index kind code)) where
  depth := lawful.depth
  events := by
    obtain ⟨new, later, unfinished, trips⟩ := lawful.events
    refine ⟨new ++ [.candidateRejected index kind code], ?_, ?_, ?_⟩
    · simp [Run.emit, Session.emit, later]
    · exact List.forall_mem_append.2 ⟨unfinished, by simp [Event.isFinal]⟩
    · simpa using trips
  clean := lawful.clean

private theorem after_error {failure : Failure} {step : Step β} (other : failure.isLimit = false)
    (first : Lawful run ((.error failure, mid) : Step α)) (second : Lawful mid step) :
    Lawful run step := by
  have passed : Lawful run ((.ok (), mid) : Step Unit) :=
    { depth := first.depth
      events := by simpa [other] using first.events
      clean := fun _ h => by cases h }
  exact passed.after_ok second

end Lawful

end Step

namespace Run

@[simp] theorem produce_events (run : Run) (d : Default) :
    (run.produce d).2.events = run.events := by
  cases d <;> rfl

@[simp] theorem emit_depth (run : Run) (event : Event) : (run.emit event).depth = run.depth := rfl

end Run

namespace Parser

def Lawful (p : Parser) : Prop := ∀ input run, Step.Lawful run (p input run)

namespace Lawful

theorem keeps_depth {p : Parser} (lawful : p.Lawful) (depth : Nat) (input : Value) (run : Run)
    (start : run.depth = depth) : (p input run).2.depth = depth :=
  (lawful input run).depth.trans start

private theorem guarded {p : Parser} (inner : p.Lawful) (limit : Nat) :
    (Parser.guarded limit p).Lawful := by
  intro input run
  by_cases room : run.depth < limit
  · have step := inner input { run with depth := run.depth + 1 }
    cases returned : p input { run with depth := run.depth + 1 } with
    | mk result after =>
      rw [returned] at step
      have restored : after.depth - 1 = run.depth := by
        have entered : after.depth = run.depth + 1 := step.depth
        omega
      simp only [Parser.guarded, room, if_true, returned]
      exact { depth := restored, events := step.events, clean := step.clean }
  · simp only [Parser.guarded, room, if_false]
    exact
      { depth := rfl
        events := ⟨[.limitReached limit], rfl, by simp [Event.isFinal],
          by simp [Failure.here, Failure.isLimit, Failure.code, Cause.code]⟩
        clean := fun _ h => by
          cases h
          exact Failure.clean_plain [] _ }

private theorem settled {check : Parser} (inner : check.Lawful) (m : Modifiers) (handles : Bool) :
    (Parser.settled m handles check).Lawful := by
  intro input run
  rcases settled_cases m handles check input run with ⟨eq, -⟩ | ⟨eq, -⟩ | ⟨eq, -⟩
  · rw [eq]
    exact Step.Lawful.ok run input
  · rw [eq]
    exact Step.Lawful.plain run .missing rfl
  · rw [eq]
    exact inner input run

theorem resolved {check : Parser} (inner : check.Lawful) (m : Modifiers) (handles : Bool) :
    (Parser.resolved m handles check).Lawful := by
  intro input run
  have plain := inner.settled m handles
  simp only [Parser.resolved]
  split
  next d _ =>
    have step := plain (run.produce d).1 (run.produce d).2
    exact
      { depth := step.depth
        events := by simpa using step.events
        clean := step.clean }
  next => exact plain _ run

theorem inOrder {items : List (Parser × Value)} (inner : ∀ x ∈ items, x.1.Lawful)
    (position : Nat) (run : Run) : Step.Lawful run (Parser.inOrder position items run) := by
  induction items generalizing position run with
  | nil => exact Step.Lawful.ok run []
  | cons x rest ih =>
    have first := inner x List.mem_cons_self x.2 run
    cases returned : x.1 x.2 run with
    | mk result mid =>
      rw [returned] at first
      cases result with
      | error failure =>
        simp only [Parser.inOrder, returned]
        exact first.prefixed (.index position)
      | ok value =>
        have later := ih (fun y member => inner y (List.mem_cons_of_mem x member))
          (position + 1) mid
        cases others : Parser.inOrder (position + 1) rest mid with
        | mk result after =>
          rw [others] at later
          cases result with
          | error failure =>
            simp only [Parser.inOrder, returned, others]
            exact first.after_ok later
          | ok values =>
            simp only [Parser.inOrder, returned, others]
            exact first.after_ok (later.map_ok (value :: values))

private theorem asArray {run : Run} {step : Step (List Value)} (lawful : Step.Lawful run step) :
    Step.Lawful run (Parser.asArray step) := by
  obtain ⟨result, after⟩ := step
  cases result with
  | error failure => exact lawful.error
  | ok values => exact lawful.map_ok (Value.array values)

private theorem array {element : Parser} (inner : element.Lawful) (size : Bounds Nat) :
    (Parser.array size element).Lawful := by
  intro input run
  cases input with
  | array items =>
    simp only [Parser.array]
    cases violated : size.violation? .arrayLength items.length with
    | some failure =>
      obtain ⟨b, -, -, rfl⟩ := Bounds.of_violation?_eq_some violated
      exact Step.Lawful.plain run _ rfl
    | none =>
      refine asArray (inOrder ?_ 0 run)
      intro x member
      obtain ⟨item, -, rfl⟩ := List.mem_map.1 member
      exact inner
  | _ => exact Step.Lawful.plain run _ rfl

private theorem tuple {parsers : List Parser} (inner : ∀ p ∈ parsers, p.Lawful) :
    (Parser.tuple parsers).Lawful := by
  intro input run
  cases input with
  | array items =>
    simp only [Parser.tuple]
    split
    · exact asArray (inOrder (fun x member => inner x.1 (List.of_mem_zip member).1) 0 run)
    · exact Step.Lawful.plain run _ rfl
  | _ => exact Step.Lawful.plain run _ rfl

theorem fieldsInOrder {fields : List (String × Parser)} (inner : ∀ f ∈ fields, f.2.Lawful)
    (entries : Entries Value) (run : Run) :
    Step.Lawful run (Parser.fieldsInOrder entries fields run) := by
  induction fields generalizing run with
  | nil => exact Step.Lawful.ok run []
  | cons field rest ih =>
    have first := inner field List.mem_cons_self (fieldValue entries field.1) run
    cases returned : field.2 (fieldValue entries field.1) run with
    | mk result mid =>
      rw [returned] at first
      cases result with
      | error failure =>
        simp only [fieldsInOrder_cons, returned]
        exact first.prefixed (.key field.1)
      | ok value =>
        have later := ih (fun f member => inner f (List.mem_cons_of_mem field member)) mid
        cases others : Parser.fieldsInOrder entries rest mid with
        | mk result after =>
          rw [others] at later
          cases result with
          | error failure =>
            simp only [fieldsInOrder_cons, returned, others]
            exact first.after_ok later
          | ok values =>
            simp only [fieldsInOrder_cons, returned, others]
            split
            · exact first.after_ok (later.map_ok _)
            · exact first.after_ok (later.map_ok _)

private theorem object {fields : List (String × Parser)} (inner : ∀ f ∈ fields, f.2.Lawful)
    (policy : UnknownKeys) : (Parser.object policy fields).Lawful := by
  intro input run
  cases input with
  | object entries =>
    have step := fieldsInOrder inner entries run
    cases returned : Parser.fieldsInOrder entries fields run with
    | mk result after =>
      rw [returned] at step
      cases result with
      | error failure =>
        simp only [Parser.object, returned]
        exact step.error
      | ok values =>
        simp only [Parser.object, returned, withUndeclared]
        cases policy with
        | passthrough => exact step.map_ok _
        | strip => exact step.map_ok _
        | strict =>
          by_cases none : (Entries.without entries fields).isEmpty = true
          · simp only [none, if_true]
            exact step.map_ok _
          · simp only [none]
            exact step.after_ok (Step.Lawful.plain after _ rfl)
  | _ => exact Step.Lawful.plain run _ rfl

end Lawful

theorem mem_of_mem_reported {detail : UnionFailures} {failures : List Failure} {failure : Failure}
    (member : failure ∈ reported detail failures) : failure ∈ failures := by
  cases detail with
  | all => exact member
  | first => exact List.mem_of_mem_take member

def Trial.outcome (detail : UnionFailures) : Trial → Except Failure Value
  | .accepted value => .ok value
  | .stopped failure => .error failure
  | .refused failures => .error (.exhausted [] (reported detail failures))

theorem union_eq (detail : UnionFailures) (candidates : List (SchemaKind × Parser)) (input : Value)
    (run : Run) :
    Parser.union detail candidates input run =
      ((firstOf 0 candidates input run).1.outcome detail, (firstOf 0 candidates input run).2) := by
  simp only [Parser.union]
  rcases firstOf 0 candidates input run with ⟨trial, after⟩
  cases trial <;> rfl

namespace Lawful

theorem firstOf {candidates : List (SchemaKind × Parser)} (inner : ∀ c ∈ candidates, c.2.Lawful)
    (detail : UnionFailures) (index : Nat) (input : Value) (run : Run) :
    Step.Lawful run ((Parser.firstOf index candidates input run).1.outcome detail,
      (Parser.firstOf index candidates input run).2) ∧
    ∀ failures, (Parser.firstOf index candidates input run).1 = .refused failures →
      ∀ f ∈ failures, f.isLimit = false ∧ f.Clean := by
  induction candidates generalizing index run with
  | nil =>
    have none_clean : (Failure.exhausted [] (reported detail [])).Clean :=
      Failure.clean_exhausted [] fun f member => by cases mem_of_mem_reported member
    have quiet : Step.Lawful run ((.error (.here .missing), run) : Step Value) :=
      Step.Lawful.plain run .missing rfl
    refine ⟨quiet.map_error rfl none_clean, ?_⟩
    intro failures refused f member
    cases refused
    cases member
  | cons candidate rest ih =>
    have first := inner candidate List.mem_cons_self input run
    cases returned : candidate.2 input run with
    | mk result mid =>
      rw [returned] at first
      cases result with
      | ok value =>
        simp only [Parser.firstOf, returned]
        exact ⟨first, fun _ refused => by cases refused⟩
      | error failure =>
        have rejected := first.emit_rejected index candidate.1 failure.code
        by_cases limit : failure.isLimit = true
        · simp only [Parser.firstOf, returned, limit, if_true]
          exact ⟨rejected, fun _ refused => by cases refused⟩
        · have other : failure.isLimit = false := by simpa using limit
          obtain ⟨later, clean⟩ := ih
            (fun c member => inner c (List.mem_cons_of_mem candidate member)) (index + 1)
            (mid.emit (.candidateRejected index candidate.1 failure.code))
          have both := rejected.after_error other later
          simp only [Parser.firstOf, returned, limit]
          cases others : Parser.firstOf (index + 1) rest input
              (mid.emit (.candidateRejected index candidate.1 failure.code)) with
          | mk trial after =>
            rw [others] at both clean
            cases trial with
            | accepted value => exact ⟨both, fun _ refused => by cases refused⟩
            | stopped stop => exact ⟨both, fun _ refused => by cases refused⟩
            | refused failures =>
              have all_clean : ∀ f ∈ failure :: failures, f.isLimit = false ∧ f.Clean := by
                intro f member
                rcases List.mem_cons.1 member with rfl | member
                · exact ⟨other, first.clean f rfl⟩
                · exact clean failures rfl f member
              refine ⟨both.map_error rfl (Failure.clean_exhausted [] ?_), ?_⟩
              · exact fun f member => all_clean f (mem_of_mem_reported member)
              · intro fs refused
                cases refused
                exact all_clean

private theorem union {candidates : List (SchemaKind × Parser)}
    (inner : ∀ c ∈ candidates, c.2.Lawful)
    (detail : UnionFailures) : (Parser.union detail candidates).Lawful := by
  intro input run
  rw [union_eq]
  exact (firstOf inner detail 0 input run).1

end Lawful

end Parser

namespace Schema

variable (o : Options)

theorem enter_eq (s : Schema) :
    s.enter o = .guarded o.maxDepth (.resolved s.modifiers s.handlesUndefined (s.check o)) := rfl

theorem enter_of_full {run : Run} (full : o.maxDepth ≤ run.depth) (s : Schema) (v : Value) :
    s.enter o v run = (.error (.here (.recursionLimitExceeded o.maxDepth)),
      run.emit (.limitReached o.maxDepth)) := by
  simp only [enter_eq, Parser.guarded, Nat.not_lt.2 full, if_false]

theorem check_array (m : Modifiers) (size : Bounds Nat) (element : Schema) :
    (array m size element).check o = .array size (element.enter o) := rfl

theorem check_tuple (m : Modifiers) (items : List Schema) :
    (tuple m items).check o = .tuple (items.map (enter o)) := by
  rw [check, enterItems_eq]

theorem check_object (m : Modifiers) (unknownKeys : UnknownKeys) (fields : List (String × Schema)) :
    (object m unknownKeys fields).check o =
      .object (o.unknownKeys?.getD unknownKeys) (fields.map fun f => (f.1, f.2.enter o)) := by
  rw [check, enterFields_eq]

theorem check_union (m : Modifiers) (candidates : List Schema) :
    (union m candidates).check o =
      .union o.unionFailures (candidates.map fun s => (s.kind, s.enter o)) := by
  rw [check, enterCandidates_eq]

/-- What holds of primitive checks, and of every combinator over parsers it holds of, holds of
every schema. -/
theorem enter_induction {Q : Parser → Prop}
    (primitive : ∀ p : Primitive, Q fun input run => (p.check input, run))
    (array : ∀ size element, Q element → Q (.array size element))
    (tuple : ∀ parsers, (∀ p ∈ parsers, Q p) → Q (.tuple parsers))
    (object : ∀ policy fields, (∀ f ∈ fields, Q f.2) → Q (.object policy fields))
    (union : ∀ candidates, (∀ c ∈ candidates, Q c.2) → Q (.union o.unionFailures candidates))
    (entering : ∀ m handles check, Q check → Q (.guarded o.maxDepth (.resolved m handles check)))
    (s : Schema) : Q (s.enter o) := by
  induction s using Schema.induction with
  | primitive m p => exact entering _ _ _ (primitive p)
  | array m size element ih => exact entering _ _ _ (array size _ ih)
  | tuple m items ih =>
    refine entering _ _ _ ?_
    rw [check_tuple]
    refine tuple _ fun p member => ?_
    obtain ⟨s, below, rfl⟩ := List.mem_map.1 member
    exact ih s below
  | object m unknownKeys fields ih =>
    refine entering _ _ _ ?_
    rw [check_object]
    refine object _ _ fun f member => ?_
    obtain ⟨g, below, rfl⟩ := List.mem_map.1 member
    exact ih g below
  | union m candidates ih =>
    refine entering _ _ _ ?_
    rw [check_union]
    refine union _ fun c member => ?_
    obtain ⟨s, below, rfl⟩ := List.mem_map.1 member
    exact ih s below

private theorem primitive_lawful (p : Primitive) : Parser.Lawful fun input run =>
    (p.check input, run) := by
  intro input run
  change Step.Lawful run (p.check input, run)
  rcases p.check_cases input with accepted | ⟨mismatch, -⟩ | ⟨cause, refused, violates⟩
  · rw [accepted]
    exact Step.Lawful.ok run input
  · rw [mismatch]
    exact Step.Lawful.plain run _ rfl
  · rw [refused]
    refine Step.Lawful.plain run cause ?_
    cases violates <;> rfl

theorem enter_lawful (s : Schema) : (s.enter o).Lawful :=
  enter_induction o primitive_lawful (fun size _ inner => inner.array size)
    (fun _ inner => .tuple inner) (fun policy _ inner => .object inner policy)
    (fun _ inner => .union inner o.unionFailures)
    (fun m handles _ inner => (inner.resolved m handles).guarded o.maxDepth) s

theorem check_lawful (s : Schema) : (s.check o).Lawful := by
  cases s with
  | primitive m p => exact primitive_lawful p
  | array m size element => exact (element.enter_lawful o).array size
  | tuple m items =>
    rw [check_tuple]
    exact .tuple (List.forall_mem_map.2 fun s _ => s.enter_lawful o)
  | object m unknownKeys fields =>
    rw [check_object]
    exact .object (List.forall_mem_map.2 fun f _ => f.2.enter_lawful o) _
  | union m candidates =>
    rw [check_union]
    exact .union (List.forall_mem_map.2 fun s _ => s.enter_lawful o) o.unionFailures

@[simp] theorem enter_depth (s : Schema) (input : Value) (run : Run) :
    (s.enter o input run).2.depth = run.depth := (s.enter_lawful o input run).depth

theorem enter_error {s : Schema} (plain : s.modifiers.default? = none) {input : Value} {run : Run}
    {failure : Failure} (refused : (s.enter o input run).1 = .error failure) :
    failure = .here (.recursionLimitExceeded o.maxDepth) ∨
    (input = .undefined ∧ s.admitsUndefined = false ∧ failure = .here .missing) ∨
    ((input = .undefined → s.handlesUndefined = true) ∧ s.modifiers.passes input = false ∧
      ∃ inner, (s.check o input inner).1 = .error failure) := by
  rw [enter_eq] at refused
  by_cases room : run.depth < o.maxDepth
  · simp only [Parser.guarded, room, if_true, Parser.resolved_eq_settled plain] at refused
    rcases Parser.settled_cases s.modifiers s.handlesUndefined (s.check o) input
      { run with depth := run.depth + 1 } with ⟨eq, -⟩ | ⟨eq, absent, passes, closed⟩ |
      ⟨eq, passes, handles⟩
    · rw [eq] at refused
      cases refused
    · rw [eq] at refused
      obtain rfl := Except.error.inj refused
      subst absent
      have optional : s.modifiers.optional = false := passes
      refine .inr (.inl ⟨rfl, ?_, rfl⟩)
      simp [admitsUndefined, Modifiers.admitUndefined, optional, plain, closed]
    · rw [eq] at refused
      exact .inr (.inr ⟨handles, passes, _, refused⟩)
  · simp only [Parser.guarded, room, if_false] at refused
    exact .inl (Except.error.inj refused).symm

theorem enter_ok_cases {s : Schema} {v w : Value} {run : Run}
    (accepted : (s.enter o v run).1 = .ok w) :
    ∃ r inner, inner.depth = run.depth + 1 ∧ (v ≠ .undefined → r = v) ∧
      ((s.modifiers.passes r = true ∧ w = r) ∨
        (s.modifiers.passes r = false ∧ (s.check o r inner).1 = .ok w)) := by
  have inside := Parser.guarded_ok accepted
  simp only [Parser.resolved] at inside
  split at inside
  next d _ => exact ⟨_, _, rfl, fun present => (present rfl).elim, Parser.settled_ok inside⟩
  next => exact ⟨_, _, rfl, fun _ => rfl, Parser.settled_ok inside⟩

theorem parse_result (s : Schema) (input : Value) (session : Session) :
    (s.parse o input session).1 = (s.enter o input ⟨session, 0⟩).1 := by
  rcases entered : s.enter o input ⟨session, 0⟩ with ⟨failure | value, run⟩
  · simp [parse, entered]
  · simp [parse, entered]

theorem parse_calls_eq (s : Schema) (o : Options) (v : Value) (session : Session) :
    (s.parse o v session).2.calls = (s.enter o v ⟨session, 0⟩).2.calls := by
  simp only [parse]
  rcases s.enter o v ⟨session, 0⟩ with ⟨failure | value, run⟩
  · rfl
  · rfl

theorem parse_eq_of_enter {o o' : Options} {s t : Schema} {input : Value} {session : Session}
    (result : (s.enter o input ⟨session, 0⟩).1 = (t.enter o' input ⟨session, 0⟩).1)
    (sessions : (s.enter o input ⟨session, 0⟩).2.toSession =
      (t.enter o' input ⟨session, 0⟩).2.toSession) :
    s.parse o input session = t.parse o' input session := by
  revert result sessions
  simp only [parse]
  rcases s.enter o input ⟨session, 0⟩ with ⟨result, run⟩
  rcases t.enter o' input ⟨session, 0⟩ with ⟨result', run'⟩
  rintro rfl same
  have sessions : run.toSession = run'.toSession := same
  cases result with
  | error failure => simp only [sessions]
  | ok value => simp only [sessions]

end Schema

end ValueSchema
