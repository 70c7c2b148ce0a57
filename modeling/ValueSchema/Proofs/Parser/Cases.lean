import Mathlib.Data.List.Forall2
import ValueSchema.Schema.Parse

set_option autoImplicit false
set_option relaxedAutoImplicit false

namespace ValueSchema

theorem exists_related_of_mem {α β : Type} {R : α → β → Prop} {as : List α}
    {bs : List β} (related : List.Forall₂ R as bs) {a : α} (member : a ∈ as) :
    ∃ b ∈ bs, R a b := by
  induction related with
  | nil => cases member
  | cons head tail ih =>
    rcases List.mem_cons.1 member with rfl | member
    · exact ⟨_, List.mem_cons_self, head⟩
    · obtain ⟨b, inside, holds⟩ := ih member
      exact ⟨b, List.mem_cons_of_mem _ inside, holds⟩

namespace Bounds

variable {α : Type} [Measure α] {bounds : Bounds α} {subject : Subject} {actual : α}

theorem violation?_eq_none :
    bounds.violation? subject actual = none ↔ ∀ b ∈ bounds, b.violatedBy actual = false := by
  simp [violation?]

theorem of_violation?_eq_some {failure : Failure}
    (violated : bounds.violation? subject actual = some failure) :
    ∃ b ∈ bounds, b.violatedBy actual = true ∧
      failure = .here (.constraintViolation subject b.kind (Measure.toDouble b.limit)
        (Measure.toDouble actual)) := by
  obtain ⟨b, found, rfl⟩ := Option.map_eq_some_iff.1 violated
  exact ⟨b, List.mem_of_find?_eq_some found, by simpa using List.find?_some found, rfl⟩

theorem within_or_violated (bounds : Bounds α) (actual : α) :
    (∀ b ∈ bounds, b.violatedBy actual = false) ∨
      ∃ before b after, bounds = before ++ b :: after ∧
        (∀ c ∈ before, c.violatedBy actual = false) ∧ b.violatedBy actual = true := by
  cases found : bounds.find? fun b => b.violatedBy actual with
  | none =>
    refine .inl fun b member => ?_
    simpa using List.find?_eq_none.1 found b member
  | some b =>
    obtain ⟨violated, before, after, split, first⟩ := List.find?_eq_some_iff_append.1 found
    refine .inr ⟨before, b, after, split, fun c member => ?_, violated⟩
    simpa using first c member

theorem violation?_of_split {before after : Bounds α} {b : Bound α}
    (split : bounds = before ++ b :: after) (first : ∀ c ∈ before, c.violatedBy actual = false)
    (violated : b.violatedBy actual = true) :
    bounds.violation? subject actual = some (.here (.constraintViolation subject b.kind
      (Measure.toDouble b.limit) (Measure.toDouble actual))) := by
  have found : bounds.find? (fun b => b.violatedBy actual) = some b := by
    refine List.find?_eq_some_iff_append.2 ⟨violated, before, after, split, fun c member => ?_⟩
    simpa using first c member
  rw [violation?, found]
  rfl

end Bounds

/-- Whether values of a kind are of the type that a schema kind stands for. Unions take any. -/
def SchemaKind.fits : SchemaKind → ValueKind → Bool
  | .undefined, .undefined | .null, .null | .boolean, .boolean | .number, .number
  | .string, .string | .array, .array | .tuple, .array | .object, .object | .union, _ => true
  | _, _ => false

namespace Primitive

/-- The bounds of a primitive that a value is on the wrong side of: the subject, the bound's kind
and limit, and the measure. -/
inductive Violates : Primitive → Value → Cause → Prop
  | number {bounds : Bounds Double} {b : Bound Double} {x : Double} (member : b ∈ bounds)
      (violated : b.violatedBy x = true) :
      Violates (.number bounds) (.number x) (.constraintViolation .number b.kind b.limit x)
  | string {bounds : Bounds Nat} {b : Bound Nat} {s : String} (member : b ∈ bounds)
      (violated : b.violatedBy s.utf8ByteSize = true) :
      Violates (.string bounds) (.string s)
        (.constraintViolation .stringLength b.kind (.ofNat b.limit) (.ofNat s.utf8ByteSize))

theorem check_cases (p : Primitive) (input : Value) :
    p.check input = .ok input ∨
    (p.check input = .error (.here (.typeMismatch p.kind input.kind)) ∧
      p.kind.fits input.kind = false) ∨
    ∃ cause, p.check input = .error (.here cause) ∧ p.Violates input cause := by
  cases p with
  | undefined => cases input <;> simp [check, kind, Value.kind, SchemaKind.fits]
  | null => cases input <;> simp [check, kind, Value.kind, SchemaKind.fits]
  | boolean => cases input <;> simp [check, kind, Value.kind, SchemaKind.fits]
  | number bounds =>
    cases input with
    | number x =>
      cases found : bounds.violation? .number x with
      | none => exact .inl (by simp [check, Bounds.check, found, Except.map])
      | some failure =>
        obtain ⟨b, member, violated, rfl⟩ := Bounds.of_violation?_eq_some found
        exact .inr (.inr ⟨_, by simp [check, Bounds.check, found, Except.map]; rfl,
          .number member violated⟩)
    | _ => exact .inr (.inl ⟨rfl, rfl⟩)
  | string bounds =>
    cases input with
    | string s =>
      cases found : bounds.violation? .stringLength s.utf8ByteSize with
      | none => exact .inl (by simp [check, Bounds.check, found, Except.map])
      | some failure =>
        obtain ⟨b, member, violated, rfl⟩ := Bounds.of_violation?_eq_some found
        exact .inr (.inr ⟨_, by simp [check, Bounds.check, found, Except.map]; rfl,
          .string member violated⟩)
    | _ => exact .inr (.inl ⟨rfl, rfl⟩)

theorem eq_of_check_ok {p : Primitive} {v w : Value} (accepted : p.check v = .ok w) : w = v := by
  rcases p.check_cases v with same | ⟨refused, -⟩ | ⟨cause, refused, -⟩
  · exact (Except.ok.inj (same.symm.trans accepted)).symm
  · rw [refused] at accepted
    cases accepted
  · rw [refused] at accepted
    cases accepted

end Primitive

/-- Whether the modifiers accept a value as it is, without a look at its kind. -/
def Modifiers.passes (m : Modifiers) : Value → Bool
  | .undefined => m.optional
  | .null => m.nullable
  | _ => false

namespace Parser

theorem settled_cases (m : Modifiers) (handles : Bool) (check : Parser) (input : Value)
    (run : Run) :
    (settled m handles check input run = (.ok input, run) ∧ m.passes input = true) ∨
    (settled m handles check input run = (.error (.here .missing), run) ∧
      input = .undefined ∧ m.passes input = false ∧ handles = false) ∨
    (settled m handles check input run = check input run ∧ m.passes input = false ∧
      (input = .undefined → handles = true)) := by
  cases input with
  | undefined =>
    cases optional : m.optional <;> cases handles <;> simp [settled, Modifiers.passes, optional]
  | null => cases nullable : m.nullable <;> simp [settled, Modifiers.passes, nullable]
  | _ => exact .inr (.inr ⟨rfl, rfl, by simp⟩)

theorem settled_ok {m : Modifiers} {handles : Bool} {check : Parser} {input value : Value}
    {run : Run} (accepted : (settled m handles check input run).1 = .ok value) :
    (m.passes input = true ∧ value = input) ∨
      (m.passes input = false ∧ (check input run).1 = .ok value) := by
  rcases settled_cases m handles check input run with ⟨eq, passes⟩ | ⟨eq, -⟩ | ⟨eq, closed, -⟩
  · rw [eq] at accepted
    exact .inl ⟨passes, (Except.ok.inj accepted).symm⟩
  · rw [eq] at accepted
    cases accepted
  · rw [eq] at accepted
    exact .inr ⟨closed, accepted⟩

theorem guarded_ok {limit : Nat} {p : Parser} {input value : Value} {run : Run}
    (accepted : (guarded limit p input run).1 = .ok value) :
    (p input { run with depth := run.depth + 1 }).1 = .ok value := by
  by_cases room : run.depth < limit
  · simpa only [guarded, room, if_true] using accepted
  · simp only [guarded, room, if_false] at accepted
    cases accepted

theorem resolved_apply_eq_settled {m : Modifiers} {input : Value}
    (filled : input = .undefined → m.default? = none) (handles : Bool) (check : Parser) :
    resolved m handles check input = settled m handles check input := by
  funext run
  cases input with
  | undefined => simp [resolved, filled rfl]
  | _ => rfl

theorem resolved_eq_settled {m : Modifiers} (none : m.default? = none) (handles : Bool)
    (check : Parser) : resolved m handles check = settled m handles check :=
  funext fun _ => resolved_apply_eq_settled (fun _ => none) handles check

/-- Some run of a kind makes a parser give a result on a value. -/
def Returns (I : Run → Prop) (p : Parser) (input : Value) (result : Except Failure Value) : Prop :=
  ∃ run, I run ∧ (p input run).1 = result

def Keeps (I : Run → Prop) (p : Parser) : Prop := ∀ input run, I run → I (p input run).2

theorem Keeps.all (p : Parser) : p.Keeps fun _ => True := fun _ _ _ => trivial

variable {I : Run → Prop}

theorem inOrder_ok {items : List (Parser × Value)} (keeps : ∀ x ∈ items, x.1.Keeps I)
    {position : Nat} {run : Run} (start : I run) {values : List Value}
    (returned : (inOrder position items run).1 = .ok values) :
    List.Forall₂ (fun x value => Returns I x.1 x.2 (.ok value)) items values := by
  induction items generalizing position run values with
  | nil =>
    cases returned
    exact .nil
  | cons x rest ih =>
    have kept := keeps x List.mem_cons_self x.2 run start
    rcases first : x.1 x.2 run with ⟨failure | value, mid⟩
    · simp [inOrder, first] at returned
    rw [first] at kept
    rcases later : inOrder (position + 1) rest mid with ⟨failure | others, after⟩
    · simp [inOrder, first, later] at returned
    obtain rfl : value :: others = values := by
      simpa [inOrder, first, later] using returned
    refine .cons ⟨run, start, by rw [first]⟩ ?_
    exact ih (fun y member => keeps y (List.mem_cons_of_mem x member)) kept
      (by rw [later])

theorem inOrder_error {items : List (Parser × Value)} (keeps : ∀ x ∈ items, x.1.Keeps I)
    {position : Nat} {run : Run} (start : I run) {failure : Failure}
    (returned : (inOrder position items run).1 = .error failure) :
    ∃ i x inner, items[i]? = some x ∧ Returns I x.1 x.2 (.error inner) ∧
      failure = inner.prefixed (.index (position + i)) := by
  induction items generalizing position run with
  | nil => cases returned
  | cons x rest ih =>
    have kept := keeps x List.mem_cons_self x.2 run start
    rcases first : x.1 x.2 run with ⟨inner | value, mid⟩
    · obtain rfl : inner.prefixed (.index position) = failure := by
        simpa [inOrder, first] using returned
      exact ⟨0, x, inner, rfl, ⟨run, start, by rw [first]⟩, rfl⟩
    rw [first] at kept
    rcases later : inOrder (position + 1) rest mid with ⟨inner | others, after⟩
    · obtain rfl : inner = failure := by simpa [inOrder, first, later] using returned
      obtain ⟨i, y, below, found, fails, rfl⟩ :=
        ih (fun y member => keeps y (List.mem_cons_of_mem x member)) kept (by rw [later])
      exact ⟨i + 1, y, below, found, fails, by rw [Nat.add_assoc, Nat.add_comm 1]⟩
    · simp [inOrder, first, later] at returned

/-- The value that a declared field is parsed from; an absent one is undefined. -/
def fieldValue (entries : Entries Value) (name : String) : Value :=
  (Entries.find? entries name).getD .undefined

theorem names_eq_of_forall₂ {α β : Type} {fields : List (String × α)} {all : List (String × β)}
    {R : String × α → String × β → Prop}
    (each : List.Forall₂ (fun f a => f.1 = a.1 ∧ R f a) fields all) :
    Entries.names all = Entries.names fields := by
  induction each with
  | nil => rfl
  | cons head _ ih => exact congrArg₂ List.cons head.1.symm ih

theorem fieldsInOrder_cons (entries : Entries Value) (field : String × Parser)
    (rest : List (String × Parser)) (run : Run) :
    fieldsInOrder entries (field :: rest) run =
      match field.2 (fieldValue entries field.1) run with
      | (.error failure, run) => (.error (failure.prefixed (.key field.1)), run)
      | (.ok value, run) =>
        match fieldsInOrder entries rest run with
        | (.error failure, run) => (.error failure, run)
        | (.ok values, run) =>
          if (Entries.find? entries field.1).isSome || !value.isUndefined then
            (.ok ((field.1, value) :: values), run)
          else (.ok values, run) := rfl

theorem fieldsInOrder_ok {entries : Entries Value} {fields : List (String × Parser)}
    (keeps : ∀ f ∈ fields, f.2.Keeps I) {run : Run} (start : I run) {values : List (String × Value)}
    (returned : (fieldsInOrder entries fields run).1 = .ok values) :
    ∀ f ∈ fields, ∃ value, Returns I f.2 (fieldValue entries f.1) (.ok value) := by
  induction fields generalizing run values with
  | nil => intro f member; cases member
  | cons field rest ih =>
    have kept := keeps field List.mem_cons_self (fieldValue entries field.1) run start
    rcases first : field.2 (fieldValue entries field.1) run with ⟨failure | value, mid⟩
    · simp [fieldsInOrder_cons, first] at returned
    rw [first] at kept
    rcases later : fieldsInOrder entries rest mid with ⟨failure | others, after⟩
    · simp [fieldsInOrder_cons, first, later] at returned
    intro f member
    rcases List.mem_cons.1 member with rfl | member
    · exact ⟨value, run, start, by rw [first]⟩
    · exact ih (fun g inside => keeps g (List.mem_cons_of_mem field inside)) kept
        (by rw [later]) f member

theorem fieldsInOrder_error {entries : Entries Value} {fields : List (String × Parser)}
    (keeps : ∀ f ∈ fields, f.2.Keeps I) {run : Run} (start : I run) {failure : Failure}
    (returned : (fieldsInOrder entries fields run).1 = .error failure) :
    ∃ f ∈ fields, ∃ inner, Returns I f.2 (fieldValue entries f.1) (.error inner) ∧
      failure = inner.prefixed (.key f.1) := by
  induction fields generalizing run with
  | nil => cases returned
  | cons field rest ih =>
    have kept := keeps field List.mem_cons_self (fieldValue entries field.1) run start
    rcases first : field.2 (fieldValue entries field.1) run with ⟨inner | value, mid⟩
    · obtain rfl : inner.prefixed (.key field.1) = failure := by
        simpa [fieldsInOrder_cons, first] using returned
      exact ⟨field, List.mem_cons_self, inner, ⟨run, start, by rw [first]⟩, rfl⟩
    rw [first] at kept
    rcases later : fieldsInOrder entries rest mid with ⟨inner | others, after⟩
    · obtain rfl : inner = failure := by
        simpa [fieldsInOrder_cons, first, later] using returned
      obtain ⟨f, member, below, fails, rfl⟩ :=
        ih (fun g inside => keeps g (List.mem_cons_of_mem field inside)) kept (by rw [later])
      exact ⟨f, List.mem_cons_of_mem field member, below, fails, rfl⟩
    · simp only [fieldsInOrder_cons, first, later] at returned
      split at returned <;> cases returned

def Trial.Explained (I : Run → Prop) (candidates : List (SchemaKind × Parser)) (input : Value) :
    Trial → Prop
  | .accepted value => ∃ before c after, candidates = before ++ c :: after ∧
      (∀ d ∈ before, ∃ failure, Returns I d.2 input (.error failure)) ∧
      Returns I c.2 input (.ok value)
  | .stopped failure => failure.isLimit = true ∧
      ∃ c ∈ candidates, Returns I c.2 input (.error failure)
  | .refused failures => List.Forall₂ (fun c failure =>
      Returns I c.2 input (.error failure) ∧ failure.isLimit = false) candidates failures

theorem firstOf_explained {candidates : List (SchemaKind × Parser)}
    (keeps : ∀ c ∈ candidates, c.2.Keeps I) (emits : ∀ run event, I run → I (run.emit event))
    (input : Value) (index : Nat) {run : Run} (start : I run) :
    (firstOf index candidates input run).1.Explained I candidates input := by
  induction candidates generalizing index run with
  | nil => exact .nil
  | cons candidate rest ih =>
    have kept := keeps candidate List.mem_cons_self input run start
    rcases first : candidate.2 input run with ⟨failure | value, mid⟩
    · rw [first] at kept
      have fails : Returns I candidate.2 input (.error failure) := ⟨run, start, by rw [first]⟩
      by_cases limit : failure.isLimit = true
      · simp only [firstOf, first, limit, if_true]
        exact ⟨limit, candidate, List.mem_cons_self, fails⟩
      have later := ih (fun c member => keeps c (List.mem_cons_of_mem candidate member))
        (index + 1) (emits mid (.candidateRejected index candidate.1 failure.code) kept)
      simp only [firstOf, first, limit]
      revert later
      rcases firstOf (index + 1) rest input
        (mid.emit (.candidateRejected index candidate.1 failure.code)) with ⟨trial, after⟩
      cases trial with
      | accepted value =>
        rintro ⟨before, c, others, rfl, refuse, accepts⟩
        refine ⟨candidate :: before, c, others, rfl, ?_, accepts⟩
        exact List.forall_mem_cons.2 ⟨⟨failure, fails⟩, refuse⟩
      | stopped stop =>
        rintro ⟨trips, c, member, stops⟩
        exact ⟨trips, c, List.mem_cons_of_mem candidate member, stops⟩
      | refused failures =>
        intro refuse
        exact .cons ⟨fails, by simpa using limit⟩ refuse
    · simp only [firstOf, first]
      exact ⟨[], candidate, rest, rfl, fun d member => (List.not_mem_nil member).elim, run, start,
        by rw [first]⟩

theorem array_mismatch {size : Bounds Nat} {element : Parser} {input : Value}
    (other : input.kind ≠ .array) (run : Run) :
    array size element input run = (.error (.here (.typeMismatch .array input.kind)), run) := by
  cases input with
  | array items => exact (other rfl).elim
  | _ => rfl

theorem tuple_mismatch {parsers : List Parser} {input : Value} (other : input.kind ≠ .array)
    (run : Run) :
    tuple parsers input run = (.error (.here (.typeMismatch .tuple input.kind)), run) := by
  cases input with
  | array items => exact (other rfl).elim
  | _ => rfl

theorem object_mismatch {policy : UnknownKeys} {fields : List (String × Parser)} {input : Value}
    (other : input.kind ≠ .object) (run : Run) :
    object policy fields input run = (.error (.here (.typeMismatch .object input.kind)), run) := by
  cases input with
  | object entries => exact (other rfl).elim
  | _ => rfl

theorem array_ok {element : Parser} (keeps : element.Keeps I) {size : Bounds Nat}
    {input value : Value} {run : Run} (start : I run)
    (accepted : (array size element input run).1 = .ok value) :
    ∃ items values, input = .array items ∧ value = .array values ∧
      List.Forall₂ (fun item value => Returns I element item (.ok value)) items values := by
  cases input with
  | array items =>
    simp only [array] at accepted
    cases violated : size.violation? .arrayLength items.length with
    | some failure => simp [violated] at accepted
    | none =>
      rcases returned : inOrder 0 (items.map fun item => (element, item)) run with
        ⟨failure | values, after⟩
      · simp [violated, returned, asArray] at accepted
      · obtain rfl : Value.array values = value := by
          simpa [violated, returned, asArray] using accepted
        have all : ∀ x ∈ items.map fun item => (element, item), x.1.Keeps I :=
          List.forall_mem_map.2 fun _ _ => keeps
        have each := inOrder_ok all start (by rw [returned])
        exact ⟨items, values, rfl, rfl, List.forall₂_map_left_iff.1 each⟩
  | _ => cases accepted

theorem tuple_ok {parsers : List Parser} (keeps : ∀ p ∈ parsers, p.Keeps I) {input value : Value}
    {run : Run} (start : I run) (accepted : (tuple parsers input run).1 = .ok value) :
    ∃ items values, input = .array items ∧ value = .array values ∧
      items.length = parsers.length ∧
      List.Forall₂ (fun x value => Returns I x.1 x.2 (.ok value)) (parsers.zip items) values := by
  cases input with
  | array items =>
    simp only [tuple] at accepted
    by_cases same : items.length = parsers.length
    · rcases returned : inOrder 0 (parsers.zip items) run with ⟨failure | values, after⟩
      · simp [same, returned, asArray] at accepted
      · obtain rfl : Value.array values = value := by
          simpa [same, returned, asArray] using accepted
        have all : ∀ x ∈ parsers.zip items, x.1.Keeps I :=
          fun x member => keeps x.1 (List.of_mem_zip member).1
        exact ⟨items, values, rfl, rfl, same, inOrder_ok all start (by rw [returned])⟩
    · simp [same] at accepted
  | _ => cases accepted

theorem object_ok {fields : List (String × Parser)} {policy : UnknownKeys} {input value : Value}
    {run : Run} (accepted : (object policy fields input run).1 = .ok value) :
    ∃ entries values, input = .object entries ∧ value = .object values := by
  cases input with
  | object entries =>
    simp only [object] at accepted
    rcases returned : fieldsInOrder entries fields run with ⟨failure | values, after⟩
    · simp [returned] at accepted
    · simp only [returned, withUndeclared] at accepted
      split at accepted
      · exact ⟨entries, _, rfl, (Except.ok.inj accepted).symm⟩
      · exact ⟨entries, _, rfl, (Except.ok.inj accepted).symm⟩
      · split at accepted
        · exact ⟨entries, _, rfl, (Except.ok.inj accepted).symm⟩
        · cases accepted
  | _ => cases accepted

theorem array_error {element : Parser} (keeps : element.Keeps I) {size : Bounds Nat}
    {input : Value} {run : Run} (start : I run) {failure : Failure}
    (refused : (array size element input run).1 = .error failure) :
    (SchemaKind.array.fits input.kind = false ∧
      failure = .here (.typeMismatch .array input.kind)) ∨
    ∃ items, input = .array items ∧
      ((∃ b ∈ size, b.violatedBy items.length = true ∧
        failure = .here (.constraintViolation .arrayLength b.kind (.ofNat b.limit)
          (.ofNat items.length))) ∨
      ∃ (i : Nat) (item : Value) (inner : Failure), items[i]? = some item ∧
        Returns I element item (.error inner) ∧ failure = inner.prefixed (.index i)) := by
  cases input with
  | array items =>
    refine .inr ⟨items, rfl, ?_⟩
    simp only [array] at refused
    cases violated : size.violation? .arrayLength items.length with
    | some other =>
      obtain rfl : other = failure := by simpa [violated] using refused
      exact .inl (Bounds.of_violation?_eq_some violated)
    | none =>
      rcases returned : inOrder 0 (items.map fun item => (element, item)) run with
        ⟨other | values, after⟩
      · obtain rfl : other = failure := by simpa [violated, returned, asArray] using refused
        have all : ∀ x ∈ items.map fun item => (element, item), x.1.Keeps I :=
          List.forall_mem_map.2 fun _ _ => keeps
        obtain ⟨i, x, inner, found, fails, rfl⟩ := inOrder_error all start (by rw [returned])
        rw [List.getElem?_map] at found
        obtain ⟨item, here, rfl⟩ := Option.map_eq_some_iff.1 found
        exact .inr ⟨i, item, inner, here, fails, by rw [Nat.zero_add]⟩
      · simp [violated, returned, asArray] at refused
  | _ =>
    obtain rfl := Except.error.inj refused
    exact .inl ⟨rfl, rfl⟩

theorem tuple_error {parsers : List Parser} (keeps : ∀ p ∈ parsers, p.Keeps I) {input : Value}
    {run : Run} (start : I run) {failure : Failure}
    (refused : (tuple parsers input run).1 = .error failure) :
    (SchemaKind.tuple.fits input.kind = false ∧
      failure = .here (.typeMismatch .tuple input.kind)) ∨
    ∃ items, input = .array items ∧
      ((items.length ≠ parsers.length ∧
        failure = .here (.tupleLengthMismatch parsers.length items.length)) ∨
      ∃ (i : Nat) (item : Value) (p : Parser) (inner : Failure), items[i]? = some item ∧
        parsers[i]? = some p ∧ Returns I p item (.error inner) ∧
        failure = inner.prefixed (.index i)) := by
  cases input with
  | array items =>
    refine .inr ⟨items, rfl, ?_⟩
    simp only [tuple] at refused
    by_cases same : items.length = parsers.length
    · rcases returned : inOrder 0 (parsers.zip items) run with ⟨other | values, after⟩
      · obtain rfl : other = failure := by simpa [same, returned, asArray] using refused
        have all : ∀ x ∈ parsers.zip items, x.1.Keeps I :=
          fun x member => keeps x.1 (List.of_mem_zip member).1
        obtain ⟨i, x, inner, found, fails, rfl⟩ := inOrder_error all start (by rw [returned])
        obtain ⟨here, below⟩ := List.getElem?_zip_eq_some.1 found
        exact .inr ⟨i, x.2, x.1, inner, below, here, fails, by rw [Nat.zero_add]⟩
      · simp [same, returned, asArray] at refused
    · obtain rfl : .here (.tupleLengthMismatch parsers.length items.length) = failure := by
        simpa [same] using refused
      exact .inl ⟨same, rfl⟩
  | _ =>
    obtain rfl := Except.error.inj refused
    exact .inl ⟨rfl, rfl⟩

theorem object_error {fields : List (String × Parser)} (keeps : ∀ f ∈ fields, f.2.Keeps I)
    {policy : UnknownKeys} {input : Value} {run : Run} (start : I run) {failure : Failure}
    (refused : (object policy fields input run).1 = .error failure) :
    (SchemaKind.object.fits input.kind = false ∧
      failure = .here (.typeMismatch .object input.kind)) ∨
    ∃ entries, input = .object entries ∧
      ((∃ f ∈ fields, ∃ inner, Returns I f.2 (fieldValue entries f.1) (.error inner) ∧
        failure = inner.prefixed (.key f.1)) ∨
      (policy = .strict ∧ Entries.without entries fields ≠ [] ∧
        failure = .here (.unrecognizedKeys (Entries.names (Entries.without entries fields))))) := by
  cases input with
  | object entries =>
    refine .inr ⟨entries, rfl, ?_⟩
    simp only [object] at refused
    rcases returned : fieldsInOrder entries fields run with ⟨other | values, after⟩
    · obtain rfl : other = failure := by simpa [returned] using refused
      exact .inl (fieldsInOrder_error keeps start (by rw [returned]))
    · simp only [returned, withUndeclared] at refused
      cases policy with
      | strict =>
        by_cases none : (Entries.without entries fields).isEmpty = true
        · simp [none] at refused
        · simp only [none] at refused
          obtain rfl := Except.error.inj refused
          exact .inr ⟨rfl, by simpa using none, rfl⟩
      | _ => cases refused
  | _ =>
    obtain rfl := Except.error.inj refused
    exact .inl ⟨rfl, rfl⟩

theorem union_ok {candidates : List (SchemaKind × Parser)} (keeps : ∀ c ∈ candidates, c.2.Keeps I)
    (emits : ∀ run event, I run → I (run.emit event)) {detail : UnionFailures} {input value : Value}
    {run : Run} (start : I run) (accepted : (union detail candidates input run).1 = .ok value) :
    ∃ c ∈ candidates, Returns I c.2 input (.ok value) := by
  have known := firstOf_explained keeps emits input 0 start
  simp only [union] at accepted
  rcases tried : firstOf 0 candidates input run with ⟨trial, after⟩
  rw [tried] at known accepted
  cases trial with
  | accepted other =>
    obtain ⟨before, c, others, rfl, -, returns⟩ := known
    obtain rfl := Except.ok.inj accepted
    exact ⟨c, List.mem_append_right before List.mem_cons_self, returns⟩
  | stopped stop => cases accepted
  | refused failures => cases accepted

theorem union_error {candidates : List (SchemaKind × Parser)}
    (keeps : ∀ c ∈ candidates, c.2.Keeps I) (emits : ∀ run event, I run → I (run.emit event))
    {detail : UnionFailures} {input : Value} {run : Run} (start : I run) {failure : Failure}
    (refused : (union detail candidates input run).1 = .error failure) :
    (∃ c ∈ candidates, Returns I c.2 input (.error failure)) ∨
    ∃ failures, List.Forall₂ (fun c failure => Returns I c.2 input (.error failure))
      candidates failures ∧ failure = .exhausted [] (reported detail failures) := by
  have known := firstOf_explained keeps emits input 0 start
  simp only [union] at refused
  rcases tried : firstOf 0 candidates input run with ⟨trial, after⟩
  rw [tried] at known refused
  cases trial with
  | accepted value => cases refused
  | stopped stop =>
    obtain ⟨-, c, member, stops⟩ := known
    obtain rfl := Except.error.inj refused
    exact .inl ⟨c, member, stops⟩
  | refused failures =>
    obtain rfl := Except.error.inj refused
    exact .inr ⟨failures, known.imp fun _ _ => And.left, rfl⟩

end Parser

end ValueSchema
