import ValueSchema.Proofs.DepthLimit
import ValueSchema.Proofs.Parser.Outputs

/-!
The language of a schema, without any run, order or depth: `Schema.Accepts` says which values it
takes, and `Schema.Conforms` which values it lets out.
-/

set_option autoImplicit false
set_option relaxedAutoImplicit false

namespace ValueSchema

/-- A quantity meets a bound: a minimum is not above it, a maximum not below it, an exact size
neither. What cannot be compared meets every bound. -/
def Bound.Holds {α : Type} [Measure α] (b : Bound α) (actual : α) : Prop :=
  match b.kind with
  | .min => Measure.below actual b.limit = false
  | .max => Measure.below b.limit actual = false
  | .length => Measure.below actual b.limit = false ∧ Measure.below b.limit actual = false

theorem Bound.holds_iff {α : Type} [Measure α] (b : Bound α) (actual : α) :
    b.Holds actual ↔ b.violatedBy actual = false := by
  unfold Bound.Holds Bound.violatedBy
  cases b.kind <;> simp

theorem Bounds.violation?_eq_none_iff_holds {α : Type} [Measure α] (bounds : Bounds α)
    (subject : Subject) (actual : α) :
    bounds.violation? subject actual = none ↔ ∀ b ∈ bounds, b.Holds actual := by
  rw [Bounds.violation?_eq_none]
  exact forall₂_congr fun b _ => (b.holds_iff actual).symm

def Primitive.Accepts : Primitive → Value → Prop
  | .undefined, .undefined => True
  | .null, .null => True
  | .boolean, .bool _ => True
  | .number bounds, .number x => ∀ b ∈ bounds, b.Holds x
  | .string bounds, .string s => ∀ b ∈ bounds, b.Holds s.utf8ByteSize
  | _, _ => False

theorem Primitive.check_ok_iff (p : Primitive) (input : Value) :
    (∃ value, p.check input = .ok value) ↔ p.Accepts input := by
  cases p with
  | undefined => cases input <;> simp [check, Accepts]
  | null => cases input <;> simp [check, Accepts]
  | boolean => cases input <;> simp [check, Accepts]
  | number bounds =>
    cases input with
    | number x =>
      rw [Accepts, ← bounds.violation?_eq_none_iff_holds .number x]
      cases found : bounds.violation? .number x <;> simp [check, Bounds.check, found, Except.map]
    | _ => simp [check, Accepts]
  | string bounds =>
    cases input with
    | string s =>
      rw [Accepts, ← bounds.violation?_eq_none_iff_holds .stringLength s.utf8ByteSize]
      cases found : bounds.violation? .stringLength s.utf8ByteSize <;>
        simp [check, Bounds.check, found, Except.map]
    | _ => simp [check, Accepts]

namespace Schema

mutual

/-- The values of a schema. Its modifiers accept absent or empty values; its kind accepts values by
what the schemas below accept. An override of the policy for undeclared entries counts for every
object schema. -/
def Accepts (o : Options) : Schema → Value → Prop
  | .primitive m p, v => m.passes v = true ∨ p.Accepts v
  | .array m size element, v => m.passes v = true ∨
      ∃ items, v = .array items ∧ (∀ b ∈ size, b.Holds items.length) ∧
        ∀ item ∈ items, element.Accepts o item
  | .tuple m schemas, v => m.passes v = true ∨
      ∃ items, v = .array items ∧ AcceptsEach o schemas items
  | .object m unknownKeys fields, v => m.passes v = true ∨
      ∃ entries, v = .object entries ∧ AcceptsFields o fields entries ∧
        (o.unknownKeys?.getD unknownKeys = .strict →
          ∀ name ∈ Entries.names entries, name ∈ Entries.names fields)
  | .union m candidates, v => m.passes v = true ∨ AcceptsAny o candidates v

def AcceptsEach (o : Options) : List Schema → List Value → Prop
  | [], [] => True
  | s :: schemas, item :: items => s.Accepts o item ∧ AcceptsEach o schemas items
  | _, _ => False

def AcceptsFields (o : Options) : List (String × Schema) → Entries Value → Prop
  | [], _ => True
  | (name, s) :: rest, entries =>
    s.Accepts o (Parser.fieldValue entries name) ∧ AcceptsFields o rest entries

def AcceptsAny (o : Options) : List Schema → Value → Prop
  | [], _ => False
  | s :: rest, v => s.Accepts o v ∨ AcceptsAny o rest v

end

variable {o : Options}

private theorem acceptsEach_iff (schemas : List Schema) (items : List Value) :
    AcceptsEach o schemas items ↔ items.length = schemas.length ∧
      ∀ x ∈ schemas.zip items, x.1.Accepts o x.2 := by
  induction schemas generalizing items with
  | nil => cases items <;> simp [AcceptsEach]
  | cons s rest ih =>
    cases items with
    | nil => simp [AcceptsEach]
    | cons item items =>
      simp only [AcceptsEach, ih, List.zip_cons_cons, List.forall_mem_cons, List.length_cons,
        Nat.add_right_cancel_iff]
      exact and_left_comm

private theorem acceptsFields_iff (fields : List (String × Schema)) (entries : Entries Value) :
    AcceptsFields o fields entries ↔
      ∀ f ∈ fields, f.2.Accepts o (Parser.fieldValue entries f.1) := by
  induction fields with
  | nil => simp [AcceptsFields]
  | cons f rest ih => rw [AcceptsFields, ih, List.forall_mem_cons]

private theorem acceptsAny_iff (candidates : List Schema) (v : Value) :
    AcceptsAny o candidates v ↔ ∃ s ∈ candidates, s.Accepts o v := by
  induction candidates with
  | nil => simp [AcceptsAny]
  | cons s rest ih => rw [AcceptsAny, ih, List.exists_mem_cons_iff]

theorem anyAdmitsUndefined_iff (candidates : List Schema) :
    anyAdmitsUndefined candidates = true ↔ ∃ s ∈ candidates, s.admitsUndefined = true := by
  induction candidates with
  | nil => simp [anyAdmitsUndefined]
  | cons s rest ih =>
    rw [anyAdmitsUndefined, Bool.or_eq_true, ih, List.exists_mem_cons_iff]
    rfl

private theorem Accepts.admitsUndefined {s : Schema} (accepts : s.Accepts o .undefined) :
    s.admitsUndefined = true := by
  have optional : ∀ m : Modifiers, m.passes .undefined = true → m.admitUndefined = true := by
    intro m passes
    have optional : m.optional = true := passes
    simp [Modifiers.admitUndefined, optional]
  induction s using Schema.induction with
  | primitive m p =>
    rcases accepts with passes | accepts
    · simp [Schema.admitsUndefined, modifiers, optional m passes]
    · cases p with
      | undefined => simp [Schema.admitsUndefined, handlesUndefined]
      | _ => exact accepts.elim
  | array m size element _ =>
    rcases accepts with passes | ⟨items, impossible, -⟩
    · simp [Schema.admitsUndefined, modifiers, optional m passes]
    · cases impossible
  | tuple m schemas _ =>
    rcases accepts with passes | ⟨items, impossible, -⟩
    · simp [Schema.admitsUndefined, modifiers, optional m passes]
    · cases impossible
  | object m unknownKeys fields _ =>
    rcases accepts with passes | ⟨entries, impossible, -⟩
    · simp [Schema.admitsUndefined, modifiers, optional m passes]
    · cases impossible
  | union m candidates ih =>
    rcases accepts with passes | accepts
    · simp [Schema.admitsUndefined, modifiers, optional m passes]
    · obtain ⟨s, member, accepts⟩ := (acceptsAny_iff candidates .undefined).1 accepts
      have below := (anyAdmitsUndefined_iff candidates).2 ⟨s, member, ih s member accepts⟩
      simp [Schema.admitsUndefined, handlesUndefined, below]

end Schema

namespace Parser

/-- A parser that accepts a value in every run at a depth exactly if the value is of a set. -/
private def Decides (depth : Nat) (p : Parser) (A : Value → Prop) : Prop :=
  ∀ input run, run.depth = depth → ((∃ value, (p input run).1 = .ok value) ↔ A input)

namespace Decides

variable {depth : Nat} {p : Parser} {A : Value → Prop}

private theorem of_ok (decides : p.Decides depth A) {input value : Value}
    (returned : Returns (fun run => run.depth = depth) p input (.ok value)) : A input := by
  obtain ⟨run, start, result⟩ := returned
  exact (decides input run start).1 ⟨value, result⟩

private theorem not_of_error (decides : p.Decides depth A) {input : Value} {failure : Failure}
    (returned : Returns (fun run => run.depth = depth) p input (.error failure)) : ¬ A input := by
  obtain ⟨run, start, result⟩ := returned
  intro accepts
  obtain ⟨value, accepted⟩ := (decides input run start).2 accepts
  rw [result] at accepted
  cases accepted

private theorem congr (decides : p.Decides depth A) {B : Value → Prop} (same : ∀ v, A v ↔ B v) :
    p.Decides depth B := fun input run start => (decides input run start).trans (same input)

private theorem guarded (decides : p.Decides (depth + 1) A) {limit : Nat} (room : depth < limit) :
    (Parser.guarded limit p).Decides depth A := by
  intro input run start
  simp only [Parser.guarded, start, room, if_true]
  exact decides input _ rfl

private theorem resolved (decides : p.Decides depth A) {m : Modifiers} (plain : m.default? = none)
    {handles : Bool} (gate : A .undefined → handles = true) :
    (Parser.resolved m handles p).Decides depth fun v => m.passes v = true ∨ A v := by
  intro input run start
  rw [resolved_eq_settled plain]
  rcases settled_cases m handles p input run with ⟨eq, passes⟩ | ⟨eq, rfl, passes, closed⟩ |
    ⟨eq, passes, -⟩
  · simp [eq, passes]
  · have refused : ¬ A .undefined := fun accepts => by simp [closed] at gate; exact gate accepts
    simp [eq, passes, refused]
  · rw [eq, decides input run start]
    simp [passes]

variable {ι : Type}

private theorem inOrder {xs : List ι} (part : ι → Parser × Value) {A : ι → Value → Prop}
    (lawful : ∀ x ∈ xs, (part x).1.Lawful)
    (decides : ∀ x ∈ xs, (part x).1.Decides depth (A x)) (run : Run) (start : run.depth = depth) :
    (∃ value, (asArray (Parser.inOrder 0 (xs.map part) run)).1 = .ok value) ↔
      ∀ x ∈ xs, A x (part x).2 := by
  have keeps : ∀ y ∈ xs.map part, y.1.Keeps fun run => run.depth = depth :=
    List.forall_mem_map.2 fun x member => (lawful x member).keeps_depth depth
  rcases returned : Parser.inOrder 0 (xs.map part) run with ⟨failure | values, after⟩
  · obtain ⟨i, y, inner, found, fails, -⟩ := inOrder_error keeps start (by rw [returned])
    obtain ⟨x, member, rfl⟩ := List.mem_map.1 (List.mem_of_getElem? found)
    have refused := (decides x member).not_of_error fails
    constructor
    · rintro ⟨value, impossible⟩
      cases impossible
    · exact fun all => (refused (all x member)).elim
  · have each := inOrder_ok keeps start (by rw [returned])
    refine ⟨fun _ x member => ?_, fun _ => ⟨.array values, rfl⟩⟩
    obtain ⟨value, -, accepts⟩ := exists_related_of_mem each (List.mem_map_of_mem member)
    exact (decides x member).of_ok accepts

private theorem fieldsInOrder {xs : List ι} (part : ι → String × Parser) {A : ι → Value → Prop}
    (lawful : ∀ x ∈ xs, (part x).2.Lawful) (decides : ∀ x ∈ xs, (part x).2.Decides depth (A x))
    (entries : Entries Value) (run : Run) (start : run.depth = depth) :
    (∃ values, (Parser.fieldsInOrder entries (xs.map part) run).1 = .ok values) ↔
      ∀ x ∈ xs, A x (fieldValue entries (part x).1) := by
  have keeps : ∀ f ∈ xs.map part, f.2.Keeps fun run => run.depth = depth :=
    List.forall_mem_map.2 fun x member => (lawful x member).keeps_depth depth
  rcases returned : Parser.fieldsInOrder entries (xs.map part) run with ⟨failure | values, after⟩
  · obtain ⟨f, listed, inner, fails, -⟩ := fieldsInOrder_error keeps start (by rw [returned])
    obtain ⟨x, member, rfl⟩ := List.mem_map.1 listed
    have refused := (decides x member).not_of_error fails
    constructor
    · rintro ⟨values, impossible⟩
      cases impossible
    · exact fun all => (refused (all x member)).elim
  · have each := fieldsInOrder_ok keeps start (by rw [returned])
    refine ⟨fun _ x member => ?_, fun _ => ⟨values, rfl⟩⟩
    obtain ⟨value, accepts⟩ := each _ (List.mem_map_of_mem member)
    exact (decides x member).of_ok accepts

private theorem array (lawful : p.Lawful) (decides : p.Decides depth A) (size : Bounds Nat) :
    (Parser.array size p).Decides depth fun v =>
      ∃ items, v = .array items ∧ (∀ b ∈ size, b.Holds items.length) ∧ ∀ item ∈ items, A item := by
  intro input run start
  cases input with
  | array items =>
    simp only [Value.array.injEq, exists_eq_left']
    rw [← size.violation?_eq_none_iff_holds .arrayLength]
    cases violated : size.violation? .arrayLength items.length with
    | some failure => simp [Parser.array, violated]
    | none =>
      simp only [Parser.array, violated, true_and]
      exact inOrder _ (A := fun _ => A) (fun _ _ => lawful) (fun _ _ => decides) run start
  | _ => simp [Parser.array]

private theorem tuple {xs : List ι} (part : ι → Parser) {A : ι → Value → Prop}
    (lawful : ∀ x ∈ xs, (part x).Lawful) (decides : ∀ x ∈ xs, (part x).Decides depth (A x)) :
    (Parser.tuple (xs.map part)).Decides depth fun v =>
      ∃ items, v = .array items ∧ items.length = xs.length ∧ ∀ x ∈ xs.zip items, A x.1 x.2 := by
  intro input run start
  cases input with
  | array items =>
    simp only [Value.array.injEq, exists_eq_left']
    by_cases same : items.length = xs.length
    · simp only [Parser.tuple, List.length_map, same, if_true, true_and, List.zip_map_left]
      exact inOrder (fun x => (part x.1, x.2)) (A := fun x => A x.1)
        (fun x member => lawful x.1 (List.of_mem_zip member).1)
        (fun x member => decides x.1 (List.of_mem_zip member).1) run start
    · simp [Parser.tuple, same]
  | _ => simp [Parser.tuple]

private theorem object {xs : List ι} (part : ι → String × Parser) {A : ι → Value → Prop}
    (lawful : ∀ x ∈ xs, (part x).2.Lawful) (decides : ∀ x ∈ xs, (part x).2.Decides depth (A x))
    (policy : UnknownKeys) :
    (Parser.object policy (xs.map part)).Decides depth fun v =>
      ∃ entries, v = .object entries ∧ (∀ x ∈ xs, A x (fieldValue entries (part x).1)) ∧
        (policy = .strict →
          ∀ name ∈ Entries.names entries, name ∈ Entries.names (xs.map part)) := by
  intro input run start
  cases input with
  | object entries =>
    simp only [Value.object.injEq, exists_eq_left']
    rw [← fieldsInOrder part lawful decides entries run start, ← Entries.without_isEmpty]
    rcases returned : Parser.fieldsInOrder entries (xs.map part) run with ⟨failure | values, after⟩
    · simp [Parser.object, returned]
    · cases policy with
      | strict =>
        by_cases none : (Entries.without entries (xs.map part)).isEmpty = true
        · simp only [Parser.object, returned, withUndeclared, none, if_true]
          simp
        · simp only [Parser.object, returned, withUndeclared, none]
          simp
      | _ => simp [Parser.object, returned, withUndeclared]
  | _ => simp [Parser.object]

private theorem union {xs : List ι} (part : ι → SchemaKind × Parser) {A : ι → Value → Prop}
    (lawful : ∀ x ∈ xs, (part x).2.Lawful) (decides : ∀ x ∈ xs, (part x).2.Decides depth (A x))
    (quiet : ∀ x ∈ xs, (part x).2.Quiet depth) (detail : UnionFailures) :
    (Parser.union detail (xs.map part)).Decides depth fun v => ∃ x ∈ xs, A x v := by
  intro input run start
  have keeps : ∀ c ∈ xs.map part, c.2.Keeps fun run => run.depth = depth :=
    List.forall_mem_map.2 fun x member => (lawful x member).keeps_depth depth
  have known := firstOf_explained keeps (fun _ _ kept => kept) input 0 start
  rw [union_eq]
  cases tried : (Parser.firstOf 0 (xs.map part) input run).1 with
  | accepted value =>
    rw [tried] at known
    obtain ⟨before, c, after, split, -, accepts⟩ := known
    obtain ⟨x, member, rfl⟩ : ∃ x ∈ xs, part x = c := by
      rw [← List.mem_map, split]
      exact List.mem_append_right before List.mem_cons_self
    exact ⟨fun _ => ⟨x, member, (decides x member).of_ok accepts⟩, fun _ => ⟨value, rfl⟩⟩
  | stopped failure =>
    rw [tried] at known
    obtain ⟨limit, c, listed, stops⟩ := known
    obtain ⟨x, member, rfl⟩ := List.mem_map.1 listed
    rw [(quiet x member).not_isLimit stops] at limit
    cases limit
  | refused failures =>
    rw [tried] at known
    have refuse : ∀ x ∈ xs, ¬ A x input := by
      intro x member accepts
      obtain ⟨failure, -, fails, -⟩ :=
        exists_related_of_mem known (List.mem_map_of_mem member)
      exact (decides x member).not_of_error fails accepts
    constructor
    · rintro ⟨value, impossible⟩
      cases impossible
    · rintro ⟨x, member, accepts⟩
      exact (refuse x member accepts).elim

end Decides

end Parser

namespace Schema

variable {o : Options}

private theorem enter_decides (s : Schema) (plain : s.WithoutDefaults) (depth : Nat)
    (room : depth + s.height ≤ o.maxDepth) : (s.enter o).Decides depth (s.Accepts o) := by
  have lawful : ∀ t : Schema, (t.enter o).Lawful := fun t => t.enter_lawful o
  induction s using Schema.induction generalizing depth with
  | primitive m p =>
    have check : (check o (.primitive m p)).Decides (depth + 1) p.Accepts :=
      fun input _ _ => p.check_ok_iff input
    refine (check.resolved plain.self ?_).guarded (by simp only [height] at room; omega)
    intro accepts
    cases p with
    | undefined => rfl
    | _ => exact accepts.elim
  | array m size element ih =>
    have inner := ih plain.element (depth + 1) (by simp only [height] at room; omega)
    have check := Parser.Decides.array (lawful element) inner size
    refine (check.resolved plain.self ?_).guarded (by simp only [height] at room; omega)
    rintro ⟨items, impossible, -⟩
    cases impossible
  | tuple m schemas ih =>
    have inner : ∀ s ∈ schemas, (s.enter o).Decides (depth + 1) (s.Accepts o) := by
      intro s member
      have least := height_le_greatestHeight member
      exact ih s member (plain.item member) (depth + 1) (by simp only [height] at room; omega)
    have check : (check o (.tuple m schemas)).Decides (depth + 1) fun v =>
        ∃ items, v = .array items ∧ AcceptsEach o schemas items := by
      rw [check_tuple]
      refine (Parser.Decides.tuple _ (fun s _ => lawful s) inner).congr fun v => ?_
      simp only [acceptsEach_iff]
    refine (check.resolved plain.self ?_).guarded (by simp only [height] at room; omega)
    rintro ⟨items, impossible, -⟩
    cases impossible
  | object m unknownKeys fields ih =>
    have inner : ∀ f ∈ fields, (f.2.enter o).Decides (depth + 1) (f.2.Accepts o) := by
      intro f member
      have least := height_le_greatestFieldHeight member
      exact ih f member (plain.field member) (depth + 1) (by simp only [height] at room; omega)
    have names : Entries.names (fields.map fun f => (f.1, f.2.enter o)) = Entries.names fields :=
      Entries.names_map fields _
    have check : (check o (.object m unknownKeys fields)).Decides (depth + 1) fun v =>
        ∃ entries, v = .object entries ∧ AcceptsFields o fields entries ∧
          (o.unknownKeys?.getD unknownKeys = .strict →
            ∀ name ∈ Entries.names entries, name ∈ Entries.names fields) := by
      rw [check_object]
      refine (Parser.Decides.object (fun f : String × Schema => (f.1, f.2.enter o))
        (fun f _ => lawful f.2) inner _).congr fun v => ?_
      simp only [acceptsFields_iff, names]
    refine (check.resolved plain.self ?_).guarded (by simp only [height] at room; omega)
    rintro ⟨entries, impossible, -⟩
    cases impossible
  | union m candidates ih =>
    have room : ∀ s ∈ candidates, depth + 1 + s.height ≤ o.maxDepth ∧ depth < o.maxDepth := by
      intro s member
      have least := height_le_greatestHeight member
      simp only [height] at room
      omega
    have check : (check o (.union m candidates)).Decides (depth + 1) (AcceptsAny o candidates) := by
      rw [check_union]
      refine (Parser.Decides.union (fun s => (s.kind, s.enter o)) (fun s _ => lawful s)
        (fun s member => ih s member (plain.candidate member) (depth + 1) (room s member).1)
        (fun s member => s.enter_quiet o (depth + 1) (room s member).1) _).congr fun v => ?_
      rw [acceptsAny_iff]
    refine (check.resolved plain.self ?_).guarded (by simp only [height] at *; omega)
    intro accepts
    obtain ⟨s, member, accepts⟩ := (acceptsAny_iff candidates .undefined).1 accepts
    exact (anyAdmitsUndefined_iff candidates).2 ⟨s, member, accepts.admitsUndefined⟩

/-- A parse by a schema without defaults, with enough depth for it, succeeds exactly on the values
of its language. -/
theorem parse_ok_iff_accepts (s : Schema) (plain : s.WithoutDefaults) (o : Options)
    (deep : s.height ≤ o.maxDepth) (input : Value) (session : Session) :
    (∃ value, (s.parse o input session).1 = .ok value) ↔ s.Accepts o input := by
  rw [parse_result]
  exact s.enter_decides plain 0 (by omega) input ⟨session, 0⟩ rfl

/-- The language of a field that is a union of unions takes an object without the field, and no
empty array in it. -/
theorem accepts_absent_not_empty :
    let items : Schema := .unionOf [.null, .unionOf [.undefined, .array {} [⟨.min, 1⟩] .number]]
    (objectOf [("items", items)]).Accepts .strict (.object []) ∧
      ¬ (objectOf [("items", items)]).Accepts .strict (.object [("items", .array [])]) := by
  intro items
  have correct := parse_ok_iff_accepts (objectOf [("items", items)]) (by decide) .strict (by decide)
  constructor
  · exact (correct (.object []) {}).1 ⟨.object [], rfl⟩
  · rw [← correct (.object [("items", .array [])]) {}]
    rintro ⟨value, accepted⟩
    cases accepted

end Schema

namespace Schema

/-- A value that a schema lets out. Its modifiers pass it, or it is of the schema's kind with
conforming parts. An absent field of an object counts as undefined. -/
inductive Conforms (o : Options) : Schema → Value → Prop
  | passes {s : Schema} {v : Value} (passes : s.modifiers.passes v = true) : Conforms o s v
  | primitive {m : Modifiers} {p : Primitive} {v : Value} (accepts : p.Accepts v) :
      Conforms o (.primitive m p) v
  | array {m : Modifiers} {size : Bounds Nat} {element : Schema} {items : List Value}
      (within : ∀ b ∈ size, b.Holds items.length)
      (each : ∀ item ∈ items, Conforms o element item) :
      Conforms o (.array m size element) (.array items)
  | tuple {m : Modifiers} {schemas : List Schema} {items : List Value}
      (arity : items.length = schemas.length)
      (each : ∀ x ∈ schemas.zip items, Conforms o x.1 x.2) :
      Conforms o (.tuple m schemas) (.array items)
  | object {m : Modifiers} {unknownKeys : UnknownKeys} {fields : List (String × Schema)}
      {entries : Entries Value}
      (each : ∀ f ∈ fields, Conforms o f.2 (Parser.fieldValue entries f.1))
      (declared : o.unknownKeys?.getD unknownKeys ≠ .passthrough →
        ∀ name ∈ Entries.names entries, name ∈ Entries.names fields) :
      Conforms o (.object m unknownKeys fields) (.object entries)
  | union {m : Modifiers} {candidates : List Schema} {s : Schema} {v : Value}
      (member : s ∈ candidates) (inside : Conforms o s v) : Conforms o (.union m candidates) v

variable {o : Options} {s : Schema} {v w : Value} {run : Run}

theorem Conforms.of_modify {change : Modifier} (conforms : (s.modify change).Conforms o v)
    (inside : (s.modifiers.apply change).passes v = true → s.modifiers.passes v = true) :
    s.Conforms o v := by
  cases s with
  | primitive m p =>
    cases conforms with
    | passes passes => exact .passes (inside passes)
    | primitive accepts => exact .primitive accepts
  | array m size element =>
    cases conforms with
    | passes passes => exact .passes (inside passes)
    | array within each => exact .array within each
  | tuple m items =>
    cases conforms with
    | passes passes => exact .passes (inside passes)
    | tuple arity each => exact .tuple arity each
  | object m unknownKeys fields =>
    cases conforms with
    | passes passes => exact .passes (inside passes)
    | object each declared => exact .object each declared
  | union m candidates =>
    cases conforms with
    | passes passes => exact .passes (inside passes)
    | union member below => exact .union member below

private theorem conforms_of_check
    (check : ∀ r inner, (s.check o r inner).1 = .ok w → s.Conforms o w)
    (accepted : (s.enter o v run).1 = .ok w) : s.Conforms o w := by
  obtain ⟨r, inner, -, -, ⟨passes, rfl⟩ | ⟨-, checked⟩⟩ := enter_ok_cases o accepted
  · exact .passes passes
  · exact check r inner checked

theorem enter_conforms (s : Schema) (wf : s.WellFormed)
    (accepted : (s.enter o v run).1 = .ok w) : s.Conforms o w := by
  induction s using Schema.induction generalizing v w run with
  | primitive m p =>
    refine conforms_of_check (fun r inner checked => ?_) accepted
    have same : p.check r = .ok w := checked
    obtain rfl := Primitive.eq_of_check_ok same
    exact .primitive ((p.check_ok_iff w).1 ⟨w, same⟩)
  | array m size element ih =>
    refine conforms_of_check (fun r inner checked => ?_) accepted
    rw [check_array] at checked
    obtain ⟨items, values, rfl, rfl, each⟩ := Parser.array_ok (.all _) trivial checked
    have within := (size.violation?_eq_none_iff_holds .arrayLength items.length).1
      (Parser.array_within checked)
    rw [each.length_eq] at within
    refine .array within fun value member => ?_
    obtain ⟨item, -, inner, -, returns⟩ := exists_related_of_mem each.flip member
    exact ih wf.element returns
  | tuple m schemas ih =>
    refine conforms_of_check (fun r inner checked => ?_) accepted
    rw [check_tuple] at checked
    obtain ⟨items, values, rfl, rfl, same, each⟩ :=
      Parser.tuple_ok (fun _ _ => .all _) trivial checked
    rw [List.length_map] at same
    have arity : values.length = schemas.length := by
      rw [← each.length_eq, List.length_zip, List.length_map, same, Nat.min_self]
    rw [List.zip_map_left, List.forall₂_map_left_iff] at each
    refine .tuple arity fun x member => ?_
    obtain ⟨item, inner, -, returns⟩ := Parser.exists_item_of_mem_zip same each member
    have part : x.1 ∈ schemas := (List.of_mem_zip member).1
    exact ih x.1 part (wf.item part) returns
  | object m unknownKeys fields ih =>
    refine conforms_of_check (fun r inner checked => ?_) accepted
    rw [check_object] at checked
    obtain ⟨entries, all, rfl, each, rfl, -⟩ :=
      Parser.object_made (fun _ _ => .all _) trivial checked
    have names := Parser.names_eq_of_forall₂ each
    have undeclared : ∀ name ∈ Entries.names (Parser.keptUndeclared
        (o.unknownKeys?.getD unknownKeys)
        (Entries.without entries (fields.map fun f => (f.1, f.2.enter o)))),
        name ∉ Entries.names all :=
      fun name found => names ▸ Parser.names_keptUndeclared found
    rw [Entries.names_map] at names
    have nodup : (Entries.names all).Nodup := names ▸ wf.self
    refine .object (fun f member => ?_) fun policy name found => ?_
    · obtain ⟨a, inside, same, inner, -, returns⟩ :=
        exists_related_of_mem (List.forall₂_map_left_iff.1 each) member
      rw [show f.1 = a.1 from same, Parser.fieldValue_made nodup undeclared inside]
      exact ih f member (wf.field member) returns
    · rw [Parser.keptUndeclared_eq_nil policy, List.append_nil] at found
      exact names ▸ (Parser.names_kept_sublist entries all).subset found
  | union m candidates ih =>
    refine conforms_of_check (fun r inner checked => ?_) accepted
    rw [check_union] at checked
    obtain ⟨c, listed, inner, -, returns⟩ :=
      Parser.union_ok (fun _ _ => .all _) (fun _ _ _ => trivial) trivial checked
    obtain ⟨s, member, rfl⟩ := List.mem_map.1 listed
    exact .union member (ih s member (wf.candidate member) returns)

/-- Every output of a successful parse conforms to the schema, at every depth and whatever defaults
were put in place of absent values. -/
theorem parse_ok_conforms (s : Schema) (wf : s.WellFormed) (o : Options) (input : Value)
    (session : Session) {value : Value} (parsed : (s.parse o input session).1 = .ok value) :
    s.Conforms o value := by
  rw [parse_result] at parsed
  exact s.enter_conforms wf parsed

/-- The first candidate's default is of the wrong type, so the union goes on to the producer of the
second one, which was called once before. The undeclared entry is dropped. -/
theorem produced_output_conforms :
    let port : Schema := .unionOf [.modify .number (.default (.value (.string "none"))),
      .modify .string (.default (.producer (.cycle 0 [.string "a", .string "b"])))]
    let s := objectOf [("port", port), ("host", .string)]
    let o : Options := { unknownKeys? := some .strip }
    let value : Value := .object [("port", .string "b"), ("host", .string "h")]
    s.WellFormed ∧
      (s.parse o (.object [("x", .null), ("host", .string "h")]) { calls := [0] }).1 = .ok value ∧
      s.Conforms o value := by
  intro port s o value
  have wf : s.WellFormed := by decide
  have parsed : (s.parse o (.object [("x", .null), ("host", .string "h")]) { calls := [0] }).1 =
      .ok value := rfl
  exact ⟨wf, parsed, parse_ok_conforms s wf o _ _ parsed⟩

end Schema

end ValueSchema
