import ValueSchema.Proofs.Parser.Loops
import ValueSchema.Proofs.Schema.FixedDefaults

/-!
Fixed defaults can be put in place before a parse, if no value is tried by several schemas.
-/

set_option autoImplicit false
set_option relaxedAutoImplicit false

namespace ValueSchema

namespace Schema

mutual

/-- A schema without its defaults, at every depth. -/
def defaultless : Schema → Schema
  | .primitive m p => .primitive { m with default? := none } p
  | .array m size element => .array { m with default? := none } size element.defaultless
  | .tuple m items => .tuple { m with default? := none } (defaultlessItems items)
  | .object m unknownKeys fields =>
    .object { m with default? := none } unknownKeys (defaultlessFields fields)
  | .union m candidates => .union { m with default? := none } (defaultlessItems candidates)

def defaultlessItems : List Schema → List Schema
  | [] => []
  | s :: rest => s.defaultless :: defaultlessItems rest

def defaultlessFields : List (String × Schema) → List (String × Schema)
  | [] => []
  | (name, s) :: rest => (name, s.defaultless) :: defaultlessFields rest

end

mutual

/-- A value with the defaults of a schema in place of the absent parts that the schema looks at. An
absent field is put into its object, unless undefined stands in for it. -/
def fill : Schema → Value → Value
  | .primitive m _, v => m.reached v
  | .array m _ element, v =>
    match m.reached v with
    | .array items => .array (items.map fun item => element.fill item)
    | u => u
  | .tuple m schemas, v =>
    match m.reached v with
    | .array items => .array (fillItems schemas items)
    | u => u
  | .object m _ fields, v =>
    match m.reached v with
    | .object entries =>
      .object (Entries.putAll entries
        ((fillFields fields entries).filter fun f => !f.2.isUndefined))
    | u => u
  | .union m _, v => m.reached v

def fillItems : List Schema → List Value → List Value
  | s :: schemas, item :: items => s.fill item :: fillItems schemas items
  | _, items => items

def fillFields : List (String × Schema) → Entries Value → Entries Value
  | [], _ => []
  | (name, s) :: rest, entries =>
    (name, s.fill (Parser.fieldValue entries name)) :: fillFields rest entries

end

private theorem defaultlessItems_eq (items : List Schema) :
    defaultlessItems items = items.map defaultless := by
  induction items with
  | nil => rfl
  | cons s rest ih => rw [defaultlessItems, ih, List.map_cons]

private theorem defaultlessFields_eq (fields : List (String × Schema)) :
    defaultlessFields fields = fields.map fun f => (f.1, f.2.defaultless) := by
  induction fields with
  | nil => rfl
  | cons f rest ih => rw [defaultlessFields, ih, List.map_cons]

private theorem fillFields_eq (fields : List (String × Schema)) (entries : Entries Value) :
    fillFields fields entries =
      fields.map fun f => (f.1, f.2.fill (Parser.fieldValue entries f.1)) := by
  induction fields with
  | nil => rfl
  | cons f rest ih => rw [fillFields, ih, List.map_cons]

private theorem fillItems_length (schemas : List Schema) (items : List Value) :
    (fillItems schemas items).length = items.length := by
  induction schemas generalizing items with
  | nil => rfl
  | cons s rest ih =>
    cases items with
    | nil => rfl
    | cons item items => rw [fillItems, List.length_cons, ih, List.length_cons]

theorem WithoutDefaults.of_defaultless (s : Schema) : s.defaultless.WithoutDefaults := by
  induction s using Schema.induction with
  | primitive m p => exact rfl
  | array m size element ih => exact ⟨rfl, ih⟩
  | tuple m items ih =>
    refine ⟨rfl, (everywhereIn_iff _).2 ?_⟩
    rw [defaultlessItems_eq]
    exact List.forall_mem_map.2 ih
  | object m unknownKeys fields ih =>
    refine ⟨rfl, (everywhereInFields_iff _).2 ?_⟩
    rw [defaultlessFields_eq]
    exact List.forall_mem_map.2 ih
  | union m candidates ih =>
    refine ⟨rfl, (everywhereIn_iff _).2 ?_⟩
    rw [defaultlessItems_eq]
    exact List.forall_mem_map.2 ih

@[simp] private theorem modifiers_defaultless (s : Schema) :
    s.defaultless.modifiers = { s.modifiers with default? := none } := by
  cases s <;> rfl

private theorem handlesUndefined_defaultless {s : Schema} (single : s.kind ≠ .union) :
    s.defaultless.handlesUndefined = s.handlesUndefined := by
  cases s with
  | union m candidates => exact (single rfl).elim
  | primitive m p => cases p <;> rfl
  | _ => rfl

private theorem kind_fill (s : Schema) (v : Value) : (s.fill v).kind =
    (s.modifiers.reached v).kind := by
  cases s with
  | primitive m p => rfl
  | union m candidates => rfl
  | array m size element =>
    rw [fill]
    change _ = (m.reached v).kind
    cases m.reached v <;> rfl
  | tuple m schemas =>
    rw [fill]
    change _ = (m.reached v).kind
    cases m.reached v <;> rfl
  | object m unknownKeys fields =>
    rw [fill]
    change _ = (m.reached v).kind
    cases m.reached v <;> rfl

end Schema

namespace Parser

private theorem settled_congr {m : Modifiers} {d? : Option Default} {handles : Bool}
    {check check' : Parser} {u u' : Value} (kind : u'.kind = u.kind) (same : check' u' = check u) :
    settled { m with default? := d? } handles check' u' = settled m handles check u := by
  funext run
  cases u with
  | undefined =>
    obtain rfl : u' = .undefined := Value.eq_undefined_of_kind kind
    simp only [settled, same]
  | null =>
    obtain rfl : u' = .null := Value.eq_null_of_kind kind
    simp only [settled, same]
  | _ =>
    cases u' <;> first | exact congrFun same run | cases kind

end Parser

namespace Schema

variable {o : Options} {s : Schema} {v : Value}

private theorem enter_fill_of_check (single : s.kind ≠ .union)
    (fixed : ∀ p, s.modifiers.default? ≠ some (.producer p))
    (check : s.defaultless.check o (s.fill v) = s.check o (s.modifiers.reached v)) :
    s.defaultless.enter o (s.fill v) = s.enter o v := by
  have plain : s.defaultless.modifiers.default? = none := by rw [modifiers_defaultless]
  have settled : Parser.resolved s.defaultless.modifiers s.defaultless.handlesUndefined
        (s.defaultless.check o) (s.fill v) =
      Parser.resolved s.modifiers s.handlesUndefined (s.check o) v := by
    rw [Parser.resolved_eq_settled plain, Parser.resolved_eq_reached (fun _ => fixed),
      modifiers_defaultless, handlesUndefined_defaultless single]
    exact Parser.settled_congr (s.kind_fill v) check
  funext run
  rw [enter_eq, enter_eq]
  simp only [Parser.guarded, settled]

private theorem forall₂_fillItems {schemas : List Schema}
    (each : ∀ s ∈ schemas, ∀ item, s.defaultless.enter o (s.fill item) = s.enter o item)
    (items : List Value) :
    List.Forall₂ (fun a b : Parser × Value => a.1 a.2 = b.1 b.2)
      (((schemas.map defaultless).map (enter o)).zip (fillItems schemas items))
      ((schemas.map (enter o)).zip items) := by
  induction schemas generalizing items with
  | nil => exact .nil
  | cons s rest ih =>
    cases items with
    | nil => exact .nil
    | cons item items =>
      exact .cons (each s List.mem_cons_self item)
        (ih (fun t member => each t (List.mem_cons_of_mem s member)) items)

private def filledEntries (fields : List (String × Schema)) (entries : Entries Value) :
    Entries Value :=
  Entries.putAll entries ((fillFields fields entries).filter fun f => !f.2.isUndefined)

private theorem names_fillFields (fields : List (String × Schema)) (entries : Entries Value) :
    Entries.names (fillFields fields entries) = Entries.names fields := by
  rw [fillFields_eq]
  exact Entries.names_map fields _

private theorem find?_filledEntries {fields : List (String × Schema)}
    (nodup : (Entries.names fields).Nodup) (entries : Entries Value) {f : String × Schema}
    (member : f ∈ fields) :
    Entries.find? (filledEntries fields entries) f.1 =
      if (f.2.fill (Parser.fieldValue entries f.1)).isUndefined then Entries.find? entries f.1
      else some (f.2.fill (Parser.fieldValue entries f.1)) := by
  have distinct : (Entries.names (fillFields fields entries)).Nodup := by
    rwa [names_fillFields]
  have put : (f.1, f.2.fill (Parser.fieldValue entries f.1)) ∈ fillFields fields entries := by
    rw [fillFields_eq]
    exact List.mem_map_of_mem member
  have inside : (Entries.names
      ((fillFields fields entries).filter fun f => !f.2.isUndefined)).Nodup :=
    distinct.sublist (List.filter_sublist.map Prod.fst)
  rw [filledEntries, Entries.find?_putAll inside,
    Entries.find?_filter distinct fun v => !v.isUndefined, Entries.find?_of_mem distinct put]
  split
  next absent => simp [Option.filter, absent]
  next present => simp [Option.filter, present]

private theorem fill_eq_of_isUndefined (absent : (s.fill v).isUndefined = true) : s.fill v = v := by
  have none := Value.isUndefined_eq_true_iff.1 absent
  have kind := s.kind_fill v
  rw [none] at kind ⊢
  by_cases missing : v = .undefined
  · exact missing.symm
  · rw [s.modifiers.reached_of_present missing] at kind
    exact (missing (Value.eq_undefined_of_kind kind.symm)).elim

private theorem fieldValue_filledEntries {fields : List (String × Schema)}
    (nodup : (Entries.names fields).Nodup) (entries : Entries Value) {f : String × Schema}
    (member : f ∈ fields) :
    Parser.fieldValue (filledEntries fields entries) f.1 =
      f.2.fill (Parser.fieldValue entries f.1) := by
  rw [Parser.fieldValue, find?_filledEntries nodup entries member]
  split
  next absent => exact (fill_eq_of_isUndefined absent).symm
  next => rfl

private theorem without_filledEntries (fields : List (String × Schema)) (entries : Entries Value) :
    Entries.without (filledEntries fields entries) fields = Entries.without entries fields := by
  refine Entries.without_putAll entries fun name put => ?_
  rw [← names_fillFields fields entries]
  exact (List.filter_sublist.map Prod.fst).subset put

private theorem kept_filledEntries {fields : List (String × Schema)}
    (nodup : (Entries.names fields).Nodup) (entries : Entries Value) {f : String × Schema}
    (member : f ∈ fields) {run : Run} {value : Value}
    (parsed : (f.2.defaultless.enter o (f.2.fill (Parser.fieldValue entries f.1)) run).1 =
      .ok value) :
    Parser.kept (filledEntries fields entries) [(f.1, value)] =
      Parser.kept entries [(f.1, value)] := by
  simp only [Parser.kept, List.filter_cons, List.filter_nil,
    find?_filledEntries nodup entries member]
  split
  next => rfl
  next present =>
    have some_value : value.isUndefined = false := by
      have filled : f.2.fill (Parser.fieldValue entries f.1) ≠ .undefined :=
        fun absent => present (Value.isUndefined_eq_true_iff.2 absent)
      rw [Value.isUndefined_eq_of_kind (kind_of_enter_ok filled parsed)]
      simpa using present
    simp [some_value]

private theorem object_fill {fields : List (String × Schema)} (nodup : (Entries.names fields).Nodup)
    (each : ∀ f ∈ fields, ∀ v, f.2.defaultless.enter o (f.2.fill v) = f.2.enter o v)
    (policy : UnknownKeys) (entries : Entries Value) :
    Parser.object policy ((fields.map fun f => (f.1, f.2.defaultless)).map
        fun f => (f.1, f.2.enter o)) (.object (filledEntries fields entries)) =
      Parser.object policy (fields.map fun f => (f.1, f.2.enter o)) (.object entries) := by
  have parsed : Parser.fieldsInOrder (filledEntries fields entries)
        ((fields.map fun f => (f.1, f.2.defaultless)).map fun f => (f.1, f.2.enter o)) =
      Parser.fieldsInOrder entries (fields.map fun f => (f.1, f.2.enter o)) := by
    refine Parser.fieldsInOrder_congr ?_
    rw [List.map_map, List.forall₂_map_left_iff, List.forall₂_map_right_iff, List.forall₂_same]
    intro f member
    have value := fieldValue_filledEntries nodup entries member
    refine ⟨rfl, ?_, fun run w accepted => ?_⟩
    · exact (congrArg _ value).trans (each f member _)
    · have filled : (f.2.defaultless.enter o (f.2.fill (Parser.fieldValue entries f.1)) run).1 =
          .ok w := value ▸ accepted
      exact kept_filledEntries nodup entries member filled
  have undeclared : Entries.without (filledEntries fields entries)
        ((fields.map fun f => (f.1, f.2.defaultless)).map fun f => (f.1, f.2.enter o)) =
      Entries.without entries (fields.map fun f => (f.1, f.2.enter o)) := by
    have names : Entries.names (fields.map fun f => (f.1, f.2.enter o)) = Entries.names fields :=
      Entries.names_map fields _
    have names' : Entries.names ((fields.map fun f => (f.1, f.2.defaultless)).map
        fun f => (f.1, f.2.enter o)) = Entries.names fields := by
      rw [List.map_map]
      exact Entries.names_map fields _
    rw [Entries.without_congr _ names', without_filledEntries, Entries.without_congr _ names]
  funext run
  simp only [Parser.object, parsed, undeclared]

private theorem enter_fill (wf : s.WellFormed) (unionless : s.WithoutUnions)
    (fixed : s.WithoutProducers) (v : Value) : s.defaultless.enter o (s.fill v) = s.enter o v := by
  induction s using Schema.induction generalizing v with
  | primitive m p => exact enter_fill_of_check unionless.self fixed.self rfl
  | array m size element ih =>
    refine enter_fill_of_check unionless.self fixed.self ?_
    have inside := ih wf.element unionless.element fixed.element
    change (array _ size element.defaultless).check o (fill (array m size element) v) =
      (array m size element).check o (m.reached v)
    rw [fill, check_array, check_array]
    cases m.reached v with
    | array items =>
      have same : List.Forall₂ (fun a b : Parser × Value => a.1 a.2 = b.1 b.2)
          ((items.map fun item => element.fill item).map fun item =>
            (element.defaultless.enter o, item))
          (items.map fun item => (element.enter o, item)) := by
        rw [List.map_map, List.forall₂_map_left_iff, List.forall₂_map_right_iff, List.forall₂_same]
        exact fun item _ => inside item
      funext run
      simp only [Parser.array, List.length_map, Parser.inOrder_congr same]
    | _ => rfl
  | tuple m schemas ih =>
    refine enter_fill_of_check unionless.self fixed.self ?_
    change (tuple _ (defaultlessItems schemas)).check o (fill (tuple m schemas) v) =
      (tuple m schemas).check o (m.reached v)
    rw [fill, check_tuple, check_tuple, defaultlessItems_eq]
    cases m.reached v with
    | array items =>
      have same := forall₂_fillItems (fun s member =>
        ih s member (wf.item member) (unionless.item member) (fixed.item member)) items
      funext run
      simp only [Parser.tuple, List.length_map, fillItems_length, Parser.inOrder_congr same]
    | _ => rfl
  | object m unknownKeys fields ih =>
    refine enter_fill_of_check unionless.self fixed.self ?_
    change (object _ unknownKeys (defaultlessFields fields)).check o
        (fill (object m unknownKeys fields) v) = (object m unknownKeys fields).check o (m.reached v)
    rw [fill, check_object, check_object, defaultlessFields_eq]
    cases m.reached v with
    | object entries =>
      refine object_fill wf.self (fun f member => ?_) _ entries
      exact ih f member (wf.field member) (unionless.field member) (fixed.field member)
    | _ => rfl
  | union m candidates _ => exact (unionless.self rfl).elim

/-- Defaults can be applied in advance: without unions and producers, a parse does with a value what
the parse without defaults does with the value in which they are filled in. -/
theorem parse_fill {s : Schema} (wf : s.WellFormed) (unionless : s.WithoutUnions)
    (fixed : s.WithoutProducers) (o : Options) (input : Value) (session : Session) :
    s.parse o input session = s.defaultless.parse o (s.fill input) session := by
  have entered : s.defaultless.enter o (s.fill input) = s.enter o input :=
    enter_fill wf unionless fixed input
  rw [parse, parse, entered]

/-- A list of tags that is absent from an object is filled in, and then the tag that is absent from
the list that stands in for it. Both parses refuse the null in that list, and both accept a list in
which a tag is absent and nothing is null. -/
theorem parse_fill_nested_defaults :
    let tag : Schema := .modify .string (.default (.value (.string "new")))
    let tags : Schema := .modify (.arrayOf tag) (.default (.value (.array [.undefined, .null])))
    let s : Schema := .objectOf [("tags", tags)]
    let absent : Value := .object [("tags", .array [.string "old", .undefined])]
    let filled : Value := .object [("tags", .array [.string "old", .string "new"])]
    s.WellFormed ∧ s.WithoutUnions ∧ s.WithoutProducers ∧
      s.fill (.object []) = .object [("tags", .array [.string "new", .null])] ∧
      s.parse {} (.object []) {} =
        s.defaultless.parse {} (.object [("tags", .array [.string "new", .null])]) {} ∧
      s.fill absent = filled ∧
      s.parse {} absent {} = (.ok filled, {}) ∧ s.defaultless.parse {} filled {} =
          (.ok filled, {}) := by
  intro tag tags s absent filled
  have wf : s.WellFormed := by decide
  have unionless : s.WithoutUnions := by decide
  have fixed : s.WithoutProducers := ⟨nofun, ⟨nofun, nofun⟩, trivial⟩
  have refused := parse_fill wf unionless fixed {} (.object []) {}
  have accepted : s.defaultless.parse {} filled {} = (.ok filled, {}) := rfl
  have same := parse_fill wf unionless fixed {} absent {}
  exact ⟨wf, unionless, fixed, rfl, refused, rfl, same.trans accepted, accepted⟩

end Schema

end ValueSchema
