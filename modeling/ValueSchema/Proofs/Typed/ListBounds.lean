import ValueSchema.Proofs.BoundCalls
import ValueSchema.Proofs.Composites
import ValueSchema.Typed.Parse

set_option autoImplicit false
set_option relaxedAutoImplicit false

namespace ValueSchema

namespace Visit

variable {o : Options} {s : Schema} {v : Value} {run after : Run} {values : List Value}

private theorem exists_checks_of_array (made : step o ⟨s, v, run⟩ = (.ok (.array values), after)) :
    ∃ u inner, Checks o ⟨s, v, run⟩ u inner := by
  rcases passes_or_checks made with ⟨inner, -, passes, -⟩ | checks
  · cases passes
  · exact checks

end Visit

namespace Schema

variable {o : Options} {m : Modifiers} {size : Bounds Nat} {element : Schema} {v : Value}
  {run after : Run} {session next : Session} {values : List Value}

private theorem enter_resized
    (made : (array m size element).enter o v run = (.ok (.array values), after))
    (size' : Bounds Nat) :
    ((∀ b ∈ size', b.violatedBy values.length = false) →
      (array m size' element).enter o v run = (.ok (.array values), after)) ∧
    ∀ cause, Misfit (array m size' element) values.length cause →
      ((array m size' element).enter o v run).1 = .error (.here cause) := by
  obtain ⟨u, inner, checks⟩ := Visit.exists_checks_of_array made
  obtain ⟨last, checked, rfl⟩ := checks.step_eq_iff.1 made
  have accepted := congrArg Prod.fst checked
  rw [check_array] at accepted
  obtain ⟨items, -, rfl, -⟩ := Parser.array_ok (.all _) trivial accepted
  have checks' : Visit.Checks o ⟨array m size' element, v, run⟩ (.array items) inner :=
    ⟨checks.room, checks.drawn, checks.closed, nofun⟩
  rw [check_sequence_iff (.inl rfl)] at checked
  cases checked with
  | @made all _ _ fits parsed =>
    have count : values.length = items.length := parsed.length_eq.trans fits.length_eq
    rw [count]
    constructor
    · intro within
      refine checks'.step_eq_iff.2 ⟨last, ?_, rfl⟩
      rw [check_sequence_iff (.inl rfl)]
      cases fits with
      | array => exact .made (.array within) parsed
    · intro cause refuses
      rw [show (array m size' element).enter o v run = Visit.step o ⟨_, v, run⟩ from rfl,
        checks'.step_eq, refuses.check_eq]

private theorem parse_resized
    (made : (array m size element).parse o v session = (.ok (.array values), next))
    (size' : Bounds Nat) :
    ((∀ b ∈ size', b.violatedBy values.length = false) →
      (array m size' element).parse o v session = (.ok (.array values), next)) ∧
    ∀ cause, Misfit (array m size' element) values.length cause →
      ((array m size' element).parse o v session).1 = .error (.here cause) := by
  rcases entered : (array m size element).enter o v ⟨session, 0⟩ with ⟨failure | w, after⟩
  · simp [parse, entered] at made
  obtain ⟨rfl, rfl⟩ : w = .array values ∧ after.toSession = next := by
    simpa [parse, entered] using made
  obtain ⟨fits, refuses⟩ := enter_resized entered size'
  refine ⟨fun within => ?_, fun cause misfit => ?_⟩
  · simp only [parse, fits within]
  · rw [parse_result, refuses cause misfit]

end Schema

namespace Typed

variable {o : Options} {t : Typed} {input : Value} {session after : Session} {items : List Output}

/-- A typed schema with bounds set by calls, one after the other. -/
def boundedBy (t : Typed) (calls : List (Bound Nat)) : Typed :=
  calls.foldl (fun t c => .bounded c.kind c.limit t) t

/-- What bounds make of a list: it stays, or the first bound that its size violates is reported. -/
inductive Counted (bounds : Bounds Nat) (items : List Output) : Except Failure Output → Prop
  | within (fits : ∀ b ∈ bounds, b.violatedBy items.length = false) :
      Counted bounds items (.ok (.list items))
  | outside {before after : Bounds Nat} {b : Bound Nat} (split : bounds = before ++ b :: after)
      (first : ∀ c ∈ before, c.violatedBy items.length = false)
      (violated : b.violatedBy items.length = true) :
      Counted bounds items (.error (.here
        (.constraintViolation .arrayLength b.kind (.ofNat b.limit) (.ofNat items.length))))

/-- A typed array on which bounds were set by some calls, and whose modifiers may have been changed
in between. -/
inductive OfArray : Typed → List (Bound Nat) → Prop
  | array (element : Typed) : OfArray (.array element) []
  | modified (change : Modifier) {inner : Typed} {calls : List (Bound Nat)}
      (below : OfArray inner calls) : OfArray (.modified change inner) calls
  | bounded (c : Bound Nat) {inner : Typed} {calls : List (Bound Nat)}
      (below : OfArray inner calls) : OfArray (.bounded c.kind c.limit inner) (calls ++ [c])

private theorem inOrder_length {converters : List Converter} {position : Nat}
    {pairs : List (Value × Value)} {outputs : List Output}
    (converted : (Converter.inOrder position converters pairs session).1 = .ok outputs) :
    outputs.length = converters.length := by
  induction converters generalizing position pairs session outputs with
  | nil =>
    cases converted
    rfl
  | cons c rest ih =>
    cases pairs with
    | nil => cases converted
    | cons pair pairs =>
      simp only [Converter.inOrder] at converted
      rcases first : c pair.1 pair.2 session with ⟨failure | output, mid⟩
      · simp [first] at converted
      rcases later : Converter.inOrder (position + 1) rest pairs mid with ⟨failure | others, last⟩
      · simp [first, later] at converted
      obtain rfl : output :: others = outputs := by simpa [first, later] using converted
      exact congrArg (· + 1) (ih (congrArg Prod.fst later))

private theorem exists_values_of_array {c : Converter} {y : Value}
    (converted : Converter.array c input y session = (.ok (.list items), after)) :
    ∃ values, y = .array values ∧ items.length = values.length := by
  cases y with
  | array values =>
    simp only [Converter.array] at converted
    rcases ran : Converter.inOrder 0 (values.map fun _ => c)
      ((Converter.itemInputs input values).zip values) session with ⟨failure | outputs, last⟩
    · rw [ran] at converted
      cases converted
    rw [ran] at converted
    obtain rfl : outputs = items := Output.list.inj (Except.ok.inj (congrArg Prod.fst converted))
    have counted : outputs.length = (values.map fun _ => c).length :=
      inOrder_length (congrArg Prod.fst ran)
    exact ⟨values, rfl, by rw [counted, List.length_map]⟩
  | _ => cases converted

private theorem counted_of_sizes {t' : Typed} {m : Modifiers} {size size' : Bounds Nat}
    {element : Schema} {c : Converter} (before : t.schema = .array m size element)
    (converts : t.converter o = .array c) (now : t'.schema = .array m size' element)
    (converts' : t'.converter o = .array c)
    (parsed : t.parse o input session = (.ok (.list items), after)) :
    Counted size' items (t'.parse o input session).1 := by
  rcases made : t.schema.parse o input session with ⟨failure | w, mid⟩
  · simp [parse, made] at parsed
  have converted : Converter.array c input w mid = (.ok (.list items), after) := by
    simpa only [parse, made, converts] using parsed
  obtain ⟨values, rfl, count⟩ := exists_values_of_array converted
  rw [before] at made
  obtain ⟨fits, refuses⟩ := Schema.parse_resized made size'
  rcases Bounds.within_or_violated size' items.length with within |
    ⟨done, b, rest, split, first, violated⟩
  · have same : t'.parse o input session = (.ok (.list items), after) := by
      simp only [parse, now, fits (count ▸ within), converts', converted]
    rw [same]
    exact .within within
  · have refused := refuses _ (.array split (count ▸ first) (count ▸ violated))
    rcases returned : (Schema.array m size' element).parse o input session with ⟨result, last⟩
    rw [returned] at refused
    obtain rfl : result = _ := refused
    simp only [parse, now, returned, ← count]
    exact .outside split first violated

private theorem OfArray.schema_eq {calls : List (Bound Nat)} (array : OfArray t calls) :
    ∃ (m : Modifiers) (element : Typed),
      t.schema = .array m (Bounds.declared calls) element.schema ∧
      ∀ o, t.converter o = .array (element.converter o) := by
  induction array with
  | array element => exact ⟨{}, element, rfl, fun _ => rfl⟩
  | modified change _ ih =>
    obtain ⟨m, element, schema, converts⟩ := ih
    refine ⟨m.apply change, element, ?_, converts⟩
    rw [Typed.schema, schema]
    rfl
  | bounded c _ ih =>
    obtain ⟨m, element, schema, converts⟩ := ih
    refine ⟨m, element, ?_, fun o => ?_⟩
    · rw [Typed.schema, schema, Bounds.declared_append_single]
      rfl
    · rw [converter, schema, if_pos (by rfl)]
      exact converts o

private theorem boundedBy_of_array {m : Modifiers} {size : Bounds Nat} {element : Schema}
    (before : t.schema = .array m size element) (calls : List (Bound Nat)) :
    (t.boundedBy calls).schema =
        .array m (calls.foldl (fun bounds c => bounds.set c.kind c.limit) size) element ∧
      ∀ o, (t.boundedBy calls).converter o = t.converter o := by
  induction calls generalizing t size with
  | nil => exact ⟨before, fun _ => rfl⟩
  | cons c rest ih =>
    have now : (Typed.bounded c.kind c.limit t).schema =
        .array m (size.set c.kind c.limit) element := by
      rw [schema, before]
      rfl
    have same : ∀ o, (Typed.bounded c.kind c.limit t).converter o = t.converter o := by
      intro o
      rw [converter, before, if_pos (by rfl)]
    obtain ⟨schema, converts⟩ := ih now
    exact ⟨schema, fun o => (converts o).trans (same o)⟩

private theorem boundedBy_append_single (t : Typed) (calls : List (Bound Nat)) (c : Bound Nat) :
    t.boundedBy (calls ++ [c]) = .bounded c.kind c.limit (t.boundedBy calls) := by
  simp only [boundedBy, List.foldl_append, List.foldl_cons, List.foldl_nil]

private theorem schema_boundedBy (other : t.schema.kind ≠ .array) (calls : List (Bound Nat)) :
    (t.boundedBy calls).schema = t.schema := by
  induction calls using List.reverseRec with
  | nil => rfl
  | append_singleton calls c ih =>
    rw [boundedBy_append_single, schema, ih]
    revert other
    cases t.schema with
    | array m size element => exact fun other => (other rfl).elim
    | _ => exact fun _ => rfl

private theorem Counted.append_single {c : Converter} {y : Value} {calls : List (Bound Nat)}
    {b : Bound Nat} (counted : Counted calls items (c input y session).1) :
    Counted (calls ++ [b]) items (Converter.counted b.kind b.limit c input y session).1 := by
  rcases ran : c input y session with ⟨result, last⟩
  rw [ran] at counted
  cases counted with
  | within fits =>
    cases violated : b.violatedBy items.length with
    | false =>
      have passes : Bounds.violation? [⟨b.kind, b.limit⟩] .arrayLength items.length = none :=
        Bounds.violation?_eq_none.2 (List.forall_mem_singleton.2 violated)
      simp only [Converter.counted, ran, Output.length?, Option.bind_some, passes]
      exact .within (List.forall_mem_append.2 ⟨fits, List.forall_mem_singleton.2 violated⟩)
    | true =>
      have alone : [⟨b.kind, b.limit⟩] = [] ++ b :: [] := rfl
      have refused : Bounds.violation? [⟨b.kind, b.limit⟩] .arrayLength items.length = some (.here
          (.constraintViolation .arrayLength b.kind (.ofNat b.limit) (.ofNat items.length))) :=
        Bounds.violation?_of_split alone (List.forall_mem_nil _) violated
      simp only [Converter.counted, ran, Output.length?, Option.bind_some, refused]
      exact .outside rfl fits violated
  | @outside before after d split first violated =>
    simp only [Converter.counted, ran]
    exact .outside (by rw [split, List.append_assoc, List.cons_append]) first violated

private theorem counted_of_converter {y : Value} (other : t.schema.kind ≠ .array)
    (converted : t.converter o input y session = (.ok (.list items), after))
    (calls : List (Bound Nat)) :
    Counted calls items ((t.boundedBy calls).converter o input y session).1 := by
  induction calls using List.reverseRec with
  | nil =>
    have same : ((t.boundedBy []).converter o input y session).1 = .ok (.list items) :=
      congrArg Prod.fst converted
    rw [same]
    exact .within nofun
  | append_singleton calls c ih =>
    rw [boundedBy_append_single, converter, schema_boundedBy other, if_neg other]
    exact ih.append_single

/-- On what a typed list takes, bounds that are set on it by some calls come down to its number of
items. A typed array compares it to one bound of each kind that was set, now or before, by the limit
of the last call and at the place of the first one. Any other typed list compares it to the limits
of all calls in order. -/
theorem parse_boundedBy (t : Typed) (o : Options)
    (parsed : t.parse o input session = (.ok (.list items), after)) (calls : List (Bound Nat)) :
    (∀ before, OfArray t before → ∃ bounds : Bounds Nat,
      bounds.map Bound.kind = ((before ++ calls).map Bound.kind).eraseDups ∧
      (∀ b, b ∈ bounds ↔ Bounds.IsLast (before ++ calls) b) ∧
      Counted bounds items ((t.boundedBy calls).parse o input session).1) ∧
    (t.schema.kind ≠ .array →
      Counted calls items ((t.boundedBy calls).parse o input session).1) := by
  constructor
  · intro before array
    obtain ⟨m, element, schema, converts⟩ := array.schema_eq
    obtain ⟨schema', converts'⟩ := boundedBy_of_array schema calls
    have sizes : calls.foldl (fun bounds c => bounds.set c.kind c.limit) (Bounds.declared before) =
        Bounds.declared (before ++ calls) := List.foldl_append.symm
    rw [sizes] at schema'
    refine ⟨Bounds.declared (before ++ calls), Bounds.kinds_declared _,
      fun b => Bounds.mem_declared_iff, ?_⟩
    exact counted_of_sizes schema (converts o) schema' ((converts' o).trans (converts o)) parsed
  · intro other
    rcases made : t.schema.parse o input session with ⟨failure | w, mid⟩
    · simp [parse, made] at parsed
    have converted : t.converter o input w mid = (.ok (.list items), after) := by
      simpa only [parse, made] using parsed
    have parses : (t.boundedBy calls).parse o input session =
        (t.boundedBy calls).converter o input w mid := by
      simp only [parse, schema_boundedBy other, made]
    rw [parses]
    exact counted_of_converter other converted calls

/-- The least size is lowered again. A typed array takes two items then, a list of another schema
does not. -/
theorem parse_boundedBy_of_pair :
    let pair : Value := .array [.bool true, .bool false]
    let calls : List (Bound Nat) := [⟨.min, 3⟩, ⟨.max, 5⟩, ⟨.min, 1⟩]
    let array : Typed := .array (.ofPrimitive .boolean)
    let other : Typed := .leaf (.unionOf [.arrayOf .boolean]) Conversion.items
    (∃ bounds : Bounds Nat, bounds.map Bound.kind = [.min, .max] ∧
      Counted bounds [.bool true, .bool false] ((array.boundedBy calls).parse {} pair {}).1) ∧
    ((array.boundedBy calls).parse {} pair {}).1 = .ok (.list [.bool true, .bool false]) ∧
    Counted calls [.value (.bool true), .value (.bool false)]
      ((other.boundedBy calls).parse {} pair {}).1 ∧
    ((other.boundedBy calls).parse {} pair {}).1 =
      .error (.here (.constraintViolation .arrayLength .min (.ofNat 3) (.ofNat 2))) := by
  intro pair calls array other
  have listed : array.parse {} pair {} = (.ok (.list [.bool true, .bool false]), {}) := rfl
  have counted : other.parse {} pair {} =
      (.ok (.list [.value (.bool true), .value (.bool false)]), {}) := rfl
  obtain ⟨bounds, kinds, -, within⟩ := (parse_boundedBy array {} listed calls).1 [] (.array _)
  have refused := (parse_boundedBy other {} counted calls).2 (by decide)
  exact ⟨⟨bounds, kinds.trans (by decide), within⟩, rfl, refused, rfl⟩

/-- A list of two items is refused although the last limit of the only kind allows it. -/
theorem lowered_bound_still_checked :
    let pair : Value := .array [.bool true, .bool false]
    let calls : List (Bound Nat) := [⟨.min, 3⟩, ⟨.min, 1⟩]
    let t : Typed := .leaf (.unionOf [.arrayOf .boolean]) Conversion.items
    t.schema.kind ≠ .array ∧
      (t.parse {} pair {}).1 = .ok (.list [.value (.bool true), .value (.bool false)]) ∧
      (∀ b, Bounds.IsLast calls b → b.violatedBy 2 = false) ∧
      ((t.boundedBy calls).parse {} pair {}).1 =
        .error (.here (.constraintViolation .arrayLength .min (.ofNat 3) (.ofNat 2))) := by
  intro pair calls t
  have allowed : ∀ b, Bounds.IsLast calls b → b.violatedBy 2 = false := by
    intro b last
    have member : b ∈ [(⟨.min, 1⟩ : Bound Nat)] := Bounds.mem_declared_iff.2 last
    obtain rfl := List.mem_singleton.1 member
    rfl
  exact ⟨by decide, rfl, allowed, rfl⟩

end Typed

end ValueSchema
