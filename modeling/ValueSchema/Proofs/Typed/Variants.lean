import ValueSchema.Proofs.Typed.Encounter

set_option autoImplicit false
set_option relaxedAutoImplicit false

namespace ValueSchema

namespace Typed

variable {o : Options}

/-- A conversion of what a schema made chooses as the schema did exactly if that is stable. -/
private def Follows (o : Options) (t : Typed) : Prop :=
  ∀ ⦃s : Schema⦄ ⦃depth : Nat⦄ ⦃absent : Bool⦄ ⦃v w x y : Value⦄ ⦃session : Session⦄
    ⦃output : Output⦄, Encounter o t s depth absent v w x y →
    (t.converter o x y session).1 = .ok output →
    (t.Committed o (depth + 1) (s.modifiers.reached v) output ↔
      t.Stable o (depth + 1) absent (s.modifiers.reached v) w)

theorem converters_eq_map (o : Options) (items : List Typed) :
    converters o items = items.map (converter o) := by
  induction items with
  | nil => rfl
  | cons t rest ih => rw [converters, ih, List.map_cons]

theorem candidateConverters_eq_map (o : Options) (candidates : List Typed) :
    candidateConverters o candidates = candidates.map fun t => (t.schema, t.converter o) := by
  induction candidates with
  | nil => rfl
  | cons t rest ih => rw [candidateConverters, ih, List.map_cons]

private theorem inOrder_follows {ts : List Typed} (follow : ∀ t ∈ ts, Follows o t)
    (fixed : ∀ t ∈ ts, t.schema.WithoutProducers) {depth : Nat} {absent : Bool}
    {vs ws xs ys : List Value} (meets : MeetsEach o depth absent ts vs ws xs ys) {position : Nat}
    {session : Session} {outputs : List Output}
    (converted : (Converter.inOrder position (ts.map (converter o)) (xs.zip ys) session).1 =
      .ok outputs) :
    CommittedEach o ts depth vs outputs ↔ StableEach o ts depth absent vs ws := by
  induction meets generalizing position session outputs with
  | nil =>
    cases converted
    exact Iff.rfl
  | @cons t rest v w x y vs ws xs ys made meets _ ih =>
    simp only [List.map_cons, List.zip_cons_cons, Converter.inOrder] at converted
    rcases first : t.converter o x y session with ⟨failure | output, mid⟩
    · simp [first] at converted
    rcases later : Converter.inOrder (position + 1) (rest.map (converter o)) (xs.zip ys) mid with
      ⟨failure | others, after⟩
    · simp [first, later] at converted
    obtain rfl : output :: others = outputs := by simpa [first, later] using converted
    have head := follow t List.mem_cons_self
      { fixed := fixed t List.mem_cons_self, bare := rfl, made, meets, passes := id }
      (show (t.converter o x y session).1 = .ok output by rw [first])
    have tail := ih (fun t member => follow t (List.mem_cons_of_mem _ member))
      (fun t member => fixed t (List.mem_cons_of_mem _ member)) (by rw [later])
    exact and_congr head tail

private theorem firstOf_chooses {candidates : List Typed}
    (fixed : ∀ t ∈ candidates, t.schema.WithoutProducers) {number : Nat} {source : Value}
    {session : Session} {output : Output}
    (chosen : (Converter.firstOf o number source
      (candidates.map fun t => (t.schema, t.converter o)) session).1 = .ok (.ok output)) :
    ∃ index t value below later,
      Schema.firstAccepting o 0 source (candidates.map schema) = some (index, value) ∧
      candidates[index]? = some t ∧ (t.converter o source value later).1 = .ok below ∧
      output = .choice (number + index) below := by
  induction candidates generalizing number session with
  | nil => cases chosen
  | cons t rest ih =>
    have inside := fixed t List.mem_cons_self
    simp only [List.map_cons, Converter.firstOf] at chosen
    rcases parsed : t.schema.parse o source session with ⟨failure | value, mid⟩
    · rcases later : Converter.firstOf o (number + 1) source
        (rest.map fun t => (t.schema, t.converter o)) mid with ⟨failures | result, after⟩
      · simp [parsed, later] at chosen
      obtain rfl : result = .ok output := by simpa [parsed, later] using chosen
      obtain ⟨index, c, value, below, final, found, place, converted, rfl⟩ :=
        ih (fun t member => fixed t (List.mem_cons_of_mem _ member)) (by rw [later])
      refine ⟨index + 1, c, value, below, final, ?_, place, converted, ?_⟩
      · rw [List.map_cons, Schema.firstAccepting]
        cases entered : (t.schema.enter o source ⟨{}, 0⟩).1 with
        | error other =>
          rw [found]
          rfl
        | ok value =>
          have accepted : (t.schema.parse o source session).1 = .ok value :=
            (Schema.parse_ok_iff_makes inside).2 entered
          rw [parsed] at accepted
          cases accepted
      · rw [Nat.add_assoc, Nat.add_comm 1]
    · rcases converted : t.converter o source value mid with ⟨failure | below, after⟩
      · simp [parsed, converted, Except.map] at chosen
      obtain rfl : Output.choice number below = output := by
        simpa [parsed, converted, Except.map] using chosen
      have made : t.schema.Makes o 0 source value :=
        (Schema.parse_ok_iff_makes inside).1 (by rw [parsed])
      rw [Schema.Makes] at made
      refine ⟨0, t, value, below, mid, ?_, rfl, by rw [converted], rfl⟩
      rw [List.map_cons, Schema.firstAccepting, made]

theorem union_chooses {candidates : List Typed}
    (fixed : ∀ t ∈ candidates, t.schema.WithoutProducers) {x y : Value} {session : Session}
    {output : Output}
    (converted : ((Typed.union candidates).converter o x y session).1 = .ok output) :
    ∃ index t value below later,
      Schema.firstAccepting o 0 (Converter.source x y) (candidates.map schema) =
        some (index, value) ∧
      candidates[index]? = some t ∧
      (t.converter o (Converter.source x y) value later).1 = .ok below ∧
      output = .choice index below := by
  simp only [converter, Converter.union, candidateConverters_eq_map] at converted
  rcases tried : Converter.firstOf o 0 (Converter.source x y)
    (candidates.map fun t => (t.schema, t.converter o)) session with ⟨failures | result, after⟩
  · rw [tried] at converted
    cases converted
  rw [tried] at converted
  have chosen : result = .ok output := converted
  subst chosen
  obtain ⟨index, t, value, below, later, found, place, goes, rfl⟩ :=
    firstOf_chooses fixed (by rw [tried])
  exact ⟨index, t, value, below, later, found, place, goes, by rw [Nat.zero_add]⟩

private theorem Follows.option {absence : Absence} {inner : Typed} (follows : Follows o inner) :
    Follows o (.option absence inner) := by
  intro s depth absent v w x y session output e converted
  have same : absence.holds y = absence.holds w := absence.holds_congr e.kind_eq
  simp only [converter, Converter.option] at converted
  cases holds : absence.holds w with
  | true =>
    rw [holds] at same
    simp only [same, if_true] at converted
    obtain rfl := Except.ok.inj converted
    exact ⟨fun _ => .inl holds, fun _ => .inl rfl⟩
  | false =>
    rw [holds] at same
    rcases inside : inner.converter o x y session with ⟨failure | below, after⟩
    · simp [same, inside, Except.map] at converted
    obtain rfl : Output.present below = output := by
      simpa [same, inside, Except.map] using converted
    have step := follows (e.option holds) (by rw [inside])
    simpa [Committed, Stable, holds] using step

private theorem Follows.bounded {kind : ConstraintKind} {limit : Nat} {inner : Typed}
    (follows : Follows o inner) : Follows o (.bounded kind limit inner) := by
  intro s depth absent v w x y session output e converted
  have goes : (inner.converter o x y session).1 = .ok output → _ := follows e.bounded
  refine goes ?_
  simp only [converter] at converted
  split at converted
  · exact converted
  · simp only [Converter.counted] at converted
    rcases inside : inner.converter o x y session with ⟨failure | below, after⟩
    · simp [inside] at converted
    · simp only [inside] at converted
      split at converted
      · cases converted
      · exact converted

private theorem Follows.array {element : Typed} (follows : Follows o element)
    (fixed : element.schema.WithoutProducers) : Follows o (.array element) := by
  intro s depth absent v w x y session output e converted
  obtain ⟨m, size, rfl⟩ := exists_array_of_bare e.bare
  obtain ⟨items, values, ys, reaches, rfl, rfl, length, meets⟩ :=
    e.items rfl (fun count => List.replicate count element) (makesEach_of_array fixed)
  have alike : ys.map (fun _ => element.converter o) =
      (List.replicate items.length element).map (converter o) := by
    rw [List.map_const', List.map_replicate, length, List.length_replicate]
  simp only [converter, Converter.array, alike] at converted
  rcases run : Converter.inOrder 0 ((List.replicate items.length element).map (converter o))
    ((Converter.itemInputs x ys).zip ys) session with ⟨failure | outputs, after⟩
  · rw [run] at converted
    cases converted
  rw [run] at converted
  obtain rfl := Except.ok.inj converted
  have every : ∀ t ∈ List.replicate items.length element, t = element :=
    fun _ => List.eq_of_mem_replicate
  have steps := inOrder_follows (fun t member => every t member ▸ follows)
    (fun t member => every t member ▸ fixed) meets (by rw [run])
  rw [committedEach_replicate, stableEach_replicate] at steps
  simpa [Committed, Stable, reaches] using steps

private theorem Follows.tuple {parts : List Typed} (follows : ∀ t ∈ parts, Follows o t)
    (fixed : ∀ t ∈ parts, t.schema.WithoutProducers) : Follows o (.tuple parts) := by
  intro s depth absent v w x y session output e converted
  obtain ⟨m, rfl⟩ := exists_tuple_of_bare e.bare
  obtain ⟨items, values, ys, reaches, rfl, rfl, -, meets⟩ :=
    e.items rfl (fun _ => parts) (makesEach_of_tuple fixed)
  simp only [converter, Converter.tuple, converters_eq_map] at converted
  rcases run : Converter.inOrder 0 (parts.map (converter o))
    ((Converter.itemInputs x ys).zip ys) session with ⟨failure | outputs, after⟩
  · rw [run] at converted
    cases converted
  rw [run] at converted
  obtain rfl := Except.ok.inj converted
  have steps := inOrder_follows follows fixed meets (by rw [run])
  simpa [Committed, Stable, reaches] using steps

private theorem Follows.union {candidates : List Typed} (follows : ∀ t ∈ candidates, Follows o t)
    (fixed : ∀ t ∈ candidates, t.schema.WithoutProducers) : Follows o (.union candidates) := by
  intro s depth absent v w x y session output e converted
  obtain ⟨index, t, place, made, first⟩ := e.chosen fixed
  have reaches : v ≠ .undefined → s.modifiers.reached v = v := Modifiers.reached_of_present _
  -- what was reached is the input only where that is present; no other fact about it is needed
  generalize s.modifiers.reached v = r at made first reaches ⊢
  have found := first (depth + 1) (Nat.le_refl _)
  obtain ⟨choice, c, value, below, later, again, there, goes, rfl⟩ := union_chooses fixed converted
  rw [committed_union_iff found place, stable_union_iff found place]
  cases absent with
  | false =>
    obtain ⟨source, present⟩ := e.meets.source_input
    rw [← reaches present] at source present
    rw [source] at again goes
    obtain ⟨rfl, rfl⟩ := Prod.mk.inj
      (Option.some.inj ((first 0 (Nat.zero_le _)).symm.trans again))
    obtain rfl := Option.some.inj (there.symm.trans place)
    have inside : Encounter o c c.schema (depth + 1) false r w r w :=
      { fixed := fixed c (List.mem_of_getElem? place), bare := rfl, made,
        meets := .input present, passes := id }
    rw [follows c (List.mem_of_getElem? place) inside goes]
    simp
  | true =>
    have source := e.meets.source_output e.fixed e.made
    rw [source] at again goes
    by_cases same : choice = index
    · -- below, the candidate gets the output `w` as its input, and what it makes of that
      subst same
      obtain rfl := Option.some.inj (there.symm.trans place)
      obtain ⟨s, here, once⟩ := Schema.firstAccepting_eq_some again
      rw [List.getElem?_map, place] at here
      obtain rfl := Option.some.inj here
      have inside : Encounter o c c.schema (depth + 1) true r w w value :=
        { fixed := fixed c (List.mem_of_getElem? place), bare := rfl, made,
          meets := .again (Nat.zero_le _) once, passes := id }
      rw [follows c (List.mem_of_getElem? place) inside goes]
      simp [again]
    · -- the choice is wrong and the second trial is not stable
      have other : ¬ ∃ made, Schema.firstAccepting o 0 w (candidates.map schema) =
          some (index, made) := by
        rintro ⟨made, found⟩
        exact same (Prod.mk.inj (Option.some.inj (again.symm.trans found))).1
      simp [same, other]

private theorem Fixed.follows {t : Typed} (fixed : t.Fixed) : Follows o t := by
  induction t using Typed.induction with
  | leaf s convert =>
    intro s depth absent v w x y session output _ _
    exact Iff.rfl
  | option absence inner ih => exact (ih fixed).option
  | array element ih => exact (ih fixed).array (Fixed.schema fixed)
  | tuple items ih =>
    have parts := (fixedAll_iff items).1 fixed
    exact Follows.tuple (fun t member => ih t member (parts t member))
      fun t member => (parts t member).schema
  | union candidates ih =>
    have parts := (fixedAll_iff candidates).1 fixed
    exact Follows.union (fun t member => ih t member (parts t member))
      fun t member => (parts t member).schema
  | modified change inner ih =>
    intro s depth absent v w x y session output e converted
    exact ih fixed.2 (e.modified fixed.1) converted
  | bounded kind limit inner ih => exact (ih fixed).bounded

theorem encounter_of_parse {t : Typed} (fixed : t.Fixed) {input value : Value} {session : Session}
    {output : Output} (accepted : (t.schema.parse o input session).1 = .ok value)
    (parsed : (t.parse o input session).1 = .ok output) :
    Encounter o t t.schema 0 input.isUndefined input value input value ∧
      ∃ later, (t.converter o input value later).1 = .ok output := by
  have made : t.schema.Makes o 0 input value :=
    (Schema.parse_ok_iff_makes fixed.schema).1 accepted
  rcases first : t.schema.parse o input session with ⟨failure | other, mid⟩
  · rw [first] at accepted
    cases accepted
  rw [first] at accepted
  obtain rfl := Except.ok.inj accepted
  simp only [parse, first] at parsed
  exact ⟨.of_makes fixed.schema made, mid, parsed⟩

/-- A typed parse that succeeds has at every typed union the choice of the untyped union, which is
the first candidate that accepts the value that reaches the union, exactly if the choice is stable
wherever an absent value was met at the union or above it. -/
theorem committed_iff_stable (t : Typed) (fixed : t.Fixed) (o : Options) (input : Value)
    (session : Session) {value : Value} {output : Output}
    (accepted : (t.schema.parse o input session).1 = .ok value)
    (parsed : (t.parse o input session).1 = .ok output) :
    t.Committed o 1 (t.schema.modifiers.reached input) output ↔
      t.Stable o 1 input.isUndefined (t.schema.modifiers.reached input) value := by
  obtain ⟨encounter, later, converted⟩ := encounter_of_parse fixed accepted parsed
  exact fixed.follows encounter converted

/-- A default of a union is chosen for once more, and the choice stays. -/
theorem default_committed_again :
    let union : Typed := .union [.ofPrimitive .boolean, .ofPrimitive .string]
    Committed {} (.modified (.default (.value (.string "on"))) union) 1 (.string "on")
      (.choice 1 (.string "on")) := by
  intro union
  have fixed : (Typed.modified (.default (.value (.string "on"))) union).Fixed :=
    ⟨trivial, nofun, nofun, trivial⟩
  have stable : union.Stable {} 1 true (.string "on") (.string "on") :=
    (stable_union_iff (t := .ofPrimitive .string) rfl rfl).2
      ⟨fun _ => ⟨.string "on", rfl⟩, trivial⟩
  exact (committed_iff_stable (.modified (.default (.value (.string "on"))) union) fixed {}
    .undefined {} rfl rfl).2 stable

/-- A default of the second candidate accepts an absent value, but the choice falls on the first
candidate, which accepts the default. -/
theorem absent_value_chosen_again :
    let t : Typed := .union [.ofPrimitive .boolean,
      .ofPrimitive (Schema.boolean.modify (.default (.value (.bool true))))]
    t.Fixed ∧ (t.schema.parse {} .undefined {}).1 = .ok (.bool true) ∧
      Schema.firstAccepting {} 1 .undefined (schemas [.ofPrimitive .boolean,
        .ofPrimitive (Schema.boolean.modify (.default (.value (.bool true))))]) =
        some (1, .bool true) ∧
      (t.parse {} .undefined {}).1 = .ok (.choice 0 (.bool true)) ∧
      ¬ t.Committed {} 1 .undefined (.choice 0 (.bool true)) := by
  intro t
  refine ⟨⟨nofun, nofun, trivial⟩, rfl, rfl, rfl, ?_⟩
  rintro ⟨index, below, value, same, found, -⟩
  cases same
  cases found

/-- Of an input in which nothing is absent, typed unions make the choices of the untyped ones. -/
theorem committed_of_present {t : Typed} (fixed : t.Fixed) {input : Value} (present : input.Present)
    {session : Session} {output : Output} (parsed : (t.parse o input session).1 = .ok output) :
    t.Committed o 1 input output := by
  obtain ⟨value, accepted⟩ : ∃ value, (t.schema.parse o input session).1 = .ok value := by
    rcases first : t.schema.parse o input session with ⟨failure | value, mid⟩
    · simp [parse, first] at parsed
    · exact ⟨value, rfl⟩
  obtain ⟨encounter, later, converted⟩ := encounter_of_parse fixed accepted parsed
  have follows := fixed.follows encounter converted
  rw [present.isUndefined, Modifiers.reached_of_present _ present.ne_undefined] at follows
  exact follows.2 (t.stable_of_present present)

end Typed

end ValueSchema
