import ValueSchema.Proofs.Typed.Variants

/-!
A typed parse as a sequence of acts: trials of union candidates and conversions by leaves, in the
order in which a value is walked through.
-/

set_option autoImplicit false
set_option relaxedAutoImplicit false

namespace ValueSchema

def Failure.under (failure : Failure) (path : Path) : Failure :=
  path.foldr (fun segment failure => failure.prefixed segment) failure

/-- An act of a conversion. -/
inductive Act where
  /-- A candidate of a union is tried on a value. -/
  | trial (candidate : Schema) (source : Value)
  /-- A leaf converts the value at a path. -/
  | leaf (path : Path) (convert : Conversion) (value : Value)

namespace Act

def Accepts : Act → Prop
  | .trial _ _ => True
  | .leaf _ convert value => ∃ output, convert value = .ok output

/-- All acts before the first one that refuses let the conversion go on. The failure is that of the
leaf that refuses, seen from the root. -/
def RefusedAfter (acts before : List Act) (failure : Failure) : Prop :=
  ∃ path convert value rest inner, acts = before ++ .leaf path convert value :: rest ∧
    (∀ act ∈ before, act.Accepts) ∧ convert value = .error inner ∧ failure = inner.under path

def under (position : Nat) : Act → Act
  | .trial candidate source => .trial candidate source
  | .leaf path convert value => .leaf (.index position :: path) convert value

def placed (position : Nat) : List (List Act) → List Act
  | [] => []
  | acts :: rest => acts.map (under position) ++ placed (position + 1) rest

/-- The session after the trials among some acts. -/
def attempted (o : Options) : List Act → Session → Session
  | [], session => session
  | .trial candidate source :: rest, session =>
    attempted o rest (candidate.parse o source session).2
  | .leaf .. :: rest, session => attempted o rest session

private def perform (o : Options) : List Act → Session → Converted Unit
  | [], session => (.ok (), session)
  | .trial candidate source :: rest, session =>
    perform o rest (candidate.parse o source session).2
  | .leaf path convert value :: rest, session =>
    match convert value with
    | .error failure => (.error (failure.under path), session)
    | .ok _ => perform o rest session

variable {o : Options} {acts rest : List Act} {session after : Session} {failure : Failure}

private theorem perform_append_ok (first : perform o acts session = (.ok (), after)) :
    perform o (acts ++ rest) session = perform o rest after := by
  induction acts generalizing session with
  | nil =>
    cases first
    rfl
  | cons act acts ih =>
    cases act with
    | trial candidate source => exact ih first
    | leaf path convert value =>
      cases converted : convert value with
      | error failure => simp [perform, converted] at first
      | ok output =>
        simp only [perform, converted, List.cons_append] at first ⊢
        exact ih first

private theorem perform_append_error (first : perform o acts session = (.error failure, after)) :
    perform o (acts ++ rest) session = (.error failure, after) := by
  induction acts generalizing session with
  | nil => cases first
  | cons act acts ih =>
    cases act with
    | trial candidate source => exact ih first
    | leaf path convert value =>
      cases converted : convert value with
      | error failure =>
        simp only [perform, converted, List.cons_append] at first ⊢
        exact first
      | ok output =>
        simp only [perform, converted, List.cons_append] at first ⊢
        exact ih first

private theorem perform_under_ok (position : Nat)
    (first : perform o acts session = (.ok (), after)) :
    perform o (acts.map (under position)) session = (.ok (), after) := by
  induction acts generalizing session with
  | nil => exact first
  | cons act acts ih =>
    cases act with
    | trial candidate source => exact ih first
    | leaf path convert value =>
      cases converted : convert value with
      | error failure => simp [perform, converted] at first
      | ok output =>
        simp only [perform, under, converted, List.map_cons] at first ⊢
        exact ih first

private theorem perform_under_error (position : Nat)
    (first : perform o acts session = (.error failure, after)) :
    perform o (acts.map (under position)) session =
      (.error (failure.prefixed (.index position)), after) := by
  induction acts generalizing session with
  | nil => cases first
  | cons act acts ih =>
    cases act with
    | trial candidate source => exact ih first
    | leaf path convert value =>
      cases converted : convert value with
      | error failure =>
        simp only [perform, under, converted, List.map_cons] at first ⊢
        cases first
        rfl
      | ok output =>
        simp only [perform, under, converted, List.map_cons] at first ⊢
        exact ih first

private theorem perform_trials (candidates : List Schema) (source : Value) (session : Session) :
    perform o (candidates.map fun s => .trial s source) session =
      (.ok (), attempted o (candidates.map fun s => .trial s source) session) := by
  induction candidates generalizing session with
  | nil => rfl
  | cons s rest ih => exact ih _

private theorem perform_accepted (acts : List Act) (accept : ∀ act ∈ acts, act.Accepts)
    (session : Session) : perform o acts session = (.ok (), attempted o acts session) := by
  induction acts generalizing session with
  | nil => rfl
  | cons act rest ih =>
    have later := ih fun act member => accept act (List.mem_cons_of_mem _ member)
    cases act with
    | trial candidate source => exact later _
    | leaf path convert value =>
      obtain ⟨output, converted⟩ := accept _ List.mem_cons_self
      simp only [perform, converted, attempted]
      exact later session

private theorem perform_refused {before : List Act} (refused : RefusedAfter acts before failure)
    (session : Session) :
    perform o acts session = (.error failure, attempted o before session) := by
  obtain ⟨path, convert, value, rest, inner, rfl, accept, refuses, rfl⟩ := refused
  rw [perform_append_ok (perform_accepted before accept session)]
  simp only [perform, refuses]

private theorem accepted_or_refused (acts : List Act) :
    (∀ act ∈ acts, act.Accepts) ∨ ∃ before failure, RefusedAfter acts before failure := by
  induction acts with
  | nil => exact .inl fun act member => (List.not_mem_nil member).elim
  | cons act rest ih =>
    have here : act.Accepts ∨ ∃ path convert value failure,
        act = .leaf path convert value ∧ convert value = .error failure := by
      cases act with
      | trial candidate source => exact .inl trivial
      | leaf path convert value =>
        cases converted : convert value with
        | ok output => exact .inl ⟨output, converted⟩
        | error failure => exact .inr ⟨path, convert, value, failure, rfl, converted⟩
    rcases here with accepts | ⟨path, convert, value, inner, rfl, refuses⟩
    · rcases ih with all | ⟨before, failure, path, convert, value, rest, inner, rfl, accept, later⟩
      · exact .inl (List.forall_mem_cons.2 ⟨accepts, all⟩)
      · exact .inr ⟨act :: before, failure, path, convert, value, rest, inner, rfl,
          List.forall_mem_cons.2 ⟨accepts, accept⟩, later⟩
    · exact .inr ⟨[], inner.under path, path, convert, value, rest, inner, rfl,
        fun act member => (List.not_mem_nil member).elim, refuses, rfl⟩

private theorem RefusedAfter.not_accepted {before : List Act}
    (refused : RefusedAfter acts before failure) :
    ¬ ∀ act ∈ acts, act.Accepts := by
  obtain ⟨path, convert, value, rest, inner, rfl, -, refuses, -⟩ := refused
  intro all
  obtain ⟨output, converted⟩ := all (.leaf path convert value) (by simp)
  rw [refuses] at converted
  cases converted

end Act

namespace Typed

mutual

/-- The acts of the conversion of a value `w` that the schema of a typed schema made of `v`. The
schemas below are entered at a depth, and a union tries its candidates up to the first one that
accepts the value there. -/
def acts (o : Options) : Typed → Nat → Value → Value → List Act
  | .leaf _ convert, _, _, w => [.leaf [] convert w]
  | .option absence inner, depth, v, w =>
    if absence.holds w then [] else inner.acts o depth v w
  | .array element, depth, v, w =>
    Act.placed 0
      (List.zipWith (element.acts o (depth + 1)) (v.asArray?.getD []) (w.asArray?.getD []))
  | .tuple parts, depth, v, w =>
    Act.placed 0 (actsEach o parts (depth + 1) (v.asArray?.getD []) (w.asArray?.getD []))
  | .union candidates, depth, v, w =>
    match Schema.firstAccepting o depth v (schemas candidates) with
    | some (index, _) =>
      ((schemas candidates).take (index + 1)).map (.trial · v) ++
        actsAt o candidates index (depth + 1) v w
    | none => []
  | .modified _ inner, depth, v, w => inner.acts o depth v w
  | .bounded _ _ inner, depth, v, w => inner.acts o depth v w

def actsEach (o : Options) : List Typed → Nat → List Value → List Value → List (List Act)
  | t :: rest, depth, item :: items, value :: values =>
    t.acts o depth item value :: actsEach o rest depth items values
  | _, _, _, _ => []

def actsAt (o : Options) : List Typed → Nat → Nat → Value → Value → List Act
  | [], _, _, _, _ => []
  | t :: _, 0, depth, v, w => t.acts o depth v w
  | _ :: rest, index + 1, depth, v, w => actsAt o rest index depth v w

end

variable {o : Options}

private theorem actsAt_eq {candidates : List Typed} {index depth : Nat} {v w : Value} {t : Typed}
    (place : candidates[index]? = some t) :
    actsAt o candidates index depth v w = t.acts o depth v w := by
  induction candidates generalizing index with
  | nil => cases place
  | cons c rest ih =>
    cases index with
    | zero =>
      obtain rfl : c = t := Option.some.inj place
      rfl
    | succ index => exact ih place

private theorem actsEach_replicate {element : Typed} {depth : Nat} (items values : List Value) :
    actsEach o (List.replicate items.length element) depth items values =
      List.zipWith (element.acts o depth) items values := by
  induction items generalizing values with
  | nil => rfl
  | cons item rest ih =>
    cases values with
    | nil => rfl
    | cons value values =>
      rw [List.length_cons, List.replicate_succ, actsEach, ih, List.zipWith_cons_cons]

end Typed

namespace Typed

variable {o : Options}

/-- A leaf without defaults, a composition, or a change that only narrows what is accepted as absent
or empty. -/
def PlainNode : Typed → Prop
  | .leaf s _ => s.WithoutDefaults
  | .modified change _ => change = .required ∨ change = .nonNullable
  | .bounded .. => False
  | _ => True

/-- A typed schema with no default at any node. -/
def Plain (t : Typed) : Prop := t.Everywhere PlainNode

private theorem Plain.schema {t : Typed} (plain : t.Plain) : t.schema.WithoutDefaults := by
  refine schema_everywhere (fun _ => rfl) (fun _ => rfl) (fun _ => rfl) ?_
  refine plain.imp fun t node => ?_
  cases t with
  | option absence inner =>
    intro s none
    rw [Schema.modifiers_modify]
    cases absence <;> exact none
  | modified change inner =>
    intro s none
    rw [Schema.modifiers_modify]
    rcases node with rfl | rfl <;> exact none
  | _ => exact node

/-- A conversion comes to what its acts come to, and an output represents the value that was made
with the choices of the schema. -/
private def Performs (o : Options) (t : Typed) (depth : Nat) (v w : Value) (session : Session) :
    Prop :=
  (∃ output after, Act.perform o (t.acts o depth v w) session = (.ok (), after) ∧
    t.converter o v w session = (.ok output, after) ∧
    t.Represents w output ∧ t.Committed o depth v output) ∨
  ∃ failure after, Act.perform o (t.acts o depth v w) session = (.error failure, after) ∧
    t.converter o v w session = (.error failure, after)

private theorem Performs.accepted {t : Typed} {depth : Nat} {v w : Value} {session : Session}
    (performs : t.Performs o depth v w session) (accept : ∀ act ∈ t.acts o depth v w, act.Accepts) :
    ∃ output, t.converter o v w session =
        (.ok output, Act.attempted o (t.acts o depth v w) session) ∧
      t.Represents w output ∧ t.Committed o depth v output := by
  have all := Act.perform_accepted (o := o) _ accept session
  rcases performs with ⟨output, after, performed, converted, represented⟩ |
    ⟨failure, after, performed, -⟩
  · obtain ⟨-, rfl⟩ := Prod.mk.inj (all.symm.trans performed)
    exact ⟨output, converted, represented⟩
  · rw [all] at performed
    cases performed

private theorem Performs.refused {t : Typed} {depth : Nat} {v w : Value} {session : Session}
    (performs : t.Performs o depth v w session) {before : List Act} {failure : Failure}
    (refused : Act.RefusedAfter (t.acts o depth v w) before failure) :
    t.converter o v w session = (.error failure, Act.attempted o before session) := by
  have first := Act.perform_refused (o := o) refused session
  rcases performs with ⟨output, after, performed, -⟩ | ⟨other, after, performed, converted⟩
  · rw [first] at performed
    cases performed
  · obtain ⟨same, rfl⟩ := Prod.mk.inj (performed.symm.trans first)
    rw [converted, Except.error.inj same]

private def Simulates (o : Options) (t : Typed) : Prop :=
  ∀ ⦃s : Schema⦄ ⦃depth : Nat⦄ ⦃v w : Value⦄, Encounter o t s depth v.isUndefined v w v w →
    s.WithoutDefaults → ∀ session, t.Performs o (depth + 1) v w session

private theorem inOrder_performs {ts : List Typed} (simulates : ∀ t ∈ ts, Simulates o t)
    (plain : ∀ t ∈ ts, t.schema.WithoutDefaults) {depth : Nat} {vs ws : List Value}
    (each : MakesEach o depth ts vs ws) (position : Nat) (session : Session) :
    (∃ outputs after,
      Act.perform o (Act.placed position (actsEach o ts (depth + 1) vs ws)) session =
        (.ok (), after) ∧
      Converter.inOrder position (ts.map (converter o)) (vs.zip ws) session = (.ok outputs, after) ∧
      RepresentsEach ts ws outputs ∧ CommittedEach o ts depth vs outputs) ∨
    ∃ failure after, Act.perform o (Act.placed position (actsEach o ts (depth + 1) vs ws)) session =
        (.error failure, after) ∧
      Converter.inOrder position (ts.map (converter o)) (vs.zip ws) session =
        (.error failure, after) := by
  induction each generalizing position session with
  | nil => exact .inl ⟨[], session, rfl, rfl, trivial, trivial⟩
  | @cons t rest v w vs ws made _ ih =>
    have here := plain t List.mem_cons_self
    rw [actsEach, Act.placed, List.map_cons, List.zip_cons_cons]
    rcases simulates t List.mem_cons_self (.of_makes here.withoutProducers made) here session with
      ⟨output, mid, performed, converted, represents, committed⟩ |
      ⟨failure, mid, performed, converted⟩
    · rw [Act.perform_append_ok (Act.perform_under_ok position performed)]
      simp only [Converter.inOrder, converted]
      rcases ih (fun t member => simulates t (List.mem_cons_of_mem _ member))
        (fun t member => plain t (List.mem_cons_of_mem _ member)) (position + 1) mid with
        ⟨outputs, after, later, others, all, choices⟩ | ⟨failure, after, later, others⟩
      · refine .inl ⟨output :: outputs, after, later, ?_, ⟨represents, all⟩, ?_, choices⟩
        · simp only [others]
        · rwa [Modifiers.reached_of_none here.self]
      · refine .inr ⟨failure, after, later, ?_⟩
        simp only [others]
    · refine .inr ⟨failure.prefixed (.index position), mid, ?_, ?_⟩
      · exact Act.perform_append_error (Act.perform_under_error position performed)
      · simp only [Converter.inOrder, converted]

private theorem Simulates.option {absence : Absence} {inner : Typed}
    (simulates : Simulates o inner) : Simulates o (.option absence inner) := by
  intro s depth v w e plain session
  cases holds : absence.holds w with
  | true =>
    refine .inl ⟨.absent, session, ?_, ?_, .inl ⟨holds, rfl⟩, .inl rfl⟩
    · simp only [acts, holds, if_true]
      rfl
    · simp only [converter, Converter.option, holds, if_true]
  | false =>
    rcases simulates (e.option holds) plain session with
      ⟨output, after, performed, converted, represents, committed⟩ |
      ⟨failure, after, performed, converted⟩
    · refine .inl ⟨.present output, after, ?_, ?_, .inr ⟨holds, output, rfl, represents⟩,
        .inr ⟨output, rfl, committed⟩⟩
      · simpa [acts, holds] using performed
      · simp [converter, Converter.option, holds, converted, Except.map]
    · refine .inr ⟨failure, after, ?_, ?_⟩
      · simpa [acts, holds] using performed
      · simp [converter, Converter.option, holds, converted, Except.map]

private theorem Simulates.array {element : Typed} (simulates : Simulates o element)
    (plain : element.schema.WithoutDefaults) : Simulates o (.array element) := by
  intro s depth v w e unset session
  obtain ⟨inner, deeper, checked⟩ := e.checked rfl
  obtain ⟨m, size, rfl⟩ := exists_array_of_bare e.bare
  rw [Modifiers.reached_of_none unset.self] at checked
  obtain ⟨items, values, rfl, rfl, each⟩ := makesEach_of_array plain.withoutProducers checked
  rw [deeper] at each
  obtain ⟨inputs, outputs⟩ := each.length_eq
  have aligned : items.length = values.length := inputs.symm.trans outputs
  have alike : values.map (fun _ => element.converter o) =
      (List.replicate items.length element).map (converter o) := by
    rw [List.map_const', List.map_replicate, aligned]
  have every : ∀ t ∈ List.replicate items.length element, t = element :=
    fun _ => List.eq_of_mem_replicate
  have steps := inOrder_performs (fun t member => every t member ▸ simulates)
    (fun t member => every t member ▸ plain) each 0 session
  rw [actsEach_replicate] at steps
  simp only [Performs, acts, converter, Converter.array, Converter.itemInputs, aligned, if_true,
    Value.asArray?, Option.getD_some]
  rw [alike]
  rcases steps with ⟨outputs, after, performed, converted, represents, committed⟩ |
    ⟨failure, after, performed, converted⟩
  · rw [aligned, representsEach_replicate] at represents
    rw [committedEach_replicate] at committed
    rw [converted]
    exact .inl ⟨.list outputs, after, performed, rfl, ⟨values, outputs, rfl, rfl, represents⟩,
      items, outputs, rfl, rfl, committed⟩
  · rw [converted]
    exact .inr ⟨failure, after, performed, rfl⟩

private theorem Simulates.tuple {parts : List Typed} (simulates : ∀ t ∈ parts, Simulates o t)
    (plain : ∀ t ∈ parts, t.schema.WithoutDefaults) : Simulates o (.tuple parts) := by
  intro s depth v w e unset session
  obtain ⟨inner, deeper, checked⟩ := e.checked rfl
  obtain ⟨m, rfl⟩ := exists_tuple_of_bare e.bare
  rw [Modifiers.reached_of_none unset.self] at checked
  obtain ⟨items, values, rfl, rfl, each⟩ :=
    makesEach_of_tuple (fun t member => (plain t member).withoutProducers) checked
  rw [deeper] at each
  obtain ⟨inputs, outputs⟩ := each.length_eq
  have aligned : items.length = values.length := inputs.symm.trans outputs
  have steps := inOrder_performs simulates plain each 0 session
  simp only [Performs, acts, converter, converters_eq_map, Converter.tuple, Converter.itemInputs,
    aligned, if_true, Value.asArray?, Option.getD_some]
  rcases steps with ⟨outputs, after, performed, converted, represents, committed⟩ |
    ⟨failure, after, performed, converted⟩
  · rw [converted]
    exact .inl ⟨.tuple outputs, after, performed, rfl, ⟨values, outputs, rfl, rfl, represents⟩,
      items, outputs, rfl, rfl, committed⟩
  · rw [converted]
    exact .inr ⟨failure, after, performed, rfl⟩

theorem firstOf_tries {candidates : List Typed} {source value : Value}
    (steady : ∀ t ∈ candidates, t.schema.Steady o source) {index : Nat}
    (found : Schema.firstAccepting o 0 source (candidates.map schema) = some (index, value))
    {t : Typed} (place : candidates[index]? = some t) (number : Nat) (session : Session)
    {result : Except Failure Output} {after : Session}
    (converted : t.converter o source value (Act.attempted o
      (((candidates.map schema).take (index + 1)).map (.trial · source)) session) =
        (result, after)) :
    Converter.firstOf o number source (candidates.map fun t => (t.schema, t.converter o)) session =
      (.ok (result.map (.choice (number + index))), after) := by
  induction candidates generalizing number index session with
  | nil => cases place
  | cons c rest ih =>
    have inside := steady c List.mem_cons_self
    rw [List.map_cons, Schema.firstAccepting] at found
    cases entered : (c.schema.enter o source ⟨{}, 0⟩).1 with
    | ok made =>
      rw [entered] at found
      obtain ⟨rfl, rfl⟩ := Prod.mk.inj (Option.some.inj found)
      obtain rfl : c = t := Option.some.inj place
      have accepted : (c.schema.parse o source session).1 = .ok made :=
        inside.parse_ok_iff_makes.2 entered
      rcases parsed : c.schema.parse o source session with ⟨failure | other, mid⟩
      · rw [parsed] at accepted
        cases accepted
      rw [parsed] at accepted
      obtain rfl := Except.ok.inj accepted
      have goes : c.converter o source other mid = (result, after) := by
        simpa [Act.attempted, parsed] using converted
      simp only [List.map_cons, Converter.firstOf, parsed, goes, Nat.add_zero]
    | error refusal =>
      rw [entered] at found
      obtain ⟨⟨place', made⟩, later, same⟩ := Option.map_eq_some_iff.1 found
      obtain ⟨rfl, rfl⟩ := Prod.mk.inj same
      rcases parsed : c.schema.parse o source session with ⟨failure | other, mid⟩
      · have goes : t.converter o source made (Act.attempted o
            (((rest.map schema).take (place' + 1)).map (.trial · source)) mid) =
              (result, after) := by
          simpa [Act.attempted, parsed] using converted
        have others := ih (fun t member => steady t (List.mem_cons_of_mem _ member)) later place
          (number + 1) mid goes
        simp only [List.map_cons, Converter.firstOf, parsed, others]
        rw [Nat.add_assoc, Nat.add_comm 1]
      · have makes : c.schema.Makes o 0 source other :=
          inside.parse_ok_iff_makes.1 (by rw [parsed])
        rw [Schema.Makes, entered] at makes
        cases makes

private theorem Simulates.union {candidates : List Typed}
    (simulates : ∀ t ∈ candidates, Simulates o t)
    (plain : ∀ t ∈ candidates, t.schema.WithoutDefaults) : Simulates o (.union candidates) := by
  have fixed : ∀ t ∈ candidates, t.schema.WithoutProducers :=
    fun t member => (plain t member).withoutProducers
  intro s depth v w e unset session
  obtain ⟨index, t, place, made, first⟩ := e.chosen fixed
  rw [Modifiers.reached_of_none unset.self] at made first
  have here := plain t (List.mem_of_getElem? place)
  have steady : ∀ t ∈ candidates, t.schema.Steady o v := fun t member => (fixed t member).steady
  have source : Converter.source v w = v := by
    cases v with
    | undefined => exact Schema.undefined_of_enter_ok unset e.made
    | _ => rfl
  have found := first (depth + 1) (Nat.le_refl _)
  have chosen : (Typed.union candidates).acts o (depth + 1) v w =
      ((candidates.map schema).take (index + 1)).map (.trial · v) ++
        t.acts o (depth + 1 + 1) v w := by
    simp only [acts, schemas_eq_map, found, actsAt_eq place]
  have tried := Act.perform_trials (o := o) ((candidates.map schema).take (index + 1)) v session
  simp only [Performs, chosen, Act.perform_append_ok tried, converter, Converter.union, source,
    candidateConverters_eq_map]
  have again := first 0 (Nat.zero_le _)
  rcases simulates t (List.mem_of_getElem? place) (.of_makes here.withoutProducers made) here
    (Act.attempted o (((candidates.map schema).take (index + 1)).map (.trial · v)) session) with
    ⟨output, after, performed, converted, represents, committed⟩ |
    ⟨failure, after, performed, converted⟩
  · refine .inl ⟨.choice index output, after, performed, ?_,
      ⟨index, output, rfl, (representsAt_iff place).2 represents⟩, ?_⟩
    · rw [firstOf_tries steady again place 0 session converted, Nat.zero_add]
      rfl
    · refine (committed_union_iff found place).2 ⟨rfl, ?_⟩
      rwa [Modifiers.reached_of_none here.self]
  · refine .inr ⟨failure, after, performed, ?_⟩
    rw [firstOf_tries steady again place 0 session converted]
    rfl

private theorem Plain.simulates {t : Typed} (plain : t.Plain) : Simulates o t := by
  induction t using Typed.induction with
  | leaf s convert =>
    intro s depth v w e _ session
    cases converted : convert w with
    | ok output =>
      refine .inl ⟨output, session, ?_, ?_, converted, trivial⟩
      · simp only [acts, Act.perform, converted]
      · simp only [converter, converted]
    | error failure =>
      refine .inr ⟨failure, session, ?_, ?_⟩
      · simp only [acts, Act.perform, converted]
        rfl
      · simp only [converter, converted]
  | option absence inner ih => exact (ih plain.2).option
  | array element ih =>
    have inside : element.Plain := plain.2
    exact (ih inside).array inside.schema
  | tuple items ih =>
    have inside : ∀ t ∈ items, t.Plain := fun t member => plain.item member
    exact .tuple (fun t member => ih t member (inside t member))
      fun t member => (inside t member).schema
  | union candidates ih =>
    have inside : ∀ t ∈ candidates, t.Plain := fun t member => plain.candidate member
    exact .union (fun t member => ih t member (inside t member))
      fun t member => (inside t member).schema
  | modified change inner ih =>
    intro s depth v w e unset session
    have narrows : change.Fixed := by
      rcases plain.1 with rfl | rfl <;> trivial
    exact ih plain.2 (e.modified narrows) unset session
  | bounded kind limit inner _ => exact plain.1.elim

/-- A typed parse without defaults fails as its schema does. On a value that the schema accepts it
succeeds exactly if all leaves that it reaches convert what was made for them, and then the output
represents what was made, with the choices of the schema. It fails exactly as the first leaf that
refuses, seen from the root, and no candidate is tried after that. -/
theorem parse_performs (t : Typed) (plain : t.Plain) (o : Options) (input : Value)
    (session : Session) :
    (∀ failure after, t.schema.parse o input session = (.error failure, after) →
      t.parse o input session = (.error failure, after)) ∧
    ∀ w between, t.schema.parse o input session = (.ok w, between) →
      ((∃ output, (t.parse o input session).1 = .ok output) ↔
        ∀ act ∈ t.acts o 1 input w, act.Accepts) ∧
      (∀ output after, t.parse o input session = (.ok output, after) →
        t.Represents w output ∧ t.Committed o 1 input output ∧
          after = Act.attempted o (t.acts o 1 input w) between) ∧
      ∀ failure after, t.parse o input session = (.error failure, after) ↔
        ∃ before, Act.RefusedAfter (t.acts o 1 input w) before failure ∧
          after = Act.attempted o before between := by
  refine ⟨fun failure after refused => by simp only [parse, refused], fun w between accepted => ?_⟩
  have fixed := plain.schema.withoutProducers
  have made : t.schema.Makes o 0 input w := (Schema.parse_ok_iff_makes fixed).1 (by rw [accepted])
  have performs : t.Performs o 1 input w between :=
    plain.simulates (.of_makes fixed made) plain.schema between
  have parses : t.parse o input session = t.converter o input w between := by
    simp only [parse, accepted]
  rw [parses]
  rcases Act.accepted_or_refused (t.acts o 1 input w) with accept | ⟨before, failure, refused⟩
  · obtain ⟨output, converted, represents, committed⟩ := performs.accepted accept
    refine ⟨⟨fun _ => accept, fun _ => ⟨output, by rw [converted]⟩⟩, ?_, ?_⟩
    · intro other after same
      obtain ⟨made, rfl⟩ := Prod.mk.inj (converted.symm.trans same)
      obtain rfl := Except.ok.inj made
      exact ⟨represents, committed, rfl⟩
    · intro failure after
      constructor
      · intro fails
        rw [converted] at fails
        cases fails
      · rintro ⟨before, refused, -⟩
        exact (refused.not_accepted accept).elim
  · have fails := performs.refused refused
    refine ⟨⟨?_, fun all => (refused.not_accepted all).elim⟩, ?_, ?_⟩
    · rintro ⟨output, converted⟩
      rw [fails] at converted
      cases converted
    · intro output after converted
      rw [fails] at converted
      cases converted
    · intro other after
      constructor
      · intro same
        obtain ⟨met, rfl⟩ := Prod.mk.inj (fails.symm.trans same)
        obtain rfl := Except.error.inj met
        exact ⟨before, refused, rfl⟩
      · rintro ⟨others, again, rfl⟩
        exact performs.refused again

/-- The third item is taken by the second candidate, whose conversion refuses it. The refusal is the
failure of the whole parse, and the candidate after it is not tried. -/
theorem refusal_ends_parse :
    let t : Typed := .array (.option .null
      (.union [.ofPrimitive .boolean, .leaf .string .refused, .ofPrimitive .string]))
    let input : Value := .array [.bool true, .null, .string "x"]
    let before : List Act := [.trial .boolean (.bool true),
      .leaf [.index 0] (.primitive .boolean) (.bool true),
      .trial .boolean (.string "x"), .trial .string (.string "x")]
    t.parse {} input {} = (.error (.plain [.index 2] (.conversion "refused")),
      Act.attempted {} before (t.schema.parse {} input {}).2) := by
  intro t input before
  have plain : t.Plain := ⟨trivial, trivial, trivial, rfl, rfl, rfl, trivial⟩
  have accept : ∀ act ∈ before, act.Accepts := by
    simp only [before, List.forall_mem_cons]
    exact ⟨trivial, ⟨.bool true, rfl⟩, trivial, trivial, nofun⟩
  have refused : Act.RefusedAfter (t.acts {} 1 input input) before
      (.plain [.index 2] (.conversion "refused")) :=
    ⟨[.index 2], .refused, .string "x", [], _, rfl, accept, rfl, rfl⟩
  have performs := (parse_performs t plain {} input {}).2 input (t.schema.parse {} input {}).2 rfl
  exact (performs.2.2 _ _).2 ⟨before, refused, rfl⟩

end Typed

end ValueSchema
