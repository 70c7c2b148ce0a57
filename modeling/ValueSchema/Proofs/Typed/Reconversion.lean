import ValueSchema.Proofs.Schema.Determined
import ValueSchema.Proofs.Typed.Simulation

set_option autoImplicit false
set_option relaxedAutoImplicit false

namespace ValueSchema

private theorem map_eq_ok_iff {α β ε : Type} {f : α → β} {result : Except ε α} {output : β} :
    result.map f = .ok output ↔ ∃ value, output = f value ∧ result = .ok value := by
  cases result with
  | error failure =>
    constructor
    · exact nofun
    · rintro ⟨value, -, returned⟩
      cases returned
  | ok value =>
    constructor
    · intro same
      exact ⟨value, (Except.ok.inj same).symm, rfl⟩
    · rintro ⟨_, rfl, ⟨⟩⟩
      rfl

namespace Typed

variable {o : Options}

mutual

/-- The output that a typed schema gives for a value `y` that came from the input `x`. -/
inductive Gives (o : Options) : Typed → Value → Value → Output → Prop
  | leaf {s : Schema} {convert : Conversion} {x y : Value} {output : Output}
      (converted : convert y = .ok output) : Gives o (.leaf s convert) x y output
  | absent {absence : Absence} {inner : Typed} {x y : Value} (holds : absence.holds y = true) :
      Gives o (.option absence inner) x y .absent
  | present {absence : Absence} {inner : Typed} {x y : Value} {output : Output}
      (holds : absence.holds y = false) (below : Gives o inner x y output) :
      Gives o (.option absence inner) x y (.present output)
  | array {element : Typed} {x : Value} {ys : List Value} {outputs : List Output}
      (each : GivesEach o (List.replicate ys.length element) (Converter.itemInputs x ys) ys
        outputs) : Gives o (.array element) x (.array ys) (.list outputs)
  | tuple {parts : List Typed} {x : Value} {ys : List Value} {outputs : List Output}
      (each : GivesEach o parts (Converter.itemInputs x ys) ys outputs) :
      Gives o (.tuple parts) x (.array ys) (.tuple outputs)
  /-- The first candidate that accepts what the union tries its candidates on gives the output. -/
  | union {candidates : List Typed} {t : Typed} {x y value : Value} {index : Nat} {output : Output}
      (found : Schema.firstAccepting o 0 (Converter.source x y) (candidates.map schema) =
        some (index, value))
      (place : candidates[index]? = some t)
      (below : Gives o t (Converter.source x y) value output) :
      Gives o (.union candidates) x y (.choice index output)
  | modified {change : Modifier} {inner : Typed} {x y : Value} {output : Output}
      (below : Gives o inner x y output) : Gives o (.modified change inner) x y output
  | bounded {kind : ConstraintKind} {limit : Nat} {inner : Typed} {x y : Value} {output : Output}
      (below : Gives o inner x y output)
      (within : inner.schema.kind ≠ .array →
        output.length?.bind (Bounds.violation? [⟨kind, limit⟩] .arrayLength) = none) :
      Gives o (.bounded kind limit inner) x y output

inductive GivesEach (o : Options) : List Typed → List Value → List Value → List Output → Prop
  | nil {xs ys : List Value} : GivesEach o [] xs ys []
  | cons {t : Typed} {rest : List Typed} {x y : Value} {xs ys : List Value} {output : Output}
      {outputs : List Output} (here : Gives o t x y output)
      (later : GivesEach o rest xs ys outputs) :
      GivesEach o (t :: rest) (x :: xs) (y :: ys) (output :: outputs)

end

section Inversion

variable {x y : Value} {output : Output}

private theorem gives_leaf_iff {s : Schema} {convert : Conversion} :
    Gives o (.leaf s convert) x y output ↔ convert y = .ok output := by
  constructor
  · intro given
    cases given with
    | leaf converted => exact converted
  · exact .leaf

private theorem gives_option_iff {absence : Absence} {inner : Typed} :
    Gives o (.option absence inner) x y output ↔ (absence.holds y = true ∧ output = .absent) ∨
      (absence.holds y = false ∧ ∃ below, output = .present below ∧ Gives o inner x y below) := by
  constructor
  · intro given
    cases given with
    | absent holds => exact .inl ⟨holds, rfl⟩
    | present holds below => exact .inr ⟨holds, _, rfl, below⟩
  · rintro (⟨holds, rfl⟩ | ⟨holds, below, rfl, given⟩)
    · exact .absent holds
    · exact .present holds given

private theorem gives_array_iff {element : Typed} {ys : List Value} :
    Gives o (.array element) x (.array ys) output ↔ ∃ outputs, output = .list outputs ∧
      GivesEach o (List.replicate ys.length element) (Converter.itemInputs x ys) ys outputs := by
  constructor
  · intro given
    cases given with
    | array each => exact ⟨_, rfl, each⟩
  · rintro ⟨outputs, rfl, each⟩
    exact .array each

private theorem gives_tuple_iff {parts : List Typed} {ys : List Value} :
    Gives o (.tuple parts) x (.array ys) output ↔ ∃ outputs, output = .tuple outputs ∧
      GivesEach o parts (Converter.itemInputs x ys) ys outputs := by
  constructor
  · intro given
    cases given with
    | tuple each => exact ⟨_, rfl, each⟩
  · rintro ⟨outputs, rfl, each⟩
    exact .tuple each

private theorem gives_union_iff {candidates : List Typed} :
    Gives o (.union candidates) x y output ↔ ∃ index value t below,
      Schema.firstAccepting o 0 (Converter.source x y) (candidates.map schema) =
        some (index, value) ∧ candidates[index]? = some t ∧
      Gives o t (Converter.source x y) value below ∧ output = .choice index below := by
  constructor
  · intro given
    cases given with
    | union found place below => exact ⟨_, _, _, _, found, place, below, rfl⟩
  · rintro ⟨index, value, t, below, found, place, given, rfl⟩
    exact .union found place given

private theorem gives_modified_iff {change : Modifier} {inner : Typed} :
    Gives o (.modified change inner) x y output ↔ Gives o inner x y output := by
  constructor
  · intro given
    cases given with
    | modified below => exact below
  · exact .modified

private theorem gives_bounded_iff {kind : ConstraintKind} {limit : Nat} {inner : Typed} :
    Gives o (.bounded kind limit inner) x y output ↔ Gives o inner x y output ∧
      (inner.schema.kind ≠ .array →
        output.length?.bind (Bounds.violation? [⟨kind, limit⟩] .arrayLength) = none) := by
  constructor
  · intro given
    cases given with
    | bounded below within => exact ⟨below, within⟩
  · exact fun ⟨below, within⟩ => .bounded below within

private theorem givesEach_cons_iff {t : Typed} {rest : List Typed} {xs ys : List Value}
    {outputs : List Output} :
    GivesEach o (t :: rest) (x :: xs) (y :: ys) (output :: outputs) ↔
      Gives o t x y output ∧ GivesEach o rest xs ys outputs := by
  constructor
  · intro given
    cases given with
    | cons here later => exact ⟨here, later⟩
  · exact fun ⟨here, later⟩ => .cons here later

end Inversion

private def ConvertsAsGiven (o : Options) (t : Typed) : Prop :=
  ∀ ⦃x y : Value⦄ ⦃session : Session⦄ ⦃output : Output⦄,
    (t.converter o x y session).1 = .ok output ↔ Gives o t x y output

private theorem inOrder_iff_givesEach {ts : List Typed} (as : ∀ t ∈ ts, ConvertsAsGiven o t)
    {xs ys : List Value} {position : Nat} {session : Session} {outputs : List Output} :
    (Converter.inOrder position (ts.map (converter o)) (xs.zip ys) session).1 = .ok outputs ↔
      GivesEach o ts xs ys outputs := by
  induction ts generalizing xs ys position session outputs with
  | nil =>
    constructor
    · intro converted
      cases converted
      exact .nil
    · intro given
      cases given
      rfl
  | cons t rest ih =>
    obtain ⟨here, later⟩ := List.forall_mem_cons.1 as
    constructor
    · intro converted
      cases xs with
      | nil => cases converted
      | cons x xs =>
        cases ys with
        | nil => cases converted
        | cons y ys =>
          simp only [List.map_cons, List.zip_cons_cons, Converter.inOrder] at converted
          rcases first : t.converter o x y session with ⟨failure | output, mid⟩
          · simp [first] at converted
          rcases others : Converter.inOrder (position + 1) (rest.map (converter o)) (xs.zip ys) mid
            with ⟨failure | remaining, after⟩
          · simp [first, others] at converted
          obtain rfl : output :: remaining = outputs := by simpa [first, others] using converted
          exact .cons (here.1 (congrArg Prod.fst first)) ((ih later).1 (congrArg Prod.fst others))
    · intro given
      cases given with
      | @cons _ _ x y xs ys output remaining first others =>
        have converted : (t.converter o x y session).1 = .ok output := here.2 first
        rcases ran : t.converter o x y session with ⟨result, mid⟩
        rw [ran] at converted
        obtain rfl : result = .ok output := converted
        have remainder :
            (Converter.inOrder (position + 1) (rest.map (converter o)) (xs.zip ys) mid).1 =
              .ok remaining := (ih later).2 others
        rcases rest_ran : Converter.inOrder (position + 1) (rest.map (converter o)) (xs.zip ys) mid
          with ⟨result, after⟩
        rw [rest_ran] at remainder
        obtain rfl : result = .ok remaining := remainder
        simp only [List.map_cons, List.zip_cons_cons, Converter.inOrder, ran, rest_ran]

private theorem ConvertsAsGiven.option {absence : Absence} {inner : Typed}
    (as : ConvertsAsGiven o inner) : ConvertsAsGiven o (.option absence inner) := by
  intro x y session output
  rw [gives_option_iff]
  simp only [converter, Converter.option]
  cases absence.holds y with
  | true =>
    simp only [if_true, true_and, Bool.true_eq_false, false_and, or_false]
    exact ⟨fun converted => (Except.ok.inj converted).symm, fun same => same ▸ rfl⟩
  | false =>
    simp only [Bool.false_eq_true, if_false, false_and, true_and, false_or]
    exact map_eq_ok_iff.trans
      (exists_congr fun below => and_congr_right fun _ => @as x y session below)

private theorem ConvertsAsGiven.array {element : Typed} (as : ConvertsAsGiven o element) :
    ConvertsAsGiven o (.array element) := by
  intro x y session output
  cases y with
  | array ys =>
    have alike : ys.map (fun _ => element.converter o) =
        (List.replicate ys.length element).map (converter o) := by
      rw [List.map_const', List.map_replicate]
    have every : ∀ t ∈ List.replicate ys.length element, ConvertsAsGiven o t :=
      List.forall_mem_replicate.2 (.inr as)
    simp only [converter, Converter.array, alike]
    rw [gives_array_iff]
    exact map_eq_ok_iff.trans (exists_congr fun outputs =>
      and_congr_right fun _ => inOrder_iff_givesEach every)
  | _ =>
    constructor
    · intro converted
      cases converted
    · intro given
      cases given

private theorem ConvertsAsGiven.tuple {parts : List Typed} (as : ∀ t ∈ parts, ConvertsAsGiven o t) :
    ConvertsAsGiven o (.tuple parts) := by
  intro x y session output
  cases y with
  | array ys =>
    simp only [converter, Converter.tuple, converters_eq_map]
    rw [gives_tuple_iff]
    exact map_eq_ok_iff.trans (exists_congr fun outputs =>
      and_congr_right fun _ => inOrder_iff_givesEach as)
  | _ =>
    constructor
    · intro converted
      cases converted
    · intro given
      cases given

private theorem ConvertsAsGiven.union {candidates : List Typed}
    (as : ∀ t ∈ candidates, ConvertsAsGiven o t)
    (fixed : ∀ t ∈ candidates, t.schema.WithoutProducers) :
    ConvertsAsGiven o (.union candidates) := by
  intro x y session output
  constructor
  · intro converted
    obtain ⟨index, t, value, below, later, found, place, goes, rfl⟩ := union_chooses fixed converted
    exact .union found place ((as t (List.mem_of_getElem? place)).1 goes)
  · intro given
    cases given with
    | @union _ t _ _ value index below found place given =>
      have goes : (t.converter o (Converter.source x y) value (Act.attempted o
          (((candidates.map schema).take (index + 1)).map (.trial · (Converter.source x y)))
          session)).1 = .ok below := (as t (List.mem_of_getElem? place)).2 given
      have tried := firstOf_tries (fun t member => (fixed t member).steady) found place 0 session
        (Prod.ext goes rfl)
      simp only [converter, Converter.union, candidateConverters_eq_map, tried, Nat.zero_add]
      rfl

private theorem counted_eq_ok_iff {kind : ConstraintKind} {limit : Nat} {inner : Converter}
    {x y : Value} {session : Session} {output : Output} :
    (Converter.counted kind limit inner x y session).1 = .ok output ↔
      (inner x y session).1 = .ok output ∧
        output.length?.bind (Bounds.violation? [⟨kind, limit⟩] .arrayLength) = none := by
  simp only [Converter.counted]
  rcases inner x y session with ⟨failure | below, after⟩
  · constructor
    · intro converted
      cases converted
    · rintro ⟨converted, -⟩
      cases converted
  cases checked : below.length?.bind (Bounds.violation? [⟨kind, limit⟩] .arrayLength) with
  | some failure =>
    simp only [checked]
    constructor
    · intro converted
      cases converted
    · rintro ⟨same, within⟩
      rw [← Except.ok.inj same, checked] at within
      cases within
  | none =>
    simp only [checked]
    refine ⟨fun converted => ?_, And.left⟩
    rw [← Except.ok.inj converted, checked]
    exact ⟨rfl, rfl⟩

private theorem ConvertsAsGiven.bounded {kind : ConstraintKind} {limit : Nat} {inner : Typed}
    (as : ConvertsAsGiven o inner) : ConvertsAsGiven o (.bounded kind limit inner) := by
  intro x y session output
  rw [converter, gives_bounded_iff, ← @as x y session output]
  split
  next array => exact (and_iff_left fun other => (other array).elim).symm
  next other =>
    rw [counted_eq_ok_iff]
    exact and_congr_right fun _ => ⟨fun within _ => within, fun within => within other⟩

private theorem Fixed.convertsAsGiven {t : Typed} (fixed : t.Fixed) : ConvertsAsGiven o t := by
  induction t using Typed.induction with
  | leaf s convert => exact fun _ _ _ _ => gives_leaf_iff.symm
  | option absence inner ih => exact (ih fixed).option
  | array element ih => exact (ih fixed).array
  | tuple parts ih =>
    have below := (fixedAll_iff parts).1 fixed
    exact .tuple fun t member => ih t member (below t member)
  | union candidates ih =>
    have below := (fixedAll_iff candidates).1 fixed
    exact .union (fun t member => ih t member (below t member))
      fun t member => (below t member).schema
  | modified change inner ih =>
    exact fun x y session output => (@ih fixed.2 x y session output).trans gives_modified_iff.symm
  | bounded kind limit inner ih => exact (ih fixed).bounded

end Typed

namespace Schema

variable {o : Options}

private theorem Makes.eq_of_primitive {m : Modifiers} {p : Primitive} {depth shallower : Nat}
    {v w y : Value} (fixed : (primitive m p).WithoutProducers)
    (made : (primitive m p).Makes o depth v w) (below : shallower ≤ depth)
    (again : (primitive m p).Makes o shallower w y) : y = w := by
  have kind : y.kind = w.kind := kind_of_enter_again fixed made below again
  by_cases absent : w = .undefined
  · subst absent
    exact Value.eq_undefined_of_kind kind
  have reaches : m.reached w = w := m.reached_of_present absent
  rcases enter_ok fixed.self again with ⟨-, same⟩ | ⟨-, inner, -, checked⟩
  · exact same.trans reaches
  exact (Primitive.eq_of_check_ok checked).trans reaches

end Schema

namespace Typed

variable {o : Options}

def PrimitiveLeaf : Typed → Prop
  | .leaf s _ => ∃ m p, s = .primitive m p
  | _ => True

/-- A typed schema whose leaves are primitive. -/
def OverPrimitives (t : Typed) : Prop := t.Everywhere PrimitiveLeaf

mutual

/-- Wherever a value that is there reaches a typed union, the first candidate that accepts what was
made of the value is the one that accepts the value. The schema made `w` of `v`. -/
def Rechosen (o : Options) : Typed → Value → Value → Prop
  | .leaf _ _, _, _ => True
  | .option absence inner, v, w => absence.holds w = true ∨ inner.Rechosen o v w
  | .array element, v, w =>
    ∀ items values, v = .array items → w = .array values → ∀ x ∈ items.zip values,
      x.1 = .undefined ∨ element.Rechosen o x.1 x.2
  | .tuple parts, v, w =>
    ∀ items values, v = .array items → w = .array values → RechosenEach o parts items values
  | .union candidates, v, w =>
    ∀ index value, Schema.firstAccepting o 0 v (schemas candidates) = some (index, value) →
      (∃ again, Schema.firstAccepting o 0 w (schemas candidates) = some (index, again)) ∧
      RechosenAt o candidates index v w
  | .modified _ inner, v, w => inner.Rechosen o v w
  | .bounded _ _ inner, v, w => inner.Rechosen o v w

def RechosenEach (o : Options) : List Typed → List Value → List Value → Prop
  | t :: rest, item :: items, value :: values =>
    (item = .undefined ∨ t.Rechosen o item value) ∧ RechosenEach o rest items values
  | _, _, _ => True

def RechosenAt (o : Options) : List Typed → Nat → Value → Value → Prop
  | [], _, _, _ => True
  | t :: _, 0, v, w => t.Rechosen o v w
  | _ :: rest, index + 1, v, w => RechosenAt o rest index v w

end

private theorem rechosenAt_iff {candidates : List Typed} {index : Nat} {v w : Value} {t : Typed}
    (place : candidates[index]? = some t) :
    RechosenAt o candidates index v w ↔ t.Rechosen o v w := by
  induction candidates generalizing index with
  | nil => cases place
  | cons c rest ih =>
    cases index with
    | zero =>
      obtain rfl : c = t := Option.some.inj place
      rfl
    | succ index => exact ih place

private theorem rechosenEach_replicate {element : Typed} (items values : List Value) :
    RechosenEach o (List.replicate items.length element) items values ↔
      ∀ x ∈ items.zip values, x.1 = .undefined ∨ element.Rechosen o x.1 x.2 := by
  induction items generalizing values with
  | nil => simp [RechosenEach]
  | cons item rest ih =>
    cases values with
    | nil => simp [RechosenEach, List.replicate_succ]
    | cons value values =>
      simp only [List.length_cons, List.replicate_succ, RechosenEach, ih, List.zip_cons_cons,
        List.forall_mem_cons]

private theorem rechosen_union_iff {candidates : List Typed} {index : Nat} {v w value : Value}
    {t : Typed} (found : Schema.firstAccepting o 0 v (candidates.map schema) = some (index, value))
    (place : candidates[index]? = some t) :
    (union candidates).Rechosen o v w ↔
      (∃ again, Schema.firstAccepting o 0 w (candidates.map schema) = some (index, again)) ∧
        t.Rechosen o v w := by
  constructor
  · intro rechosen
    have chosen := rechosen index value (by rw [schemas_eq_map, found])
    rw [schemas_eq_map] at chosen
    exact ⟨chosen.1, (rechosenAt_iff place).1 chosen.2⟩
  · rintro ⟨again, inside⟩ other made same
    rw [schemas_eq_map] at same ⊢
    obtain ⟨rfl, rfl⟩ := Prod.mk.inj (Option.some.inj (found.symm.trans same))
    exact ⟨again, (rechosenAt_iff place).2 inside⟩

private def Regives (o : Options) (t : Typed) : Prop :=
  ∀ ⦃s : Schema⦄ ⦃depth : Nat⦄ ⦃v w x y : Value⦄ ⦃output : Output⦄,
    Encounter o t s depth true v w x y → (Gives o t x y output ↔ Gives o t w w output)

private theorem itemInputs_self (values : List Value) :
    Converter.itemInputs (.array values) values = values := by
  simp only [Converter.itemInputs, if_true]

private theorem MeetsEach.length_eq {ts : List Typed} {depth : Nat} {absent : Bool}
    {vs ws xs ys : List Value} (meets : MeetsEach o depth absent ts vs ws xs ys) :
    ws.length = ys.length := by
  induction meets with
  | nil => rfl
  | cons _ _ _ ih => exact congrArg (· + 1) ih

private theorem givesEach_again {ts : List Typed} (regives : ∀ t ∈ ts, Regives o t)
    (fixed : ∀ t ∈ ts, t.schema.WithoutProducers) {depth : Nat} {vs ws xs ys : List Value}
    (meets : MeetsEach o depth true ts vs ws xs ys) {outputs : List Output} :
    GivesEach o ts xs ys outputs ↔ GivesEach o ts ws ws outputs := by
  induction meets generalizing outputs with
  | nil =>
    constructor
    · intro given
      cases given
      exact .nil
    · intro given
      cases given
      exact .nil
  | @cons t rest v w x y vs ws xs ys made meets _ ih =>
    obtain ⟨here, later⟩ := List.forall_mem_cons.1 regives
    obtain ⟨inside, below⟩ := List.forall_mem_cons.1 fixed
    have same : ∀ output, Gives o t x y output ↔ Gives o t w w output := fun output =>
      here { fixed := inside, bare := rfl, made, meets, passes := id }
    cases outputs with
    | nil => exact ⟨nofun, nofun⟩
    | cons output others =>
      rw [givesEach_cons_iff, givesEach_cons_iff, same output, ih later below]

private theorem Regives.leaf {s : Schema} {convert : Conversion}
    (primitive : ∃ m p, s = .primitive m p) : Regives o (.leaf s convert) := by
  intro s' depth v w x y output e
  obtain ⟨m, p, rfl⟩ := primitive
  obtain ⟨m', rfl⟩ : ∃ m', s' = .primitive m' p := by
    have bare := e.bare
    cases s' with
    | primitive m' p' => exact ⟨m', congrArg _ (Schema.primitive.inj bare).2⟩
    | _ => cases bare
  have same : y = w := by
    cases e.meets with
    | again below again => exact e.made.eq_of_primitive e.fixed below again
    | _ => rfl
  rw [gives_leaf_iff, gives_leaf_iff, same]

private theorem Regives.option {absence : Absence} {inner : Typed} (regives : Regives o inner) :
    Regives o (.option absence inner) := by
  intro s depth v w x y output e
  have kind : absence.holds y = absence.holds w := absence.holds_congr e.kind_eq
  rw [gives_option_iff, gives_option_iff, kind]
  refine or_congr_right (and_congr_right fun present => ?_)
  exact exists_congr fun below => and_congr_right fun _ => regives (e.option present)

private theorem Regives.array {element : Typed} (regives : Regives o element)
    (fixed : element.schema.WithoutProducers) : Regives o (.array element) := by
  intro s depth v w x y output e
  obtain ⟨m, size, rfl⟩ := exists_array_of_bare e.bare
  obtain ⟨items, values, ys, -, rfl, rfl, length, meets⟩ :=
    e.items rfl (fun count => List.replicate count element) (makesEach_of_array fixed)
  rw [List.length_replicate] at length
  rw [gives_array_iff, gives_array_iff, itemInputs_self, meets.length_eq, length]
  refine exists_congr fun outputs => and_congr_right fun _ => givesEach_again ?_ ?_ meets
  · exact List.forall_mem_replicate.2 (.inr regives)
  · exact List.forall_mem_replicate.2 (.inr fixed)

private theorem Regives.tuple {parts : List Typed} (regives : ∀ t ∈ parts, Regives o t)
    (fixed : ∀ t ∈ parts, t.schema.WithoutProducers) : Regives o (.tuple parts) := by
  intro s depth v w x y output e
  obtain ⟨m, rfl⟩ := exists_tuple_of_bare e.bare
  obtain ⟨items, values, ys, -, rfl, rfl, -, meets⟩ :=
    e.items rfl (fun _ => parts) (makesEach_of_tuple fixed)
  rw [gives_tuple_iff, gives_tuple_iff, itemInputs_self]
  exact exists_congr fun outputs => and_congr_right fun _ => givesEach_again regives fixed meets

private theorem Regives.union {candidates : List Typed} : Regives o (.union candidates) := by
  intro s depth v w x y output e
  have lost : Converter.source x y = w := e.meets.source_output e.fixed e.made
  have own : Converter.source w w = w := ite_self _
  rw [gives_union_iff, gives_union_iff, lost, own]

private theorem Fixed.regives {t : Typed} (fixed : t.Fixed) (primitives : t.OverPrimitives) :
    Regives o t := by
  induction t using Typed.induction with
  | leaf s convert => exact .leaf primitives
  | option absence inner ih => exact (ih fixed primitives.2).option
  | array element ih => exact (ih fixed primitives.2).array (Fixed.schema fixed)
  | tuple parts ih =>
    have below := (fixedAll_iff parts).1 fixed
    refine .tuple (fun t member => ?_) fun t member => (below t member).schema
    exact ih t member (below t member) (primitives.item member)
  | union candidates _ => exact .union
  | modified change inner ih =>
    intro s depth v w x y output e
    rw [gives_modified_iff, gives_modified_iff]
    exact ih fixed.2 primitives.2 (e.modified fixed.1)
  | bounded kind limit inner ih =>
    intro s depth v w x y output e
    rw [gives_bounded_iff, gives_bounded_iff]
    exact and_congr_left fun _ => ih fixed primitives.2 e.bounded

private def Reconverts (o : Options) (t : Typed) : Prop :=
  ∀ ⦃s : Schema⦄ ⦃depth : Nat⦄ ⦃v w : Value⦄ ⦃output : Output⦄,
    Encounter o t s depth false v w v w → Gives o t v w output →
      (Gives o t w w output ↔ t.Rechosen o v w)

private theorem Reconverts.item {t : Typed} (reconverts : Reconverts o t) (regives : Regives o t)
    (fixed : t.schema.WithoutProducers) {depth : Nat} {v w : Value} {output : Output}
    (made : t.schema.Makes o depth v w) (given : Gives o t v w output) :
    Gives o t w w output ↔ v = .undefined ∨ t.Rechosen o v w := by
  by_cases absent : v = .undefined
  · subst absent
    have encounter : Encounter o t t.schema depth true .undefined w .undefined w :=
      { fixed, bare := rfl, made, meets := .absent, passes := id }
    exact iff_of_true ((regives encounter).1 given) (.inl rfl)
  · have encounter : Encounter o t t.schema depth false v w v w :=
      { fixed, bare := rfl, made, meets := .input absent, passes := id }
    rw [reconverts encounter given]
    exact (or_iff_right absent).symm

private theorem givesEach_iff_rechosen {ts : List Typed} (reconverts : ∀ t ∈ ts, Reconverts o t)
    (regives : ∀ t ∈ ts, Regives o t) (fixed : ∀ t ∈ ts, t.schema.WithoutProducers) {depth : Nat}
    {vs ws : List Value} (made : MakesEach o depth ts vs ws) {outputs : List Output}
    (given : GivesEach o ts vs ws outputs) :
    GivesEach o ts ws ws outputs ↔ RechosenEach o ts vs ws := by
  induction made generalizing outputs with
  | nil =>
    cases given
    exact iff_of_true .nil trivial
  | @cons t rest v w vs ws made _ ih =>
    obtain ⟨here, later⟩ := List.forall_mem_cons.1 reconverts
    obtain ⟨lost, others⟩ := List.forall_mem_cons.1 regives
    obtain ⟨inside, below⟩ := List.forall_mem_cons.1 fixed
    cases given with
    | cons first given =>
      have head := here.item lost inside made first
      have tail := ih later others below given
      rw [RechosenEach, ← head, ← tail]
      exact givesEach_cons_iff

private theorem Reconverts.option {absence : Absence} {inner : Typed}
    (reconverts : Reconverts o inner) : Reconverts o (.option absence inner) := by
  intro s depth v w output e given
  rw [gives_option_iff] at given ⊢
  rw [Rechosen]
  rcases given with ⟨holds, rfl⟩ | ⟨present, below, rfl, given⟩
  · exact iff_of_true (.inl ⟨holds, rfl⟩) (.inl holds)
  · have inside := reconverts (e.option present) given
    simp [present, inside]

private theorem Reconverts.array {element : Typed} (reconverts : Reconverts o element)
    (regives : Regives o element) (fixed : element.schema.WithoutProducers) :
    Reconverts o (.array element) := by
  intro s depth v w output e given
  obtain ⟨-, present⟩ := e.meets.source_input
  obtain ⟨inner, -, checked⟩ := e.checked rfl
  obtain ⟨m, size, rfl⟩ := exists_array_of_bare e.bare
  rw [Modifiers.reached_of_present _ present] at checked
  obtain ⟨items, values, rfl, rfl, each⟩ := makesEach_of_array fixed checked
  obtain ⟨inputs, outputs⟩ := each.length_eq
  rw [List.length_replicate] at inputs outputs
  have aligned : Converter.itemInputs (.array items) values = items := by
    simp only [Converter.itemInputs, outputs, if_true]
  rw [gives_array_iff, aligned, ← outputs] at given
  rw [gives_array_iff, itemInputs_self, ← outputs]
  obtain ⟨made, rfl, given⟩ := given
  have steps := givesEach_iff_rechosen (List.forall_mem_replicate.2 (.inr reconverts))
    (List.forall_mem_replicate.2 (.inr regives)) (List.forall_mem_replicate.2 (.inr fixed)) each
    given
  rw [rechosenEach_replicate] at steps
  simpa [Rechosen] using steps

private theorem Reconverts.tuple {parts : List Typed} (reconverts : ∀ t ∈ parts, Reconverts o t)
    (regives : ∀ t ∈ parts, Regives o t) (fixed : ∀ t ∈ parts, t.schema.WithoutProducers) :
    Reconverts o (.tuple parts) := by
  intro s depth v w output e given
  obtain ⟨-, present⟩ := e.meets.source_input
  obtain ⟨inner, -, checked⟩ := e.checked rfl
  obtain ⟨m, rfl⟩ := exists_tuple_of_bare e.bare
  rw [Modifiers.reached_of_present _ present] at checked
  obtain ⟨items, values, rfl, rfl, each⟩ := makesEach_of_tuple fixed checked
  obtain ⟨inputs, outputs⟩ := each.length_eq
  have aligned : Converter.itemInputs (.array items) values = items := by
    simp only [Converter.itemInputs, ← inputs, outputs, if_true]
  rw [gives_tuple_iff, aligned] at given
  rw [gives_tuple_iff, itemInputs_self]
  obtain ⟨made, rfl, given⟩ := given
  have steps := givesEach_iff_rechosen reconverts regives fixed each given
  simpa [Rechosen] using steps

/-- A union that is tried again may take another candidate, and then shows it. If it takes the same
one, this converts what it makes of `w`, which comes to the same as converting `w`. -/
private theorem Reconverts.union {candidates : List Typed}
    (reconverts : ∀ t ∈ candidates, Reconverts o t) (regives : ∀ t ∈ candidates, Regives o t)
    (fixed : ∀ t ∈ candidates, t.schema.WithoutProducers) : Reconverts o (.union candidates) := by
  intro s depth v w output e given
  obtain ⟨input, present⟩ := e.meets.source_input
  obtain ⟨index, t, place, made, first⟩ := e.chosen fixed
  rw [Modifiers.reached_of_present _ present] at made first
  have found := first 0 (Nat.zero_le _)
  have own : Converter.source w w = w := ite_self _
  rw [gives_union_iff, input] at given
  obtain ⟨index', value, t', below, found', place', given, rfl⟩ := given
  obtain ⟨rfl, rfl⟩ := Prod.mk.inj (Option.some.inj (found.symm.trans found'))
  obtain rfl := Option.some.inj (place.symm.trans place')
  have member := List.mem_of_getElem? place
  have encounter : Encounter o t t.schema (depth + 1) false v w v w :=
    { fixed := fixed t member, bare := rfl, made, meets := .input present, passes := id }
  have inside := reconverts t member encounter given
  have again : ∀ {y : Value}, Schema.firstAccepting o 0 w (candidates.map schema) =
      some (index, y) → (Gives o t w y below ↔ Gives o t w w below) := by
    intro y once
    obtain ⟨c, here, makes⟩ := candidate_of_firstAccepting once
    obtain rfl := Option.some.inj (place.symm.trans here)
    have encounter : Encounter o t t.schema (depth + 1) true v w w y :=
      { fixed := fixed t member, bare := rfl, made, meets := .again (Nat.zero_le _) makes,
        passes := id }
    exact regives t member encounter
  rw [gives_union_iff, own, rechosen_union_iff found place, ← inside]
  constructor
  · rintro ⟨other, y, c, kept, once, there, gives, same⟩
    obtain ⟨rfl, rfl⟩ := Output.choice.inj same
    obtain rfl := Option.some.inj (place.symm.trans there)
    exact ⟨⟨y, once⟩, (again once).1 gives⟩
  · rintro ⟨⟨y, once⟩, gives⟩
    exact ⟨index, y, t, below, once, place, (again once).2 gives, rfl⟩

private theorem Fixed.reconverts {t : Typed} (fixed : t.Fixed) (primitives : t.OverPrimitives) :
    Reconverts o t := by
  induction t using Typed.induction with
  | leaf s convert =>
    intro s' depth v w output e given
    rw [gives_leaf_iff] at given ⊢
    exact iff_of_true given trivial
  | option absence inner ih => exact (ih fixed primitives.2).option
  | array element ih =>
    have inside : element.Fixed := fixed
    exact (ih fixed primitives.2).array (inside.regives primitives.2) inside.schema
  | tuple parts ih =>
    have below := (fixedAll_iff parts).1 fixed
    refine .tuple (fun t member => ?_) (fun t member => ?_) fun t member => (below t member).schema
    · exact ih t member (below t member) (primitives.item member)
    · exact (below t member).regives (primitives.item member)
  | union candidates ih =>
    have below := (fixedAll_iff candidates).1 fixed
    refine .union (fun t member => ?_) (fun t member => ?_) fun t member => (below t member).schema
    · exact ih t member (below t member) (primitives.candidate member)
    · exact (below t member).regives (primitives.candidate member)
  | modified change inner ih =>
    intro s depth v w output e given
    rw [gives_modified_iff] at given ⊢
    exact ih fixed.2 primitives.2 (e.modified fixed.1) given
  | bounded kind limit inner ih =>
    intro s depth v w output e given
    rw [gives_bounded_iff] at given ⊢
    rw [and_iff_left given.2]
    exact ih fixed primitives.2 e.bounded given.1

private theorem OverPrimitives.objectless {t : Typed} (primitives : t.OverPrimitives) :
    t.schema.WithoutObjects := by
  have listed : ∀ items : List Typed, (∀ t ∈ items, t.schema.WithoutObjects) →
      Schema.EverywhereIn (fun s => s.kind ≠ .object) (schemas items) := by
    intro items all
    rw [schemas_eq_map, Schema.everywhereIn_iff]
    exact List.forall_mem_map.2 all
  induction t using Typed.induction with
  | leaf s convert =>
    obtain ⟨m, p, rfl⟩ := primitives
    have other : (Schema.primitive m p).kind ≠ .object := by cases p <;> nofun
    exact other
  | option absence inner ih =>
    have inside := ih primitives.2
    exact inside.modify (by rw [Schema.kind_modify]; exact inside.self)
  | array element ih => exact ⟨nofun, ih primitives.2⟩
  | tuple items ih =>
    exact ⟨nofun, listed items fun t member => ih t member (primitives.item member)⟩
  | union candidates ih =>
    exact ⟨nofun, listed candidates fun t member => ih t member (primitives.candidate member)⟩
  | modified change inner ih =>
    have inside := ih primitives.2
    exact inside.modify (by rw [Schema.kind_modify]; exact inside.self)
  | bounded kind limit inner ih =>
    have inside := ih primitives.2
    change (boundArray kind limit inner.schema).WithoutObjects
    revert inside
    cases inner.schema with
    | array m size element => exact fun inside => ⟨nofun, inside.2⟩
    | _ => exact id

/-- A typed parse by default options comes to the same output as converting what the schema made
exactly if the unions that were tried on a value that was there choose the same again. That is so
where no absent value stands where the schema has a default. -/
theorem convert_made_iff (t : Typed) (fixed : t.Fixed) (primitives : t.OverPrimitives)
    {input w : Value} {session : Session} {output : Output}
    (accepted : (t.schema.parse {} input session).1 = .ok w)
    (parsed : (t.parse {} input session).1 = .ok output) (other : Session) :
    ((t.convert w other).1 = .ok output ↔ input = .undefined ∨ t.Rechosen {} input w) ∧
      (t.schema.Filled input → (t.convert w other).1 = .ok output) := by
  have made : t.schema.Makes {} 0 input w := (Schema.parse_ok_iff_makes fixed.schema).1 accepted
  obtain ⟨-, later, converted⟩ := encounter_of_parse fixed accepted parsed
  have gives : ConvertsAsGiven {} t := fixed.convertsAsGiven
  have given : Gives {} t input w output := gives.1 converted
  have again : (t.convert w other).1 = .ok output ↔ Gives {} t w w output := @gives w w other output
  rw [again]
  refine ⟨?_, fun filled => ?_⟩
  · exact (fixed.reconverts primitives).item (fixed.regives primitives) fixed.schema made given
  · have same : w = input := filled.eq_of_enter primitives.objectless made
    rw [same] at given ⊢
    exact given

/-- Strings do not take the default that the second candidate has filled in, so it is chosen
again. -/
theorem convert_made_again :
    let flag : Typed := .ofPrimitive (Schema.boolean.modify (.default (.value (.bool true))))
    let t : Typed := .union [.tuple [.ofPrimitive .string], .tuple [flag]]
    t.Rechosen {} (.array [.undefined]) (.array [.bool true]) ∧
      (t.convert (.array [.bool true]) {}).1 = .ok (.choice 1 (.tuple [.bool true])) := by
  intro flag t
  have fixed : t.Fixed := ⟨⟨nofun, trivial⟩, ⟨nofun, trivial⟩, trivial⟩
  have primitives : t.OverPrimitives :=
    ⟨trivial, ⟨trivial, ⟨_, _, rfl⟩, trivial⟩, ⟨trivial, ⟨_, _, rfl⟩, trivial⟩, trivial⟩
  have accepted : (t.schema.parse {} (.array [.undefined]) {}).1 = .ok (.array [.bool true]) := by
    rfl
  have parsed : (t.parse {} (.array [.undefined]) {}).1 =
      .ok (.choice 1 (.tuple [.bool true])) := by
    cbv
  have found : Schema.firstAccepting {} 0 (.array [.undefined])
      ([.tuple [.ofPrimitive .string], .tuple [flag]].map schema) =
        some (1, .array [.bool true]) := by rfl
  have again : Schema.firstAccepting {} 0 (.array [.bool true])
      ([.tuple [.ofPrimitive .string], .tuple [flag]].map schema) =
        some (1, .array [.bool true]) := by rfl
  have inside : (Typed.tuple [flag]).Rechosen {} (.array [.undefined]) (.array [.bool true]) := by
    rintro items values ⟨⟩ ⟨⟩
    exact ⟨.inl rfl, trivial⟩
  have rechosen : t.Rechosen {} (.array [.undefined]) (.array [.bool true]) :=
    (rechosen_union_iff found rfl).2 ⟨⟨_, again⟩, inside⟩
  have converted := (convert_made_iff t fixed primitives accepted parsed {}).1
  exact ⟨rechosen, converted.2 (.inr rechosen)⟩

/-- The default that the second candidate has filled in for an absent item is taken by the first
one. -/
theorem convert_apart_from_parse :
    let flag : Typed := .ofPrimitive (Schema.boolean.modify (.default (.value (.bool true))))
    let t : Typed := .union [.tuple [.ofPrimitive .boolean], .tuple [flag]]
    t.Fixed ∧ t.OverPrimitives ∧
      (t.schema.parse {} (.array [.undefined]) {}).1 = .ok (.array [.bool true]) ∧
      (t.parse {} (.array [.undefined]) {}).1 = .ok (.choice 1 (.tuple [.bool true])) ∧
      (t.convert (.array [.bool true]) {}).1 = .ok (.choice 0 (.tuple [.bool true])) ∧
      (t.convert (.array [.bool true]) {}).1 ≠ .ok (.choice 1 (.tuple [.bool true])) := by
  intro flag t
  have fixed : t.Fixed := ⟨⟨nofun, trivial⟩, ⟨nofun, trivial⟩, trivial⟩
  have primitives : t.OverPrimitives :=
    ⟨trivial, ⟨trivial, ⟨_, _, rfl⟩, trivial⟩, ⟨trivial, ⟨_, _, rfl⟩, trivial⟩, trivial⟩
  have accepted : (t.schema.parse {} (.array [.undefined]) {}).1 = .ok (.array [.bool true]) := by
    rfl
  have parsed : (t.parse {} (.array [.undefined]) {}).1 =
      .ok (.choice 1 (.tuple [.bool true])) := by
    cbv
  have first : (t.convert (.array [.bool true]) {}).1 = .ok (.choice 0 (.tuple [.bool true])) := by
    rfl
  refine ⟨fixed, primitives, accepted, parsed, first, ?_⟩
  rw [first]
  intro same
  cases same

end Typed

end ValueSchema
