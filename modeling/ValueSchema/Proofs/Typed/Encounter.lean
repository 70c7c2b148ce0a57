import ValueSchema.Proofs.Typed.Commitment

/-!
Where a conversion meets a value: what the schema made of the value, and which input and output the
conversion gets for it.
-/

set_option autoImplicit false
set_option relaxedAutoImplicit false

namespace ValueSchema

theorem Absence.holds_congr (absence : Absence) {v w : Value} (kind : v.kind = w.kind) :
    absence.holds v = absence.holds w := by
  cases v <;> cases w <;> cases absence <;> first | rfl | cases kind

theorem Absence.passes_inside {absence : Absence} {v : Value} (present : absence.holds v = false)
    {m : Modifiers} (passes : (m.apply absence.modifier).passes v = true) : m.passes v = true := by
  cases absence <;> cases v <;> first | exact passes | cases present

def Modifier.Narrows : Modifier → Prop
  | .required => True
  | .nonNullable => True
  | .default _ => True
  | _ => False

theorem Modifier.Narrows.passes_inside {change : Modifier} (narrows : change.Narrows) {v : Value}
    {m : Modifiers} (passes : (m.apply change).passes v = true) : m.passes v = true := by
  cases change with
  | required =>
    cases v with
    | undefined => cases passes
    | _ => exact passes
  | nonNullable =>
    cases v with
    | null => cases passes
    | _ => exact passes
  | default d => cases v <;> exact passes
  | _ => exact narrows.elim

private theorem Modifier.Fixed.narrows {change : Modifier} (fixed : change.Fixed) :
    change.Narrows := by
  cases change with
  | optional => exact fixed
  | nullable => exact fixed
  | nullish => exact fixed
  | _ => trivial

namespace Schema

variable {o : Options} {s : Schema} {depth : Nat} {v w x y : Value}

/-- In a new session, a schema makes one value of another one at a depth. -/
def Makes (o : Options) (depth : Nat) (s : Schema) (v w : Value) : Prop :=
  (s.enter o v ⟨{}, depth⟩).1 = .ok w

private theorem Makes.of_returns (fixed : s.WithoutProducers)
    (returned : Parser.Returns (fun run => run.depth = depth) (s.enter o) v (.ok w)) :
    s.Makes o depth v w := by
  obtain ⟨run, start, accepted⟩ := returned
  exact enter_ok_shallower fixed accepted (Nat.le_of_eq start.symm)

theorem Steady.parse_ok_iff_makes (steady : s.Steady o v) {session : Session} :
    (s.parse o v session).1 = .ok w ↔ s.Makes o 0 v w := by
  rw [parse_result]
  constructor
  · exact fun accepted => steady.accepted accepted (Nat.le_refl 0)
  · exact fun made => steady.accepted made (Nat.le_refl 0)

theorem parse_ok_iff_makes (fixed : s.WithoutProducers) {session : Session} :
    (s.parse o v session).1 = .ok w ↔ s.Makes o 0 v w :=
  fixed.steady.parse_ok_iff_makes

/-- How a conversion meets a value. The schema makes `w` of `v`; the conversion gets the input `x`
and the value `y`. Unless an absent value was met, these are `v` and `w`. Otherwise the input is
absent, or it is an output itself, which may have been parsed once more. -/
inductive Meets (o : Options) (s : Schema) (depth : Nat) :
    Bool → Value → Value → Value → Value → Prop
  | input {v w : Value} (present : v ≠ .undefined) : Meets o s depth false v w v w
  | absent {v w : Value} : Meets o s depth true v w .undefined w
  | output {v w : Value} : Meets o s depth true v w w w
  | again {v w y : Value} {shallower : Nat} (below : shallower ≤ depth)
      (made : s.Makes o shallower w y) : Meets o s depth true v w w y

private theorem Meets.kind_eq {absent : Bool} (meets : Meets o s depth absent v w x y)
    (fixed : s.WithoutProducers) (made : s.Makes o depth v w) : y.kind = w.kind := by
  cases meets with
  | again below again => exact kind_of_enter_again fixed made below again
  | _ => rfl

theorem Meets.source_input (meets : Meets o s depth false v w x y) :
    Converter.source x y = v ∧ v ≠ .undefined := by
  cases meets with
  | input present =>
    cases v with
    | undefined => exact (present rfl).elim
    | _ => exact ⟨rfl, present⟩

theorem Meets.source_output (meets : Meets o s depth true v w x y) (fixed : s.WithoutProducers)
    (made : s.Makes o depth v w) : Converter.source x y = w := by
  cases meets with
  | absent => rfl
  | output =>
    rw [Converter.source]
    split <;> rfl
  | again below again =>
    cases w with
    | undefined =>
      have kind := kind_of_enter_again fixed made below again
      cases y with
      | undefined => rfl
      | _ => cases kind
    | _ => rfl

private theorem Makes.checked (fixed : s.WithoutProducers) {items : List Value}
    (made : s.Makes o depth (.array items) w) :
    ∃ inner, inner.depth = depth + 1 ∧ (s.check o (.array items) inner).1 = .ok w := by
  rcases enter_ok fixed.self made with ⟨passes, -⟩ | ⟨-, checked⟩
  · cases passes
  · exact checked

def bare : Schema → Schema
  | .primitive _ p => .primitive {} p
  | .array _ _ element => .array {} [] element
  | .tuple _ items => .tuple {} items
  | .object _ unknownKeys fields => .object {} unknownKeys fields
  | .union _ candidates => .union {} candidates

@[simp] theorem bare_modify (s : Schema) (change : Modifier) : (s.modify change).bare = s.bare := by
  cases s <;> rfl

private theorem WithoutProducers.modify {s : Schema} (fixed : s.WithoutProducers)
    {change : Modifier}
    (value : ∀ p, change ≠ .default (.producer p)) : (s.modify change).WithoutProducers := by
  have own : ∀ p, (s.modifiers.apply change).default? ≠ some (.producer p) := by
    intro p standing
    cases change with
    | default d => exact value p (congrArg Modifier.default (Option.some.inj standing))
    | _ => exact fixed.self p standing
  cases s with
  | primitive m p => exact own
  | _ => exact ⟨own, fixed.2⟩

end Schema

namespace Typed

variable {o : Options}

@[simp] private theorem bare_boundArray (kind : ConstraintKind) (limit : Nat) (s : Schema) :
    (boundArray kind limit s).bare = s.bare := by
  cases s <;> rfl

@[simp] private theorem modifiers_boundArray (kind : ConstraintKind) (limit : Nat) (s : Schema) :
    (boundArray kind limit s).modifiers = s.modifiers := by
  cases s <;> rfl

theorem exists_array_of_bare {s : Schema} {element : Typed}
    (bare : s.bare = (array element).schema.bare) :
    ∃ m size, s = .array m size element.schema := by
  cases s <;> simp_all [Schema.bare, schema, Schema.arrayOf]

theorem exists_tuple_of_bare {s : Schema} {parts : List Typed}
    (bare : s.bare = (tuple parts).schema.bare) : ∃ m, s = .tuple m (parts.map schema) := by
  rw [← schemas_eq_map]
  cases s <;> simp_all [Schema.bare, schema, Schema.tupleOf]

theorem exists_union_of_bare {s : Schema} {candidates : List Typed}
    (bare : s.bare = (union candidates).schema.bare) :
    ∃ m, s = .union m (candidates.map schema) := by
  rw [← schemas_eq_map]
  cases s <;> simp_all [Schema.bare, schema, Schema.unionOf]

theorem Fixed.schema {t : Typed} (fixed : t.Fixed) : t.schema.WithoutProducers := by
  have listed : ∀ items : List Typed, (∀ t ∈ items, t.schema.WithoutProducers) →
      Schema.EverywhereIn (fun s => ∀ p, s.modifiers.default? ≠ some (.producer p))
        (schemas items) := by
    intro items all
    rw [schemas_eq_map, Schema.everywhereIn_iff]
    exact List.forall_mem_map.2 all
  induction t using Typed.induction with
  | leaf s convert => exact fixed
  | option absence inner ih =>
    refine (ih fixed).modify fun p => ?_
    cases absence <;> exact nofun
  | array element ih => exact ⟨nofun, ih fixed⟩
  | tuple items ih =>
    exact ⟨nofun, listed items fun t member => ih t member ((fixedAll_iff items).1 fixed t member)⟩
  | union candidates ih =>
    exact ⟨nofun, listed candidates fun t member =>
      ih t member ((fixedAll_iff candidates).1 fixed t member)⟩
  | modified change inner ih =>
    refine (ih fixed.2).modify fun p same => ?_
    subst same
    exact fixed.1
  | bounded kind limit inner ih =>
    have inside := ih fixed
    change (boundArray kind limit inner.schema).WithoutProducers
    revert inside
    cases inner.schema with
    | array m size element => exact fun inside => ⟨inside.1, inside.2⟩
    | _ => exact id

theorem candidate_of_firstAccepting {candidates : List Typed} {depth index : Nat} {v w : Value}
    (found : Schema.firstAccepting o depth v (candidates.map schema) = some (index, w)) :
    ∃ t, candidates[index]? = some t ∧ t.schema.Makes o depth v w := by
  obtain ⟨s, here, made⟩ := Schema.firstAccepting_eq_some found
  rw [List.getElem?_map] at here
  obtain ⟨t, place, rfl⟩ := Option.map_eq_some_iff.1 here
  exact ⟨t, place, made⟩

inductive MakesEach (o : Options) (depth : Nat) : List Typed → List Value → List Value → Prop
  | nil : MakesEach o depth [] [] []
  | cons {t : Typed} {rest : List Typed} {v w : Value} {vs ws : List Value}
      (made : t.schema.Makes o depth v w) (later : MakesEach o depth rest vs ws) :
      MakesEach o depth (t :: rest) (v :: vs) (w :: ws)

inductive MeetsEach (o : Options) (depth : Nat) (absent : Bool) :
    List Typed → List Value → List Value → List Value → List Value → Prop
  | nil : MeetsEach o depth absent [] [] [] [] []
  | cons {t : Typed} {rest : List Typed} {v w x y : Value} {vs ws xs ys : List Value}
      (made : t.schema.Makes o depth v w)
      (meets : t.schema.Meets o depth (absent || v.isUndefined) v w x y)
      (later : MeetsEach o depth absent rest vs ws xs ys) :
      MeetsEach o depth absent (t :: rest) (v :: vs) (w :: ws) (x :: xs) (y :: ys)

namespace MakesEach

variable {depth : Nat} {ts : List Typed} {vs ws ys : List Value}

theorem length_eq (made : MakesEach o depth ts vs ws) :
    ts.length = vs.length ∧ ts.length = ws.length := by
  induction made with
  | nil => exact ⟨rfl, rfl⟩
  | cons _ _ ih => exact ⟨congrArg (· + 1) ih.1, congrArg (· + 1) ih.2⟩

private theorem of_zip {ts : List Typed} (fixed : ∀ t ∈ ts, t.schema.WithoutProducers)
    {vs ws : List Value} (same : vs.length = ts.length)
    (each : List.Forall₂ (fun x w => Parser.Returns (fun run => run.depth = depth) x.1 x.2 (.ok w))
      ((ts.map fun t => t.schema.enter o).zip vs) ws) : MakesEach o depth ts vs ws := by
  induction ts generalizing vs ws with
  | nil =>
    obtain rfl := List.length_eq_zero_iff.1 same
    cases each
    exact .nil
  | cons t rest ih =>
    cases vs with
    | nil => cases same
    | cons v vs =>
      cases each with
      | cons returned later =>
        refine .cons (.of_returns (fixed t List.mem_cons_self) returned) ?_
        exact ih (fun t member => fixed t (List.mem_cons_of_mem _ member)) (Nat.succ.inj same) later

private theorem of_element {element : Typed} (fixed : element.schema.WithoutProducers)
    {vs ws : List Value}
    (each : List.Forall₂ (fun v w =>
      Parser.Returns (fun run => run.depth = depth) (element.schema.enter o) v (.ok w)) vs ws) :
    MakesEach o depth (List.replicate vs.length element) vs ws := by
  induction each with
  | nil => exact .nil
  | cons returned _ ih => exact .cons (.of_returns fixed returned) ih

private theorem meets_input (made : MakesEach o depth ts vs ws) :
    MeetsEach o depth false ts vs ws vs ws := by
  induction made with
  | nil => exact .nil
  | @cons t rest v w vs ws made _ ih =>
    refine .cons made ?_ ih
    by_cases absent : v = .undefined
    · subst absent
      exact .absent
    · have present : v.isUndefined = false := by
        cases v with
        | undefined => exact (absent rfl).elim
        | _ => rfl
      rw [present]
      exact .input absent

private theorem meets_output (made : MakesEach o depth ts vs ws) :
    MeetsEach o depth true ts vs ws ws ws := by
  induction made with
  | nil => exact .nil
  | cons made _ ih => exact .cons made .output ih

private theorem meets_again (made : MakesEach o depth ts vs ws) {shallower : Nat}
    (below : shallower ≤ depth) (again : MakesEach o shallower ts ws ys) :
    MeetsEach o depth true ts vs ws ws ys := by
  induction made generalizing ys with
  | nil =>
    cases again
    exact .nil
  | cons made _ ih =>
    cases again with
    | cons once later => exact .cons made (.again below once) (ih later)

end MakesEach

/-- The typed schema `t`, or one around it with the schema `s`, converts what `s` has made. What the
modifiers of `s` pass, those of `t` pass. -/
structure Encounter (o : Options) (t : Typed) (s : Schema) (depth : Nat) (absent : Bool)
    (v w x y : Value) : Prop where
  fixed : s.WithoutProducers
  bare : s.bare = t.schema.bare
  made : s.Makes o depth v w
  meets : s.Meets o depth absent v w x y
  passes : s.modifiers.passes (s.modifiers.reached v) = true →
    t.schema.modifiers.passes (s.modifiers.reached v) = true

namespace Encounter

variable {t inner : Typed} {s : Schema} {depth : Nat} {absent : Bool} {v w x y : Value}

theorem of_makes (fixed : t.schema.WithoutProducers) (made : t.schema.Makes o depth v w) :
    Encounter o t t.schema depth v.isUndefined v w v w where
  fixed := fixed
  bare := rfl
  made := made
  meets := by
    cases v with
    | undefined => exact .absent
    | _ => exact .input nofun
  passes := id

theorem kind_eq (e : Encounter o t s depth absent v w x y) : y.kind = w.kind :=
  e.meets.kind_eq e.fixed e.made

theorem option {absence : Absence} (e : Encounter o (.option absence inner) s depth absent v w x y)
    (present : absence.holds w = false) : Encounter o inner s depth absent v w x y where
  fixed := e.fixed
  bare := e.bare.trans (Schema.bare_modify _ _)
  made := e.made
  meets := e.meets
  passes := by
    intro passes
    have outside : (inner.schema.modifiers.apply absence.modifier).passes
        (s.modifiers.reached v) = true := by
      rw [← Schema.modifiers_modify]
      exact e.passes passes
    -- what the modifiers pass is given back: the value that was reached is `w`
    rcases Schema.enter_ok e.fixed.self e.made with ⟨-, same⟩ | ⟨closed, -⟩
    · exact Absence.passes_inside (same ▸ present) outside
    · rw [closed] at passes
      cases passes

theorem modified {change : Modifier}
    (e : Encounter o (.modified change inner) s depth absent v w x y)
    (fixed : change.Fixed) : Encounter o inner s depth absent v w x y where
  fixed := e.fixed
  bare := e.bare.trans (Schema.bare_modify _ _)
  made := e.made
  meets := e.meets
  passes := by
    intro passes
    refine fixed.narrows.passes_inside ?_
    rw [← Schema.modifiers_modify]
    exact e.passes passes

theorem bounded {kind : ConstraintKind} {limit : Nat}
    (e : Encounter o (.bounded kind limit inner) s depth absent v w x y) :
    Encounter o inner s depth absent v w x y where
  fixed := e.fixed
  bare := e.bare.trans (bare_boundArray _ _ _)
  made := e.made
  meets := e.meets
  passes := by
    intro passes
    rw [← modifiers_boundArray kind limit]
    exact e.passes passes

theorem checked (e : Encounter o t s depth absent v w x y) (own : t.schema.modifiers = {}) :
    ∃ inner, inner.depth = depth + 1 ∧
      (s.check o (s.modifiers.reached v) inner).1 = .ok w := by
  rcases Schema.enter_ok e.fixed.self e.made with ⟨passes, -⟩ | ⟨-, checked⟩
  · have none := e.passes passes
    rw [own] at none
    cases reaches : s.modifiers.reached v <;> rw [reaches] at none <;> cases none
  · exact checked

theorem chosen {candidates : List Typed}
    (e : Encounter o (.union candidates) s depth absent v w x y)
    (fixed : ∀ t ∈ candidates, t.schema.WithoutProducers) :
    ∃ index t, candidates[index]? = some t ∧
      t.schema.Makes o (depth + 1) (s.modifiers.reached v) w ∧
      ∀ d ≤ depth + 1, Schema.firstAccepting o d (s.modifiers.reached v)
        (candidates.map Typed.schema) = some (index, w) := by
  obtain ⟨inner, deeper, checked⟩ := e.checked rfl
  obtain ⟨m, rfl⟩ := exists_union_of_bare e.bare
  have steady : ∀ u, ∀ s ∈ candidates.map Typed.schema, s.Steady o u :=
    fun u => List.forall_mem_map.2 fun t member => (fixed t member).steady
  obtain ⟨index, first⟩ := Schema.firstAccepting_of_union_ok (steady _) checked
  rw [deeper] at first
  obtain ⟨t, place, made⟩ := candidate_of_firstAccepting (first (depth + 1) (Nat.le_refl _))
  exact ⟨index, t, place, made, first⟩

end Encounter

private theorem meets_items {s : Schema} {ts : List Typed} {depth : Nat} {absent : Bool}
    {v w x y : Value} {vs ws : List Value} (meets : s.Meets o depth absent v w x y)
    (reaches : s.modifiers.reached v = .array vs) (array : w = .array ws)
    (first : MakesEach o (depth + 1) ts vs ws)
    (again : ∀ shallower, s.Makes o shallower w y →
      ∃ ys, y = .array ys ∧ MakesEach o (shallower + 1) ts ws ys) :
    ∃ ys, y = .array ys ∧ ys.length = ts.length ∧
      MeetsEach o (depth + 1) absent ts vs ws (Converter.itemInputs x ys) ys := by
  obtain ⟨inputs, outputs⟩ := first.length_eq
  subst array
  cases meets with
  | input present =>
    rw [s.modifiers.reached_of_present present] at reaches
    subst reaches
    have aligned : vs.length = ws.length := inputs.symm.trans outputs
    refine ⟨ws, rfl, outputs.symm, ?_⟩
    simp only [Converter.itemInputs, aligned, if_true]
    exact first.meets_input
  | absent => exact ⟨ws, rfl, outputs.symm, first.meets_output⟩
  | output =>
    refine ⟨ws, rfl, outputs.symm, ?_⟩
    simp only [Converter.itemInputs, if_true]
    exact first.meets_output
  | again below made =>
    obtain ⟨ys, rfl, once⟩ := again _ made
    obtain ⟨before, after⟩ := once.length_eq
    have aligned : ws.length = ys.length := before.symm.trans after
    refine ⟨ys, rfl, after.symm, ?_⟩
    simp only [Converter.itemInputs, aligned, if_true]
    exact first.meets_again (Nat.succ_le_succ below) once

theorem makesEach_of_array {m : Modifiers} {size : Bounds Nat} {element : Typed} {v w : Value}
    {inner : Run} (fixed : element.schema.WithoutProducers)
    (checked : ((Schema.array m size element.schema).check o v inner).1 = .ok w) :
    ∃ items values, v = .array items ∧ w = .array values ∧
      MakesEach o inner.depth (List.replicate items.length element) items values := by
  rw [Schema.check_array] at checked
  obtain ⟨items, values, rfl, rfl, each⟩ :=
    Parser.array_ok ((element.schema.enter_lawful o).keeps_depth inner.depth) rfl checked
  exact ⟨items, values, rfl, rfl, .of_element fixed each⟩

theorem makesEach_of_tuple {m : Modifiers} {parts : List Typed} {v w : Value} {inner : Run}
    (fixed : ∀ t ∈ parts, t.schema.WithoutProducers)
    (checked : ((Schema.tuple m (parts.map schema)).check o v inner).1 = .ok w) :
    ∃ items values, v = .array items ∧ w = .array values ∧
      MakesEach o inner.depth parts items values := by
  rw [Schema.check_tuple, List.map_map] at checked
  have keeps : ∀ p ∈ parts.map (Schema.enter o ∘ schema),
      p.Keeps fun run => run.depth = inner.depth :=
    List.forall_mem_map.2 fun t _ => (t.schema.enter_lawful o).keeps_depth inner.depth
  obtain ⟨items, values, rfl, rfl, same, each⟩ := Parser.tuple_ok keeps rfl checked
  rw [List.length_map] at same
  exact ⟨items, values, rfl, rfl, .of_zip fixed same each⟩

/-- Arrays are met item by item, if the check of the kind makes their items by one list of typed
schemas for every length. -/
theorem Encounter.items {t : Typed} {s : Schema} {depth : Nat} {absent : Bool} {v w x y : Value}
    (e : Encounter o t s depth absent v w x y) (own : t.schema.modifiers = {})
    (parts : Nat → List Typed)
    (made : ∀ {input output : Value} {run : Run}, (s.check o input run).1 = .ok output →
      ∃ items values, input = .array items ∧ output = .array values ∧
        MakesEach o run.depth (parts items.length) items values) :
    ∃ items values ys, s.modifiers.reached v = .array items ∧ w = .array values ∧ y = .array ys ∧
      ys.length = (parts items.length).length ∧
      MeetsEach o (depth + 1) absent (parts items.length) items values
        (Converter.itemInputs x ys) ys := by
  obtain ⟨inner, deeper, checked⟩ := e.checked own
  obtain ⟨items, values, reaches, rfl, each⟩ := made checked
  rw [deeper] at each
  have again : ∀ shallower, s.Makes o shallower (.array values) y → ∃ ys, y = .array ys ∧
      MakesEach o (shallower + 1) (parts items.length) values ys := by
    intro shallower once
    obtain ⟨run, start, checked⟩ := once.checked e.fixed
    obtain ⟨_, ys, same, rfl, later⟩ := made checked
    obtain rfl := Value.array.inj same
    obtain ⟨inputs, outputs⟩ := each.length_eq
    rw [start, ← outputs, inputs] at later
    exact ⟨ys, rfl, later⟩
  obtain ⟨ys, rfl, length, meets⟩ := meets_items e.meets reaches rfl each again
  exact ⟨items, values, ys, reaches, rfl, rfl, length, meets⟩

end Typed

theorem Schema.Everywhere.modify {P : Schema → Prop} {s : Schema} (all : s.Everywhere P)
    {change : Modifier} (own : P (s.modify change)) : (s.modify change).Everywhere P := by
  cases s with
  | primitive m p => exact own
  | _ => exact ⟨own, all.2⟩

namespace Typed

variable {P : Typed → Prop}

mutual

def Everywhere (P : Typed → Prop) : Typed → Prop
  | .leaf s convert => P (.leaf s convert)
  | .option absence inner => P (.option absence inner) ∧ inner.Everywhere P
  | .array element => P (.array element) ∧ element.Everywhere P
  | .tuple items => P (.tuple items) ∧ EverywhereIn P items
  | .union candidates => P (.union candidates) ∧ EverywhereIn P candidates
  | .modified change inner => P (.modified change inner) ∧ inner.Everywhere P
  | .bounded kind limit inner => P (.bounded kind limit inner) ∧ inner.Everywhere P

def EverywhereIn (P : Typed → Prop) : List Typed → Prop
  | [] => True
  | t :: rest => t.Everywhere P ∧ EverywhereIn P rest

end

private theorem everywhereIn_iff (items : List Typed) :
    EverywhereIn P items ↔ ∀ t ∈ items, t.Everywhere P := by
  induction items with
  | nil => simp [EverywhereIn]
  | cons t rest ih => rw [EverywhereIn, ih, List.forall_mem_cons]

theorem Everywhere.item {items : List Typed} (all : (tuple items).Everywhere P) {t : Typed}
    (member : t ∈ items) : t.Everywhere P :=
  (everywhereIn_iff items).1 all.2 t member

theorem Everywhere.candidate {candidates : List Typed} (all : (union candidates).Everywhere P)
    {t : Typed} (member : t ∈ candidates) : t.Everywhere P :=
  (everywhereIn_iff candidates).1 all.2 t member

/-- What holds of the schemas of leaves, of new arrays, tuples and unions, and is kept by the
changes made on the way, holds of every schema in the schema of a typed schema. -/
theorem schema_everywhere {Q : Schema → Prop} (array : ∀ element, Q (.arrayOf element))
    (tuple : ∀ items, Q (.tupleOf items)) (union : ∀ candidates, Q (.unionOf candidates))
    {t : Typed} (nodes : t.Everywhere fun
      | .leaf s _ => s.Everywhere Q
      | .option absence _ => ∀ s, Q s → Q (s.modify absence.modifier)
      | .modified change _ => ∀ s, Q s → Q (s.modify change)
      | .bounded .. => False
      | _ => True) : t.schema.Everywhere Q := by
  induction t using Typed.induction with
  | leaf s convert => exact nodes
  | option absence inner ih =>
    have inside := ih nodes.2
    exact inside.modify (nodes.1 _ inside.self)
  | array element ih => exact ⟨array _, ih nodes.2⟩
  | tuple items ih =>
    refine ⟨tuple _, ?_⟩
    rw [schemas_eq_map, Schema.everywhereIn_iff]
    exact List.forall_mem_map.2 fun t member => ih t member (nodes.item member)
  | union candidates ih =>
    refine ⟨union _, ?_⟩
    rw [schemas_eq_map, Schema.everywhereIn_iff]
    exact List.forall_mem_map.2 fun t member => ih t member (nodes.candidate member)
  | modified change inner ih =>
    have inside := ih nodes.2
    exact inside.modify (nodes.1 _ inside.self)
  | bounded kind limit inner _ => exact nodes.1.elim

theorem Everywhere.imp {R : Typed → Prop} (weaker : ∀ t, P t → R t) {t : Typed}
    (all : t.Everywhere P) : t.Everywhere R := by
  induction t using Typed.induction with
  | leaf s convert => exact weaker _ all
  | option absence inner ih => exact ⟨weaker _ all.1, ih all.2⟩
  | array element ih => exact ⟨weaker _ all.1, ih all.2⟩
  | tuple items ih =>
    exact ⟨weaker _ all.1,
      (everywhereIn_iff items).2 fun t member => ih t member (all.item member)⟩
  | union candidates ih =>
    exact ⟨weaker _ all.1,
      (everywhereIn_iff candidates).2 fun t member => ih t member (all.candidate member)⟩
  | modified change inner ih => exact ⟨weaker _ all.1, ih all.2⟩
  | bounded kind limit inner ih => exact ⟨weaker _ all.1, ih all.2⟩

mutual

/-- An output is the typed form of a value. Leaves are converted one by one, there is nothing for
the values of an absence, and the output of a union shows the candidate that converted it. -/
def Represents : Typed → Value → Output → Prop
  | .leaf _ convert, w, output => convert w = .ok output
  | .option absence inner, w, output =>
    (absence.holds w = true ∧ output = .absent) ∨
      (absence.holds w = false ∧ ∃ below, output = .present below ∧ inner.Represents w below)
  | .array element, w, output =>
    ∃ values outputs, w = .array values ∧ output = .list outputs ∧
      List.Forall₂ (fun value output => element.Represents value output) values outputs
  | .tuple parts, w, output =>
    ∃ values outputs, w = .array values ∧ output = .tuple outputs ∧
      RepresentsEach parts values outputs
  | .union candidates, w, output =>
    ∃ index below, output = .choice index below ∧ RepresentsAt candidates index w below
  | .modified _ inner, w, output => inner.Represents w output
  | .bounded _ _ inner, w, output => inner.Represents w output

def RepresentsEach : List Typed → List Value → List Output → Prop
  | [], [], [] => True
  | t :: rest, value :: values, output :: outputs =>
    t.Represents value output ∧ RepresentsEach rest values outputs
  | _, _, _ => False

def RepresentsAt : List Typed → Nat → Value → Output → Prop
  | [], _, _, _ => False
  | t :: _, 0, w, output => t.Represents w output
  | _ :: rest, index + 1, w, output => RepresentsAt rest index w output

end

theorem representsAt_iff {candidates : List Typed} {index : Nat} {w : Value} {output : Output}
    {t : Typed} (place : candidates[index]? = some t) :
    RepresentsAt candidates index w output ↔ t.Represents w output := by
  induction candidates generalizing index with
  | nil => cases place
  | cons c rest ih =>
    cases index with
    | zero =>
      obtain rfl : c = t := Option.some.inj place
      rfl
    | succ index => exact ih place

theorem representsEach_replicate {element : Typed} (values : List Value) (outputs : List Output) :
    RepresentsEach (List.replicate values.length element) values outputs ↔
      List.Forall₂ (fun value output => element.Represents value output) values outputs := by
  induction values generalizing outputs with
  | nil => cases outputs <;> simp [RepresentsEach]
  | cons value rest ih =>
    cases outputs with
    | nil => simp [RepresentsEach, List.replicate_succ]
    | cons output outputs =>
      simp only [List.length_cons, List.replicate_succ, RepresentsEach, ih, List.forall₂_cons]

end Typed

end ValueSchema
