import ValueSchema.Proofs.Schema.Determined
import ValueSchema.Proofs.Typed.Simulation

/-!
The producers that a typed parse calls: those of its schema first, and those of the candidates that
are tried again, for absent values inside of what they are tried on.
-/

set_option autoImplicit false
set_option relaxedAutoImplicit false

namespace ValueSchema

section Sessions

variable {o : Options} {I : Session → Prop}

namespace Converter

private def Maintains (I : Session → Prop) (c : Converter) : Prop :=
  ∀ x y session, I session → I (c x y session).2

namespace Maintains

private theorem option {c : Converter} (inner : c.Maintains I) (absence : Absence) :
    (Converter.option absence c).Maintains I := by
  intro x y session start
  simp only [Converter.option]
  split
  · exact start
  · exact inner x y session start

private theorem inOrder {converters : List Converter} (inner : ∀ c ∈ converters, c.Maintains I)
    (position : Nat) (items : List (Value × Value)) {session : Session} (start : I session) :
    I (Converter.inOrder position converters items session).2 := by
  induction converters generalizing position items session with
  | nil => exact start
  | cons c rest ih =>
    cases items with
    | nil => exact start
    | cons item items =>
      have first := inner c List.mem_cons_self item.1 item.2 session start
      rcases converted : c item.1 item.2 session with ⟨failure | output, mid⟩
      · rw [converted] at first
        simpa only [Converter.inOrder, converted] using first
      · rw [converted] at first
        have later := ih (fun d member => inner d (List.mem_cons_of_mem c member)) (position + 1)
          items first
        rcases others : Converter.inOrder (position + 1) rest items mid with
          ⟨failure | outputs, after⟩
        · rw [others] at later
          simpa only [Converter.inOrder, converted, others] using later
        · rw [others] at later
          simpa only [Converter.inOrder, converted, others] using later

private theorem array {c : Converter} (inner : c.Maintains I) :
    (Converter.array c).Maintains I := by
  intro x y session start
  cases y with
  | array items => exact inOrder (List.forall_mem_map.2 fun _ _ => inner) 0 _ start
  | _ => exact start

private theorem tuple {converters : List Converter} (inner : ∀ c ∈ converters, c.Maintains I) :
    (Converter.tuple converters).Maintains I := by
  intro x y session start
  cases y with
  | array items => exact inOrder inner 0 _ start
  | _ => exact start

private theorem firstOf {candidates : List (Schema × Converter)}
    (parses : ∀ c ∈ candidates, ∀ input session, I session → I (c.1.parse o input session).2)
    (inner : ∀ c ∈ candidates, c.2.Maintains I) (number : Nat) (source : Value)
    {session : Session} (start : I session) :
    I (Converter.firstOf o number source candidates session).2 := by
  induction candidates generalizing number session with
  | nil => exact start
  | cons c rest ih =>
    have first := parses c List.mem_cons_self source session start
    rcases parsed : c.1.parse o source session with ⟨failure | value, mid⟩
    · rw [parsed] at first
      have later := ih (fun d member => parses d (List.mem_cons_of_mem c member))
        (fun d member => inner d (List.mem_cons_of_mem c member)) (number + 1) first
      rcases others : Converter.firstOf o (number + 1) source rest mid with
        ⟨failures | result, after⟩
      · rw [others] at later
        simpa only [Converter.firstOf, parsed, others] using later
      · rw [others] at later
        simpa only [Converter.firstOf, parsed, others] using later
    · rw [parsed] at first
      simp only [Converter.firstOf, parsed]
      exact inner c List.mem_cons_self source value mid first

private theorem union {candidates : List (Schema × Converter)}
    (parses : ∀ c ∈ candidates, ∀ input session, I session → I (c.1.parse o input session).2)
    (inner : ∀ c ∈ candidates, c.2.Maintains I) : (Converter.union o candidates).Maintains I := by
  intro x y session start
  have tried := firstOf parses inner 0 (Converter.source x y) start
  simp only [Converter.union]
  rcases found : Converter.firstOf o 0 (Converter.source x y) candidates session with
    ⟨failures | result, after⟩
  · rw [found] at tried
    exact tried
  · rw [found] at tried
    exact tried

private theorem counted {c : Converter} (inner : c.Maintains I) (kind : ConstraintKind)
    (limit : Nat) : (Converter.counted kind limit c).Maintains I := by
  intro x y session start
  have inside := inner x y session start
  simp only [Converter.counted]
  rcases converted : c x y session with ⟨failure | output, after⟩
  · rw [converted] at inside
    exact inside
  · rw [converted] at inside
    simp only
    split
    · exact inside
    · exact inside

end Maintains

end Converter

namespace Typed

private theorem converter_maintains (t : Typed) (emits : ∀ a event, I a → I (Session.emit a event))
    (produces : ∀ a d, I a → I (Session.produce a d).2) : (t.converter o).Maintains I := by
  induction t using Typed.induction with
  | leaf s convert => exact fun _ _ _ start => start
  | option absence inner ih => exact ih.option absence
  | array element ih => exact ih.array
  | tuple items ih =>
    rw [converter, converters_eq_map]
    exact .tuple (List.forall_mem_map.2 ih)
  | union candidates ih =>
    rw [converter, candidateConverters_eq_map]
    refine .union (List.forall_mem_map.2 fun t _ => ?_) (List.forall_mem_map.2 ih)
    exact fun input session start => t.schema.parse_maintains o emits produces input start
  | modified change inner ih => exact ih
  | bounded kind limit inner ih =>
    rw [converter]
    split
    · exact ih
    · exact ih.counted kind limit

private theorem calls_prefix_converter (t : Typed) (o : Options) (x y : Value) (session : Session) :
    session.calls <+: (t.converter o x y session).2.calls := by
  have maintains : (t.converter o).Maintains fun after => session.calls <+: after.calls :=
    t.converter_maintains (fun _ _ start => start)
      fun after d start => start.trans (after.calls_prefix_produce d)
  exact maintains x y session (List.prefix_refl session.calls)

end Typed

end Sessions

namespace Typed

variable {o : Options}

/-- A typed primitive, which accepts absent and empty values only as its own type, a composition, or
a change that accepts no further values as they are. -/
def BasicNode : Typed → Prop
  | .leaf (.primitive m p) convert => convert = .primitive p.kind ∧
      (m.optional = true → p = .undefined) ∧ (m.nullable = true → p = .null)
  | .leaf _ _ => False
  | .modified change _ => change.Narrows
  | .bounded .. => False
  | _ => True

/-- A typed schema of primitives, with defaults at any node. -/
def Basic (t : Typed) : Prop := t.Everywhere BasicNode

private theorem Basic.objectless {t : Typed} (basic : t.Basic) : t.schema.WithoutObjects := by
  refine schema_everywhere (fun _ => nofun) (fun _ => nofun) (fun _ => nofun) ?_
  refine Everywhere.imp (fun t node => ?_) basic
  cases t with
  | leaf s convert =>
    cases s with
    | primitive m p =>
      have other : (Schema.primitive m p).kind ≠ .object := by cases p <;> nofun
      exact other
    | _ => exact node.elim
  | option absence inner => exact fun s other => by rwa [Schema.kind_modify]
  | modified change inner => exact fun s other => by rwa [Schema.kind_modify]
  | _ => exact node

mutual

/-- What a conversion needs so that trying the candidates of typed unions again changes nothing. It
gets the input `x`, which may be lost for an absent value at it or above it, and the value `y`. If
it is lost, candidates are tried on `y`: no absent value in it stands where they have a default, and
the limit has room for them. Else they are tried on `x`: no absent value in it stands where they
have a producer, and those that make `y` of it are settled in turn. -/
def Settled (o : Options) : Typed → Bool → Value → Value → Prop
  | .leaf _ _, _, _, _ => True
  | .option absence inner, absent, x, y => absence.holds y = true ∨ inner.Settled o absent x y
  | .array element, absent, x, y =>
    ∀ p ∈ (Converter.itemInputs x (y.asArray?.getD [])).zip (y.asArray?.getD []),
      element.Settled o (absent || p.1.isUndefined) p.1 p.2
  | .tuple parts, absent, x, y =>
    SettledEach o parts absent (Converter.itemInputs x (y.asArray?.getD [])) (y.asArray?.getD [])
  | .union candidates, true, _, y =>
    ∀ t ∈ candidates, t.schema.Filled y ∧ t.schema.height ≤ o.maxDepth
  | .union candidates, false, x, y =>
    (∀ t ∈ candidates, t.schema.Determined x) ∧ SettledAll o candidates x y
  | .modified _ inner, absent, x, y => inner.Settled o absent x y
  | .bounded _ _ inner, absent, x, y => inner.Settled o absent x y

def SettledEach (o : Options) : List Typed → Bool → List Value → List Value → Prop
  | t :: rest, absent, x :: xs, y :: ys =>
    t.Settled o (absent || x.isUndefined) x y ∧ SettledEach o rest absent xs ys
  | _, _, _, _ => True

def SettledAll (o : Options) : List Typed → Value → Value → Prop
  | [], _, _ => True
  | t :: rest, x, y =>
    (t.schema.Makes o 0 x y → t.Settled o false x y) ∧ SettledAll o rest x y

end

private theorem settledEach_iff (ts : List Typed) (absent : Bool) (xs ys : List Value) :
    SettledEach o ts absent xs ys ↔
      ∀ p ∈ ts.zip (xs.zip ys), p.1.Settled o (absent || p.2.1.isUndefined) p.2.1 p.2.2 := by
  induction ts generalizing xs ys with
  | nil => simp [SettledEach]
  | cons t rest ih =>
    cases xs with
    | nil => simp [SettledEach]
    | cons x xs =>
      cases ys with
      | nil => simp [SettledEach]
      | cons y ys =>
        rw [SettledEach, ih, List.zip_cons_cons, List.zip_cons_cons, List.forall_mem_cons]

private theorem settledAll_iff (candidates : List Typed) (x y : Value) :
    SettledAll o candidates x y ↔
      ∀ t ∈ candidates, t.schema.Makes o 0 x y → t.Settled o false x y := by
  induction candidates with
  | nil => simp [SettledAll]
  | cons t rest ih => rw [SettledAll, ih, List.forall_mem_cons]

def Unionless (t : Typed) : Prop := t.Everywhere fun t => ∀ candidates, t ≠ .union candidates

private theorem Unionless.settled {t : Typed} (unionless : t.Unionless) (absent : Bool)
    (x y : Value) : t.Settled o absent x y := by
  induction t using Typed.induction generalizing absent x y with
  | leaf s convert => trivial
  | option absence inner ih => exact .inr (ih unionless.2 absent x y)
  | array element ih => exact fun p _ => ih unionless.2 _ p.1 p.2
  | tuple parts ih =>
    rw [Settled, settledEach_iff]
    intro p member
    have part : p.1 ∈ parts := (List.of_mem_zip member).1
    exact ih p.1 part (unionless.item part) _ p.2.1 p.2.2
  | union candidates _ => exact (unionless.1 candidates rfl).elim
  | modified change inner ih => exact ih unionless.2 absent x y
  | bounded kind limit inner ih => exact ih unionless.2 absent x y

private theorem eq_of_mem_zip_self {α : Type} {as : List α} {p : α × α} (member : p ∈ as.zip as) :
    p.1 = p.2 := by
  obtain ⟨i, found⟩ := List.mem_iff_getElem?.1 member
  obtain ⟨here, there⟩ := List.getElem?_zip_eq_some.1 found
  exact Option.some.inj (here.symm.trans there)

private theorem mem_zip_of_mem_zip_zip {α β γ : Type} {as : List α} {bs : List β} {cs : List γ}
    {p : α × β × γ} (member : p ∈ as.zip (bs.zip cs)) : (p.1, p.2.2) ∈ as.zip cs := by
  obtain ⟨i, found⟩ := List.mem_iff_getElem?.1 member
  obtain ⟨here, there⟩ := List.getElem?_zip_eq_some.1 found
  obtain ⟨-, value⟩ := List.getElem?_zip_eq_some.1 there
  exact List.mem_of_getElem? (List.getElem?_zip_eq_some.2 ⟨here, value⟩)

private theorem mem_zip_zip_of_mem {α β γ : Type} {as : List α} {bs : List β} {cs : List γ}
    {p : α × β × γ} (member : p ∈ as.zip (bs.zip cs)) :
    ((p.1, p.2.1), p.2.2) ∈ (as.zip bs).zip cs := by
  obtain ⟨i, found⟩ := List.mem_iff_getElem?.1 member
  obtain ⟨here, there⟩ := List.getElem?_zip_eq_some.1 found
  obtain ⟨middle, value⟩ := List.getElem?_zip_eq_some.1 there
  exact List.mem_of_getElem? (List.getElem?_zip_eq_some.2
    ⟨List.getElem?_zip_eq_some.2 ⟨here, middle⟩, value⟩)

private theorem settled_of_filled {t : Typed} (basic : t.Basic) {x y : Value}
    (filled : t.schema.Filled y) (deep : t.schema.height ≤ o.maxDepth) : t.Settled o true x y := by
  induction t using Typed.induction generalizing x y with
  | leaf s convert => trivial
  | option absence inner ih =>
    rw [schema, Schema.height_modify] at deep
    exact .inr (ih basic.2 filled.of_modify deep)
  | array element ih =>
    intro p member
    cases y with
    | array items =>
      simp only [schema, Schema.arrayOf, Schema.height] at deep
      have inside : p.2 ∈ items := (List.of_mem_zip member).2
      exact ih basic.2 (filled.element rfl inside) (by omega)
    | _ => cases (List.of_mem_zip member).2
  | tuple parts ih =>
    rw [Settled, settledEach_iff]
    intro p member
    obtain ⟨part, both⟩ := List.of_mem_zip member
    cases y with
    | array items =>
      have inside : (p.1.schema, p.2.2) ∈ (schemas parts).zip items := by
        rw [schemas_eq_map, List.zip_map_left]
        exact List.mem_map_of_mem (mem_zip_of_mem_zip_zip member)
      have least := Schema.height_le_greatestHeight (List.mem_map_of_mem (f := schema) part)
      simp only [schema, Schema.tupleOf, Schema.height, schemas_eq_map] at deep
      exact ih p.1 part (basic.item part) (filled.item rfl _ inside) (by omega)
    | _ => cases (List.of_mem_zip both).2
  | union candidates ih =>
    intro t member
    have listed : t.schema ∈ schemas candidates := by
      rw [schemas_eq_map]
      exact List.mem_map_of_mem member
    have least := Schema.height_le_greatestHeight listed
    simp only [schema, Schema.unionOf, Schema.height] at deep
    exact ⟨filled.candidate listed, by omega⟩
  | modified change inner ih =>
    rw [schema, Schema.height_modify] at deep
    exact ih basic.2 filled.of_modify deep
  | bounded kind limit inner _ => exact basic.1.elim

end Typed

namespace Typed

variable {o : Options}

private theorem itemInputs_length (x : Value) (ys : List Value) :
    (Converter.itemInputs x ys).length = ys.length := by
  unfold Converter.itemInputs
  split
  · split
    next aligned => exact aligned
    next => rfl
  · rfl

/-- How a conversion comes by its input. If that is lost, it is absent or the value itself; else a
schema with the parts of the typed schema made the value of it, and passes nothing more. -/
inductive Origin (o : Options) (t : Typed) : Bool → Value → Value → Prop
  | own {y : Value} : Origin o t true y y
  | absent {y : Value} : Origin o t true .undefined y
  | made {s : Schema} {x y : Value} {run : Run} (present : x ≠ .undefined)
      (bare : s.bare = t.schema.bare) (made : (s.enter o x run).1 = .ok y)
      (passes : s.modifiers.passes y = true → t.schema.modifiers.passes y = true) :
      Origin o t false x y

namespace Origin

variable {t inner : Typed} {absent : Bool} {x y : Value} {ys : List Value}

private theorem of_enter {run : Run} (made : (t.schema.enter o x run).1 = .ok y) :
    Origin o t x.isUndefined x y := by
  cases x with
  | undefined => exact .absent
  | _ => exact .made nofun rfl made id

private theorem option {absence : Absence} (origin : Origin o (.option absence inner) absent x y)
    (present : absence.holds y = false) : Origin o inner absent x y := by
  cases origin with
  | own => exact .own
  | absent => exact .absent
  | made here bare made passes =>
    refine .made here (bare.trans (Schema.bare_modify _ _)) made fun passed => ?_
    have outside := passes passed
    rw [schema, Schema.modifiers_modify] at outside
    exact Absence.passes_inside present outside

private theorem modified {change : Modifier} (origin : Origin o (.modified change inner) absent x y)
    (narrows : change.Narrows) : Origin o inner absent x y := by
  cases origin with
  | own => exact .own
  | absent => exact .absent
  | made here bare made passes =>
    refine .made here (bare.trans (Schema.bare_modify _ _)) made fun passed => ?_
    have outside := passes passed
    rw [schema, Schema.modifiers_modify] at outside
    exact narrows.passes_inside outside

private theorem checked (origin : Origin o t false x y) (own : t.schema.modifiers = {}) :
    ∃ s inner, s.bare = t.schema.bare ∧ (Schema.check o s x inner).1 = .ok y := by
  cases origin with
  | @made s _ _ _ here bare made passes =>
    obtain ⟨r, inner, -, same, ⟨passed, rfl⟩ | ⟨-, checked⟩⟩ := Schema.enter_ok_cases o made
    · have none := passes passed
      rw [own] at none
      cases y <;> cases none
    · rw [same here] at checked
      exact ⟨s, inner, bare, checked⟩

private theorem source_lost (origin : Origin o t true x y) : Converter.source x y = y := by
  rw [Converter.source]
  cases origin with
  | own => exact ite_self _
  | absent => rfl

private theorem source_kept (origin : Origin o t false x y) : Converter.source x y = x := by
  cases origin with
  | made present =>
    cases x with
    | undefined => exact (present rfl).elim
    | _ => rfl

private theorem items_lost (origin : Origin o t true x (.array ys)) :
    ∀ p ∈ (Converter.itemInputs x ys).zip ys, p.1 = p.2 := by
  have own : Converter.itemInputs x ys = ys := by
    cases origin with
    | own => simp only [Converter.itemInputs, if_true]
    | absent => rfl
  intro p member
  rw [own] at member
  exact eq_of_mem_zip_self member

private theorem element {element : Typed}
    (origin : Origin o (.array element) absent x (.array ys)) :
    ∀ p ∈ (Converter.itemInputs x ys).zip ys,
      Origin o element (absent || p.1.isUndefined) p.1 p.2 := by
  intro p member
  cases absent with
  | true =>
    rw [origin.items_lost p member, Bool.true_or]
    exact .own
  | false =>
    obtain ⟨s, inner, bare, checked⟩ := origin.checked rfl
    obtain ⟨m, size, rfl⟩ := exists_array_of_bare bare
    rw [Schema.check_array] at checked
    obtain ⟨items, values, rfl, made, each⟩ := Parser.array_ok (.all _) trivial checked
    obtain rfl := Value.array.inj made
    simp only [Converter.itemInputs, each.length_eq, if_true] at member
    obtain ⟨run, -, returns⟩ := (List.forall₂_iff_zip.1 each).2 member
    rw [Bool.false_or]
    exact .of_enter returns

private theorem part {parts : List Typed} (origin : Origin o (.tuple parts) absent x (.array ys)) :
    ∀ p ∈ parts.zip ((Converter.itemInputs x ys).zip ys),
      Origin o p.1 (absent || p.2.1.isUndefined) p.2.1 p.2.2 := by
  intro p member
  cases absent with
  | true =>
    rw [origin.items_lost p.2 (List.of_mem_zip member).2, Bool.true_or]
    exact .own
  | false =>
    obtain ⟨s, inner, bare, checked⟩ := origin.checked rfl
    obtain ⟨m, rfl⟩ := exists_tuple_of_bare bare
    rw [Schema.check_tuple, List.map_map] at checked
    obtain ⟨items, values, rfl, made, arity, each⟩ :=
      Parser.tuple_ok (fun _ _ => .all _) trivial checked
    obtain rfl := Value.array.inj made
    rw [List.length_map] at arity
    have aligned : items.length = ys.length := by
      rw [← each.length_eq, List.length_zip, List.length_map, arity, Nat.min_self]
    simp only [Converter.itemInputs, aligned, if_true] at member
    rw [List.zip_map_left, List.forall₂_map_left_iff] at each
    obtain ⟨run, -, returns⟩ := (List.forall₂_iff_zip.1 each).2 (mem_zip_zip_of_mem member)
    rw [Bool.false_or]
    exact .of_enter returns

end Origin

private def Converts (o : Options) (t : Typed) (x y : Value) : Prop :=
  ∀ session, ∃ output after, t.converter o x y session = (.ok output, after) ∧
    after.calls = session.calls ∧ t.Represents y output

private theorem inOrder_converts {ts : List Typed} {xs ys : List Value}
    (arity : ts.length = ys.length) (aligned : xs.length = ys.length)
    (each : ∀ p ∈ ts.zip (xs.zip ys), p.1.Converts o p.2.1 p.2.2) (position : Nat)
    (session : Session) :
    ∃ outputs after, Converter.inOrder position (ts.map (converter o)) (xs.zip ys) session =
      (.ok outputs, after) ∧ after.calls = session.calls ∧ RepresentsEach ts ys outputs := by
  induction ts generalizing xs ys position session with
  | nil =>
    obtain rfl := List.length_eq_zero_iff.1 arity.symm
    exact ⟨[], session, rfl, rfl, trivial⟩
  | cons t rest ih =>
    cases ys with
    | nil => cases arity
    | cons y ys =>
      cases xs with
      | nil => cases aligned
      | cons x xs =>
        rw [List.zip_cons_cons, List.zip_cons_cons, List.forall_mem_cons] at each
        obtain ⟨output, mid, converted, calls, represents⟩ := each.1 session
        obtain ⟨outputs, after, others, later, all⟩ :=
          ih (Nat.succ.inj arity) (Nat.succ.inj aligned) each.2 (position + 1) mid
        refine ⟨output :: outputs, after, ?_, later.trans calls, represents, all⟩
        simp only [List.map_cons, List.zip_cons_cons, Converter.inOrder, converted, others]

private theorem attempted_calls {candidates : List Schema} {source : Value}
    (determined : ∀ s ∈ candidates, s.Determined source) (session : Session) :
    (Act.attempted o (candidates.map (.trial · source)) session).calls = session.calls := by
  induction candidates generalizing session with
  | nil => rfl
  | cons s rest ih =>
    have later := ih (fun t member => determined t (List.mem_cons_of_mem s member))
      (s.parse o source session).2
    have first := (determined s List.mem_cons_self).calls_of_parse (o := o) session
    exact later.trans first

private theorem union_converts {candidates : List Typed} {x y : Value}
    (determined : ∀ t ∈ candidates, t.schema.Determined (Converter.source x y)) {index : Nat}
    (found : Schema.firstAccepting o 0 (Converter.source x y) (candidates.map schema) =
      some (index, y))
    {t : Typed} (place : candidates[index]? = some t)
    (inner : t.Converts o (Converter.source x y) y) : (union candidates).Converts o x y := by
  intro session
  have tried : ∀ s ∈
      (candidates.map schema).take (index + 1), s.Determined (Converter.source x y) := by
    intro s member
    obtain ⟨t, inside, rfl⟩ := List.mem_map.1 (List.mem_of_mem_take member)
    exact determined t inside
  obtain ⟨output, after, converted, calls, represents⟩ := inner (Act.attempted o
    (((candidates.map schema).take (index + 1)).map (.trial · (Converter.source x y))) session)
  have chosen := firstOf_tries (fun t member => (determined t member).steady) found place 0 session
    converted
  refine ⟨.choice index output, after, ?_, ?_, index, output, rfl,
    (representsAt_iff place).2 represents⟩
  · simp only [converter, Converter.union, candidateConverters_eq_map, chosen, Nat.zero_add]
    rfl
  · rw [calls, attempted_calls tried]

private theorem firstAccepting_filled {candidates : List Typed} {y : Value}
    (basic : ∀ t ∈ candidates, t.Basic) (conforms : (union candidates).schema.Conforms o y)
    (filled : ∀ t ∈ candidates, t.schema.Filled y)
    (deep : ∀ t ∈ candidates, t.schema.height ≤ o.maxDepth) :
    ∃ index, Schema.firstAccepting o 0 y (candidates.map schema) = some (index, y) := by
  rcases found : Schema.firstAccepting o 0 y (candidates.map schema) with _ | ⟨index, w⟩
  · -- the candidate that the value conforms to takes it back
    cases conforms with
    | passes passes => cases y <;> cases passes
    | union listed inside =>
      rw [schemas_eq_map] at listed
      have refuses := Schema.not_accepted_of_firstAccepting_eq_none found _ listed
      obtain ⟨t, member, rfl⟩ := List.mem_map.1 listed
      have room : 0 + t.schema.height ≤ o.maxDepth := by
        rw [Nat.zero_add]
        exact deep t member
      have takes := inside.takesBack (basic t member).objectless (filled t member) 0 room
      obtain ⟨w, accepted, -⟩ := takes ⟨{}, 0⟩ rfl
      exact (refuses w accepted).elim
  · obtain ⟨t, place, made⟩ := candidate_of_firstAccepting found
    have member := List.mem_of_getElem? place
    have same := (filled t member).eq_of_enter (basic t member).objectless made
    exact ⟨index, by rw [same]⟩

private theorem union_finds {candidates : List Typed} {absent : Bool} {x y : Value}
    (basic : ∀ t ∈ candidates, t.Basic) (conforms : (union candidates).schema.Conforms o y)
    (origin : Origin o (.union candidates) absent x y)
    (settled : (union candidates).Settled o absent x y) :
    (∀ t ∈ candidates, t.schema.Determined (Converter.source x y)) ∧
    ∃ index t, candidates[index]? = some t ∧
      Schema.firstAccepting o 0 (Converter.source x y) (candidates.map schema) = some (index, y) ∧
      Origin o t absent (Converter.source x y) y ∧
        t.Settled o absent (Converter.source x y) y := by
  cases absent with
  | true =>
    rw [origin.source_lost]
    have filled : ∀ t ∈ candidates, t.schema.Filled y := fun t member => (settled t member).1
    have deep : ∀ t ∈ candidates, t.schema.height ≤ o.maxDepth :=
      fun t member => (settled t member).2
    have determined : ∀ t ∈ candidates, t.schema.Determined y :=
      fun t member => (filled t member).determined
    obtain ⟨index, found⟩ := firstAccepting_filled basic conforms filled deep
    obtain ⟨t, place, -⟩ := candidate_of_firstAccepting found
    have member := List.mem_of_getElem? place
    have below := settled_of_filled (x := y) (basic t member) (filled t member) (deep t member)
    exact ⟨determined, index, t, place, found, .own, below⟩
  | false =>
    rw [origin.source_kept]
    obtain ⟨determined, settled⟩ := settled
    obtain ⟨s, inner, bare, checked⟩ := origin.checked rfl
    obtain ⟨m, rfl⟩ := exists_union_of_bare bare
    have steady : ∀ s ∈ candidates.map schema, s.Steady o x :=
      List.forall_mem_map.2 fun t member => (determined t member).steady
    obtain ⟨index, first⟩ := Schema.firstAccepting_of_union_ok steady checked
    have found := first 0 (Nat.zero_le _)
    obtain ⟨t, place, made⟩ := candidate_of_firstAccepting found
    have member := List.mem_of_getElem? place
    have below := (settledAll_iff candidates x y).1 settled t member made
    cases origin with
    | made present => exact ⟨determined, index, t, place, found, .made present rfl made id, below⟩

private theorem primitive_converts {m : Modifiers} {p : Primitive} {y : Value}
    (conforms : (Schema.primitive m p).Conforms o y) (optional : m.optional = true → p = .undefined)
    (nullable : m.nullable = true → p = .null) :
    ∃ output, Conversion.primitive p.kind y = .ok output := by
  cases conforms with
  | passes passes =>
    cases y with
    | undefined =>
      rw [optional passes]
      exact ⟨.unit, rfl⟩
    | null =>
      rw [nullable passes]
      exact ⟨.unit, rfl⟩
    | _ => cases passes
  | primitive accepts =>
    cases p <;> cases y <;> first | exact accepts.elim | exact ⟨_, rfl⟩

private theorem Basic.converts {t : Typed} (basic : t.Basic) {absent : Bool} {x y : Value}
    (conforms : t.schema.Conforms o y) (origin : Origin o t absent x y)
    (settled : t.Settled o absent x y) : t.Converts o x y := by
  induction t using Typed.induction generalizing absent x y with
  | leaf s convert =>
    intro session
    cases s with
    | primitive m p =>
      obtain ⟨rfl, optional, nullable⟩ := basic
      obtain ⟨output, converted⟩ := primitive_converts conforms optional nullable
      exact ⟨output, session, by simp only [converter, converted], rfl, converted⟩
    | _ => exact basic.elim
  | option absence inner ih =>
    intro session
    cases holds : absence.holds y with
    | true =>
      refine ⟨.absent, session, ?_, rfl, .inl ⟨holds, rfl⟩⟩
      simp only [converter, Converter.option, holds, if_true]
    | false =>
      have inside : inner.Settled o absent x y := settled.resolve_left (by simp [holds])
      have below := conforms.of_modify fun passes => Absence.passes_inside holds passes
      obtain ⟨output, after, converted, calls, represents⟩ :=
        ih basic.2 below (origin.option holds) inside session
      refine ⟨.present output, after, ?_, calls, .inr ⟨holds, output, rfl, represents⟩⟩
      simp [converter, Converter.option, holds, converted, Except.map]
  | array element ih =>
    intro session
    cases conforms with
    | passes passes => cases y <;> cases passes
    | @array _ _ _ items _ each =>
      have inner : ∀ p ∈ (List.replicate items.length element).zip
          ((Converter.itemInputs x items).zip items), p.1.Converts o p.2.1 p.2.2 := by
        intro p member
        obtain ⟨part, both⟩ := List.of_mem_zip member
        rw [List.eq_of_mem_replicate part]
        have conforms := each p.2.2 (List.of_mem_zip both).2
        exact ih basic.2 conforms (origin.element p.2 both) (settled p.2 both)
      have every : items.map (fun _ => element.converter o) =
          (List.replicate items.length element).map (converter o) := by
        rw [List.map_const', List.map_replicate]
      obtain ⟨outputs, after, converted, calls, represents⟩ :=
        inOrder_converts List.length_replicate (itemInputs_length x items) inner 0 session
      rw [representsEach_replicate] at represents
      refine ⟨.list outputs, after, ?_, calls, items, outputs, rfl, rfl, represents⟩
      simp only [converter, Converter.array, every, converted]
      rfl
  | tuple parts ih =>
    intro session
    cases conforms with
    | passes passes => cases y <;> cases passes
    | @tuple _ _ items arity each =>
      rw [schemas_eq_map] at arity each
      rw [List.length_map] at arity
      rw [List.zip_map_left, List.forall_mem_map] at each
      have inner : ∀ p ∈ parts.zip ((Converter.itemInputs x items).zip items),
          p.1.Converts o p.2.1 p.2.2 := by
        intro p member
        have part : p.1 ∈ parts := (List.of_mem_zip member).1
        have conforms := each (p.1, p.2.2) (mem_zip_of_mem_zip_zip member)
        exact ih p.1 part (basic.item part) conforms (origin.part p member)
          ((settledEach_iff _ _ _ _).1 settled p member)
      obtain ⟨outputs, after, converted, calls, represents⟩ :=
        inOrder_converts arity.symm (itemInputs_length x items) inner 0 session
      refine ⟨.tuple outputs, after, ?_, calls, items, outputs, rfl, rfl, represents⟩
      simp only [converter, converters_eq_map, Converter.tuple, converted]
      rfl
  | union candidates ih =>
    obtain ⟨determined, index, t, place, found, origin, settled⟩ :=
      union_finds (fun t member => basic.candidate member) conforms origin settled
    have member := List.mem_of_getElem? place
    have inside : t.Basic := basic.candidate member
    obtain ⟨c, again, made⟩ := candidate_of_firstAccepting found
    obtain rfl := Option.some.inj (again.symm.trans place)
    have conforms := c.schema.enter_conforms inside.objectless.wellFormed made
    exact union_converts determined found place (ih c member inside conforms origin settled)
  | modified change inner ih =>
    have below := conforms.of_modify fun passes => basic.1.passes_inside passes
    exact ih basic.2 below (origin.modified basic.1) settled
  | bounded kind limit inner _ => exact basic.1.elim

private theorem Basic.parse_settled {t : Typed} (basic : t.Basic) {input w : Value}
    {session between : Session} (parsed : t.schema.parse o input session = (.ok w, between))
    (settled : t.Settled o input.isUndefined input w) :
    ∃ output after, t.parse o input session = (.ok output, after) ∧
      after.calls = between.calls ∧ t.Represents w output := by
  have accepted : (t.schema.parse o input session).1 = .ok w := by rw [parsed]
  rw [Schema.parse_result] at accepted
  have conforms := t.schema.enter_conforms basic.objectless.wellFormed accepted
  obtain ⟨output, after, converted, calls, represents⟩ :=
    basic.converts conforms (.of_enter accepted) settled between
  exact ⟨output, after, by simp only [parse, parsed, converted], calls, represents⟩

/-- Without typed unions, a typed parse calls what its schema calls, whatever is absent. -/
theorem Basic.parse_unionless {t : Typed} (basic : t.Basic) (unionless : t.Unionless)
    {input w : Value} {session between : Session}
    (parsed : t.schema.parse o input session = (.ok w, between)) :
    ∃ output after, t.parse o input session = (.ok output, after) ∧
      after.calls = between.calls ∧ t.Represents w output :=
  basic.parse_settled parsed (unionless.settled input.isUndefined input w)

/-- A typed parse fails as its schema does. Otherwise it calls what the schema calls, and what it
calls after that are further calls of producers below typed unions: if the conversion is settled,
there are none, and the output represents the value that the schema made. -/
theorem parse_calls (t : Typed) (basic : t.Basic) (o : Options) (input : Value)
    (session : Session) :
    (∀ failure after, t.schema.parse o input session = (.error failure, after) →
      t.parse o input session = (.error failure, after)) ∧
    (t.schema.parse o input session).2.calls <+: (t.parse o input session).2.calls ∧
    ∀ w between, t.schema.parse o input session = (.ok w, between) →
      t.Settled o input.isUndefined input w →
      ∃ output after, t.parse o input session = (.ok output, after) ∧
        after.calls = between.calls ∧ t.Represents w output := by
  refine ⟨fun failure after refused => by simp only [parse, refused], ?_, ?_⟩
  · rcases parsed : t.schema.parse o input session with ⟨failure | w, between⟩
    · simp only [parse, parsed]
      exact List.prefix_refl _
    · simp only [parse, parsed]
      exact t.calls_prefix_converter o input w between
  · intro w between parsed settled
    exact basic.parse_settled parsed settled

/-- Producers beside and above unions are called once, and a fixed default below a union is no
matter. -/
theorem produced_once :
    let answer : Typed := .ofPrimitive (Schema.boolean.modify (.default (.value (.bool true))))
    let t : Typed := .tuple [
      .ofPrimitive (Schema.boolean.modify (.default (.producer (.cycle 0 [.bool false])))),
      .union [.tuple [answer], .ofPrimitive .string],
      .modified (.default (.producer (.cycle 1 [.string "on"])))
        (.union [.ofPrimitive .boolean, .ofPrimitive .string])]
    let input : Value := .array [.undefined, .array [.undefined], .undefined]
    let w : Value := .array [.bool false, .array [.bool true], .string "on"]
    ∃ output after, t.parse {} input {} = (.ok output, after) ∧ after.calls = [0, 1] ∧
      t.Represents w output := by
  intro answer t input w
  have leaf : ∀ p : Primitive, BasicNode (.ofPrimitive (.primitive {} p)) :=
    fun p => ⟨rfl, nofun, nofun⟩
  have basic : t.Basic :=
    ⟨trivial, ⟨rfl, nofun, nofun⟩,
      ⟨trivial, ⟨trivial, ⟨rfl, nofun, nofun⟩, trivial⟩, leaf (.string []), trivial⟩,
      ⟨trivial, trivial, leaf .boolean, leaf (.string []), trivial⟩, trivial⟩
  have settled : t.Settled {} false input w := by
    refine ⟨trivial, ⟨?_, fun _ => ⟨trivial, trivial⟩, fun _ => trivial, trivial⟩, ?_, trivial⟩
    · exact List.forall_mem_cons.2
        ⟨⟨nofun, fun _ => nofun, trivial⟩, List.forall_mem_singleton.2 nofun⟩
    · exact List.forall_mem_cons.2
        ⟨⟨nofun, by decide⟩, List.forall_mem_singleton.2 ⟨nofun, by decide⟩⟩
  exact (parse_calls t basic {} input {}).2.2 w _ rfl settled

/-- An absent value below a union meets a producer. It is called for the value that is validated,
and again for the output, which gets another value. -/
theorem producer_called_again :
    let t : Typed := .union [
      .tuple [.ofPrimitive (Schema.boolean.modify
        (.default (.producer (.cycle 0 [.bool true, .bool false]))))],
      .ofPrimitive .string]
    let input : Value := .array [.undefined]
    t.Basic ∧ (t.schema.parse {} input {}).1 = .ok (.array [.bool true]) ∧
      (t.schema.parse {} input {}).2.calls = [0] ∧ (t.parse {} input {}).2.calls = [0, 0] ∧
      (t.parse {} input {}).1 = .ok (.choice 0 (.tuple [.bool false])) ∧
      ¬ t.Represents (.array [.bool true]) (.choice 0 (.tuple [.bool false])) := by
  intro t input
  refine ⟨⟨trivial, ⟨trivial, ⟨rfl, nofun, nofun⟩, trivial⟩, ⟨rfl, nofun, nofun⟩, trivial⟩,
    rfl, rfl, rfl, rfl, ?_⟩
  rintro ⟨index, below, same, represents⟩
  cases same
  obtain ⟨values, outputs, made, shown, each⟩ := represents
  cases made
  cases shown
  cases each.1

end Typed

end ValueSchema
