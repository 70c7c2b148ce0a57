import ValueSchema.Proofs.Acceptance
import ValueSchema.Proofs.Parser.Loops
import ValueSchema.Proofs.Reparsing

/-!
Values for which a schema calls no producer, as no absent value stands where it has one. On one
value a schema is built from parsers that are held to the values of its parts, so what all
combinators keep is known of it once it is known of these.
-/

set_option autoImplicit false
set_option relaxedAutoImplicit false

namespace ValueSchema

section Sessions

variable {I : Session → Prop}

theorem Session.calls_prefix_produce (session : Session) (d : Default) :
    session.calls <+: (session.produce d).2.calls := by
  cases d with
  | value v => exact List.prefix_refl _
  | producer p => exact List.prefix_append session.calls [p.slot]

namespace Parser

private def Maintains (I : Session → Prop) (p : Parser) : Prop := p.Keeps fun run => I run.toSession

namespace Maintains

variable {p : Parser}

private theorem guarded (inner : p.Maintains I) (emits : ∀ a event, I a → I (Session.emit a event))
    (limit : Nat) : (Parser.guarded limit p).Maintains I := by
  intro input run start
  by_cases room : run.depth < limit
  · simp only [Parser.guarded, room, if_true]
    exact inner input { run with depth := run.depth + 1 } start
  · simp only [Parser.guarded, room, if_false]
    exact emits run.toSession _ start

private theorem settled (inner : p.Maintains I) (m : Modifiers) (handles : Bool) :
    (Parser.settled m handles p).Maintains I := by
  intro input run start
  rcases settled_cases m handles p input run with ⟨eq, -⟩ | ⟨eq, -⟩ | ⟨eq, -⟩
  · rw [eq]
    exact start
  · rw [eq]
    exact start
  · rw [eq]
    exact inner input run start

private theorem resolved (inner : p.Maintains I) (produces : ∀ a d, I a → I (Session.produce a d).2)
    (m : Modifiers) (handles : Bool) : (Parser.resolved m handles p).Maintains I := by
  intro input run start
  simp only [Parser.resolved]
  split
  next d _ => exact inner.settled m handles _ _ (produces run.toSession d start)
  next => exact inner.settled m handles _ _ start

private theorem inOrder {items : List (Parser × Value)} (inner : ∀ x ∈ items, x.1.Maintains I)
    (position : Nat) {run : Run} (start : I run.toSession) :
    I (Parser.inOrder position items run).2.toSession := by
  induction items generalizing position run with
  | nil => exact start
  | cons x rest ih =>
    have first := inner x List.mem_cons_self x.2 run start
    rcases returned : x.1 x.2 run with ⟨failure | value, mid⟩
    · rw [returned] at first
      simpa only [Parser.inOrder, returned] using first
    · rw [returned] at first
      have later :=
        ih (fun y member => inner y (List.mem_cons_of_mem x member)) (position + 1) first
      rcases others : Parser.inOrder (position + 1) rest mid with ⟨failure | values, after⟩
      · rw [others] at later
        simpa only [Parser.inOrder, returned, others] using later
      · rw [others] at later
        simpa only [Parser.inOrder, returned, others] using later

private theorem asArray {step : Step (List Value)} (start : I step.2.toSession) :
    I (Parser.asArray step).2.toSession := by
  obtain ⟨result, after⟩ := step
  cases result <;> exact start

private theorem array (inner : p.Maintains I) (size : Bounds Nat) :
    (Parser.array size p).Maintains I := by
  intro input run start
  cases input with
  | array items =>
    simp only [Parser.array]
    cases size.violation? .arrayLength items.length with
    | some failure => exact start
    | none => exact asArray (inOrder (List.forall_mem_map.2 fun _ _ => inner) 0 start)
  | _ => exact start

private theorem tuple {parsers : List Parser} (inner : ∀ q ∈ parsers, q.Maintains I) :
    (Parser.tuple parsers).Maintains I := by
  intro input run start
  cases input with
  | array items =>
    simp only [Parser.tuple]
    split
    · exact asArray (inOrder (fun x member => inner x.1 (List.of_mem_zip member).1) 0 start)
    · exact start
  | _ => exact start

private theorem fieldsInOrder {fields : List (String × Parser)}
    (inner : ∀ f ∈ fields, f.2.Maintains I)
    (entries : Entries Value) {run : Run} (start : I run.toSession) :
    I (Parser.fieldsInOrder entries fields run).2.toSession := by
  induction fields generalizing run with
  | nil => exact start
  | cons field rest ih =>
    have first := inner field List.mem_cons_self (fieldValue entries field.1) run start
    rcases returned : field.2 (fieldValue entries field.1) run with ⟨failure | value, mid⟩
    · rw [returned] at first
      simpa only [fieldsInOrder_cons, returned] using first
    · rw [returned] at first
      have later := ih (fun f member => inner f (List.mem_cons_of_mem field member)) first
      rcases others : Parser.fieldsInOrder entries rest mid with ⟨failure | values, after⟩
      · rw [others] at later
        simpa only [fieldsInOrder_cons, returned, others] using later
      · rw [others] at later
        simp only [fieldsInOrder_cons, returned, others]
        split
        · exact later
        · exact later

private theorem object {fields : List (String × Parser)} (inner : ∀ f ∈ fields, f.2.Maintains I)
    (policy : UnknownKeys) : (Parser.object policy fields).Maintains I := by
  intro input run start
  cases input with
  | object entries =>
    have step := fieldsInOrder inner entries start
    simp only [Parser.object]
    rcases returned : Parser.fieldsInOrder entries fields run with ⟨failure | values, after⟩
    · rw [returned] at step
      exact step
    · rw [returned] at step
      exact step
  | _ => exact start

private theorem firstOf {candidates : List (SchemaKind × Parser)}
    (inner : ∀ c ∈ candidates, c.2.Maintains I) (emits : ∀ a event, I a → I (Session.emit a event))
    (index : Nat) (input : Value) {run : Run} (start : I run.toSession) :
    I (Parser.firstOf index candidates input run).2.toSession := by
  induction candidates generalizing index run with
  | nil => exact start
  | cons candidate rest ih =>
    have first := inner candidate List.mem_cons_self input run start
    rcases returned : candidate.2 input run with ⟨failure | value, mid⟩
    · rw [returned] at first
      have told := emits mid.toSession (.candidateRejected index candidate.1 failure.code) first
      simp only [Parser.firstOf, returned]
      split
      · exact told
      · exact ih (fun c member => inner c (List.mem_cons_of_mem candidate member)) (index + 1) told
    · rw [returned] at first
      simpa only [Parser.firstOf, returned] using first

private theorem union {candidates : List (SchemaKind × Parser)}
    (inner : ∀ c ∈ candidates, c.2.Maintains I)
    (emits : ∀ a event, I a → I (Session.emit a event)) (detail : UnionFailures) :
    (Parser.union detail candidates).Maintains I := by
  intro input run start
  rw [union_eq]
  exact firstOf inner emits 0 input start

end Maintains

end Parser

namespace Schema

private theorem enter_maintains (o : Options) (s : Schema)
    (emits : ∀ a event, I a → I (Session.emit a event))
    (produces : ∀ a d, I a → I (Session.produce a d).2) : (s.enter o).Maintains I := by
  refine enter_induction o (fun p input run start => start) (fun size _ inner => inner.array size)
    (fun _ inner => .tuple inner) (fun policy _ inner => .object inner policy)
    (fun _ inner => .union inner emits o.unionFailures) (fun m handles _ inner => ?_) s
  exact (inner.resolved produces m handles).guarded emits o.maxDepth

theorem parse_maintains (o : Options) (s : Schema)
    (emits : ∀ a event, I a → I (Session.emit a event))
    (produces : ∀ a d, I a → I (Session.produce a d).2) (input : Value) {session : Session}
    (start : I session) : I (s.parse o input session).2 := by
  have entered := s.enter_maintains o emits produces input ⟨session, 0⟩ start
  simp only [parse]
  rcases returned : s.enter o input ⟨session, 0⟩ with ⟨failure | value, run⟩
  · rw [returned] at entered
    exact emits run.toSession _ entered
  · rw [returned] at entered
    exact entered

end Schema

end Sessions

namespace Parser

private def always (p : Parser) (v : Value) : Parser := fun _ => p v

private theorem settled_always (m : Modifiers) (handles : Bool) (check : Parser) (v : Value) :
    settled m handles (check.always v) v = settled m handles check v := by
  cases v <;> rfl

private theorem tuple_always {parsers : List Parser} {items : List Value}
    (arity : items.length = parsers.length) :
    tuple ((parsers.zip items).map fun x => x.1.always x.2) (.array items) =
      tuple parsers (.array items) := by
  have same : List.Forall₂ (fun a b : Parser × Value => a.1 a.2 = b.1 b.2)
      (((parsers.zip items).map fun x => x.1.always x.2).zip items) (parsers.zip items) := by
    induction parsers generalizing items with
    | nil => exact .nil
    | cons p rest ih =>
      cases items with
      | nil => exact .nil
      | cons item items => exact .cons rfl (ih (Nat.succ.inj arity))
  funext run
  simp only [tuple, List.length_map, List.length_zip, arity, Nat.min_self, if_true,
    inOrder_congr same]

private theorem array_always {size : Bounds Nat} {items : List Value}
    (within : size.violation? .arrayLength items.length = none) (element : Parser) :
    tuple (items.map element.always) (.array items) = array size element (.array items) := by
  have same : ∀ items : List Value, List.Forall₂ (fun a b : Parser × Value => a.1 a.2 = b.1 b.2)
      ((items.map element.always).zip items) (items.map fun item => (element, item)) := by
    intro items
    induction items with
    | nil => exact .nil
    | cons item rest ih => exact .cons rfl ih
  funext run
  simp only [array, within, tuple, List.length_map, if_true, inOrder_congr (same items)]

private theorem fieldsInOrder_always (entries : Entries Value) (fields : List (String × Parser)) :
    fieldsInOrder entries (fields.map fun f => (f.1, f.2.always (fieldValue entries f.1))) =
      fieldsInOrder entries fields := by
  induction fields with
  | nil => rfl
  | cons f rest ih =>
    funext run
    rw [List.map_cons, fieldsInOrder_cons, fieldsInOrder_cons, ih]
    rfl

private theorem object_always (policy : UnknownKeys) (fields : List (String × Parser))
    (entries : Entries Value) :
    object policy (fields.map fun f => (f.1, f.2.always (fieldValue entries f.1)))
      (.object entries) = object policy fields (.object entries) := by
  have declared : ∀ name, Entries.has
      (fields.map fun f => (f.1, f.2.always (fieldValue entries f.1))) name =
        Entries.has fields name := by
    intro name
    rw [Bool.eq_iff_iff, Entries.has_iff, Entries.has_iff, Entries.names_map]
  funext run
  simp only [object, fieldsInOrder_always, Entries.without, declared]

private theorem union_always (detail : UnionFailures) (candidates : List (SchemaKind × Parser))
    (v : Value) :
    union detail (candidates.map fun c => (c.1, c.2.always v)) v = union detail candidates v := by
  have same : ∀ index, firstOf index (candidates.map fun c => (c.1, c.2.always v)) v =
      firstOf index candidates v := by
    induction candidates with
    | nil => exact fun _ => rfl
    | cons c rest ih =>
      intro index
      funext run
      simp only [List.map_cons, firstOf, ih]
      rfl
  funext run
  simp only [union, same]

end Parser

namespace Schema

variable {P : Modifiers → Prop}

mutual

/-- A property of the modifiers of all schemas at which an absent value stands, if a value is gone
through with fixed defaults in place of absent values. -/
def WhereAbsent (P : Modifiers → Prop) : Schema → Value → Prop
  | .primitive m _, v => v = .undefined → P m
  | .array m _ element, v => (v = .undefined → P m) ∧
      ∀ item ∈ (m.reached v).asArray?.getD [], element.WhereAbsent P item
  | .tuple m schemas, v => (v = .undefined → P m) ∧
      WhereAbsentEach P schemas ((m.reached v).asArray?.getD [])
  | .object m _ fields, v => (v = .undefined → P m) ∧
      WhereAbsentFields P fields ((m.reached v).asObject?.getD [])
  | .union m candidates, v => (v = .undefined → P m) ∧ WhereAbsentAll P candidates (m.reached v)

def WhereAbsentEach (P : Modifiers → Prop) : List Schema → List Value → Prop
  | s :: rest, item :: items => s.WhereAbsent P item ∧ WhereAbsentEach P rest items
  | _, _ => True

def WhereAbsentFields (P : Modifiers → Prop) : List (String × Schema) → Entries Value → Prop
  | [], _ => True
  | (name, s) :: rest, entries =>
    s.WhereAbsent P (Parser.fieldValue entries name) ∧ WhereAbsentFields P rest entries

def WhereAbsentAll (P : Modifiers → Prop) : List Schema → Value → Prop
  | [], _ => True
  | s :: rest, v => s.WhereAbsent P v ∧ WhereAbsentAll P rest v

end

private theorem whereAbsentEach_iff (schemas : List Schema) (items : List Value) :
    WhereAbsentEach P schemas items ↔ ∀ x ∈ schemas.zip items, x.1.WhereAbsent P x.2 := by
  induction schemas generalizing items with
  | nil => simp [WhereAbsentEach]
  | cons s rest ih =>
    cases items with
    | nil => simp [WhereAbsentEach]
    | cons item items => rw [WhereAbsentEach, ih, List.zip_cons_cons, List.forall_mem_cons]

private theorem whereAbsentFields_iff (fields : List (String × Schema)) (entries : Entries Value) :
    WhereAbsentFields P fields entries ↔
      ∀ f ∈ fields, f.2.WhereAbsent P (Parser.fieldValue entries f.1) := by
  induction fields with
  | nil => simp [WhereAbsentFields]
  | cons f rest ih => rw [WhereAbsentFields, ih, List.forall_mem_cons]

private theorem whereAbsentAll_iff (candidates : List Schema) (v : Value) :
    WhereAbsentAll P candidates v ↔ ∀ s ∈ candidates, s.WhereAbsent P v := by
  induction candidates with
  | nil => simp [WhereAbsentAll]
  | cons s rest ih => rw [WhereAbsentAll, ih, List.forall_mem_cons]

namespace WhereAbsent

variable {m : Modifiers} {s : Schema} {v : Value}

private theorem self (all : s.WhereAbsent P v) : v = .undefined → P s.modifiers := by
  cases s with
  | primitive m p => exact all
  | _ => exact all.1

theorem element {size : Bounds Nat} {element : Schema}
    (all : (array m size element).WhereAbsent P v)
    {items : List Value} (reaches : m.reached v = .array items) {item : Value}
    (member : item ∈ items) : element.WhereAbsent P item :=
  all.2 item (by rwa [reaches])

theorem item {schemas : List Schema} (all : (tuple m schemas).WhereAbsent P v)
    {items : List Value} (reaches : m.reached v = .array items) :
    ∀ x ∈ schemas.zip items, x.1.WhereAbsent P x.2 := by
  have each := all.2
  rw [reaches] at each
  exact (whereAbsentEach_iff schemas items).1 each

private theorem field {unknownKeys : UnknownKeys} {fields : List (String × Schema)}
    (all : (object m unknownKeys fields).WhereAbsent P v) {entries : Entries Value}
    (reaches : m.reached v = .object entries) :
    ∀ f ∈ fields, f.2.WhereAbsent P (Parser.fieldValue entries f.1) := by
  have each := all.2
  rw [reaches] at each
  exact (whereAbsentFields_iff fields entries).1 each

private theorem candidate {candidates : List Schema} (all : (union m candidates).WhereAbsent P v)
    {s : Schema} (member : s ∈ candidates) : s.WhereAbsent P (m.reached v) :=
  (whereAbsentAll_iff candidates _).1 all.2 s member

private theorem imp {Q : Modifiers → Prop} (weaker : ∀ m, P m → Q m) (all : s.WhereAbsent P v) :
    s.WhereAbsent Q v := by
  induction s using Schema.induction generalizing v with
  | primitive m p => exact fun absent => weaker m (all absent)
  | array m size element ih =>
    exact ⟨fun absent => weaker m (all.1 absent), fun item member => ih (all.2 item member)⟩
  | tuple m schemas ih =>
    refine ⟨fun absent => weaker m (all.1 absent), (whereAbsentEach_iff _ _).2 fun x member => ?_⟩
    exact ih x.1 (List.of_mem_zip member).1 ((whereAbsentEach_iff _ _).1 all.2 x member)
  | object m unknownKeys fields ih =>
    refine ⟨fun absent => weaker m (all.1 absent), (whereAbsentFields_iff _ _).2 fun f member => ?_⟩
    exact ih f member ((whereAbsentFields_iff _ _).1 all.2 f member)
  | union m candidates ih =>
    refine ⟨fun absent => weaker m (all.1 absent), (whereAbsentAll_iff _ _).2 fun s member => ?_⟩
    exact ih s member (all.candidate member)

end WhereAbsent

/-- No absent value stands where a schema has a producer. -/
def Determined (s : Schema) (v : Value) : Prop :=
  s.WhereAbsent (fun m => ∀ p, m.default? ≠ some (.producer p)) v

variable {o : Options} {s : Schema} {v : Value}

private theorem Determined.induction {Q : Parser → Prop}
    (constant : ∀ result : Except Failure Value, Q fun _ run => (result, run))
    (tuple : ∀ parsers, (∀ p ∈ parsers, Q p) → Q (.tuple parsers))
    (object : ∀ policy fields, (∀ f ∈ fields, Q f.2) → Q (.object policy fields))
    (union : ∀ candidates, (∀ c ∈ candidates, Q c.2) → Q (.union o.unionFailures candidates))
    (settled : ∀ m handles check, Q check → Q (.settled m handles check))
    (guarded : ∀ check, Q check → Q (.guarded o.maxDepth check))
    (always : ∀ p v, Q p → Q (p.always v)) (determined : s.Determined v) :
    Q ((s.enter o).always v) := by
  have held : ∀ {p q : Parser} {v : Value}, p v = q v → Q q → Q (p.always v) := by
    intro p q v same inner
    have eq : p.always v = q.always v := funext fun _ => same
    rw [eq]
    exact always q v inner
  have refuses : ∀ {p : Parser} {v : Value} (failure : Failure),
      p v = (fun run => (.error failure, run)) → Q (p.always v) :=
    fun failure same => held same (constant (.error failure))
  have entering : ∀ {s : Schema} {v : Value}, s.Determined v →
      Q ((s.check o).always (s.modifiers.reached v)) → Q ((s.enter o).always v) := by
    intro s v determined check
    refine held ?_ (guarded _ (always _ (s.modifiers.reached v)
      (settled s.modifiers s.handlesUndefined _ check)))
    funext run
    simp only [Parser.always, enter_eq, Parser.guarded, Parser.resolved_eq_reached determined.self]
    rw [← Parser.settled_always _ _ (s.check o)]
  induction s using Schema.induction generalizing v with
  | primitive m p => exact entering determined (constant (p.check _))
  | array m size element ih =>
    refine entering determined ?_
    rw [check_array]
    cases reaches : (array m size element).modifiers.reached v with
    | array items =>
      cases within : size.violation? .arrayLength items.length with
      | some failure =>
        refine refuses failure ?_
        funext run
        simp only [Parser.array, within]
      | none =>
        refine held (Parser.array_always within _).symm (tuple _ ?_)
        rw [List.forall_mem_map]
        exact fun item member => ih (determined.element reaches member)
    | _ => exact refuses _ rfl
  | tuple m schemas ih =>
    refine entering determined ?_
    rw [check_tuple]
    cases reaches : (Schema.tuple m schemas).modifiers.reached v with
    | array items =>
      by_cases arity : items.length = (schemas.map (enter o)).length
      · refine held (Parser.tuple_always arity).symm (tuple _ ?_)
        rw [List.zip_map_left, List.map_map, List.forall_mem_map]
        intro x member
        exact ih x.1 (List.of_mem_zip member).1 (determined.item reaches x member)
      · refine refuses (.here (.tupleLengthMismatch (schemas.map (enter o)).length items.length)) ?_
        funext run
        simp only [Parser.tuple, arity, if_false]
    | _ => exact refuses _ rfl
  | object m unknownKeys fields ih =>
    refine entering determined ?_
    rw [check_object]
    cases reaches : (Schema.object m unknownKeys fields).modifiers.reached v with
    | object entries =>
      refine held (Parser.object_always _ _ entries).symm (object _ _ ?_)
      rw [List.map_map, List.forall_mem_map]
      exact fun f member => ih f member (determined.field reaches f member)
    | _ => exact refuses _ rfl
  | union m candidates ih =>
    refine entering determined ?_
    rw [check_union]
    refine held (Parser.union_always _ _ _).symm (union _ ?_)
    rw [List.map_map, List.forall_mem_map]
    exact fun s member => ih s member (determined.candidate member)

namespace Determined

private theorem calls (determined : s.Determined v) (run : Run) :
    (s.enter o v run).2.calls = run.calls := by
  have maintains := determined.induction (o := o)
    (Q := fun p => p.Maintains fun session => session.calls = run.calls)
    (fun _ _ _ start => start) (fun _ inner => .tuple inner)
    (fun policy _ inner => .object inner policy)
    (fun _ inner => .union inner (fun _ _ start => start) o.unionFailures)
    (fun m handles _ inner => inner.settled m handles)
    (fun _ inner => inner.guarded (fun _ _ start => start) o.maxDepth)
    (fun _ v inner => fun _ run start => inner v run start)
  exact maintains v run rfl

theorem steady (determined : s.Determined v) : s.Steady o v := by
  have refines := determined.induction (o := o)
    (Q := fun p => p.Refines (fun _ _ => True) o.maxDepth o.maxDepth p)
    (fun _ _ _ _ related _ => .inr (.refl_result related _))
    (fun _ inner => .tuple (List.forall₂_same.2 inner))
    (fun policy _ inner =>
      .object (List.forall₂_same.2 fun f member => ⟨rfl, inner f member⟩) policy)
    (fun _ inner => .union (fun _ _ _ _ => trivial)
      (List.forall₂_same.2 fun c member => ⟨rfl, inner c member⟩) o.unionFailures)
    (fun m handles _ inner => inner.settled m handles) (fun _ inner => inner.guarded)
    (fun _ v inner => fun _ => inner v)
  intro run other shallower untripped
  rcases refines v run other trivial (by omega) with trips | same
  · rw [Parser.always, untripped] at trips
    cases trips
  · exact same.result.symm

theorem calls_of_parse (determined : s.Determined v) (session : Session) :
    (s.parse o v session).2.calls = session.calls := by
  rw [parse_calls_eq]
  exact determined.calls ⟨session, 0⟩

end Determined

end Schema

namespace Schema

variable {o : Options}

/-- No absent value stands where a schema has a default. -/
def Filled (s : Schema) (v : Value) : Prop := s.WhereAbsent (fun m => m.default? = none) v

namespace Filled

variable {s : Schema} {v w : Value} {run : Run}

theorem determined (filled : s.Filled v) : s.Determined v := by
  refine filled.imp fun m none p standing => ?_
  rw [none] at standing
  cases standing

private theorem reached_eq (filled : s.Filled v) : s.modifiers.reached v = v := by
  by_cases absent : v = .undefined
  · exact Modifiers.reached_of_none (filled.self absent) v
  · exact s.modifiers.reached_of_present absent

theorem candidate {m : Modifiers} {candidates : List Schema}
    (filled : (union m candidates).Filled v)
    {s : Schema} (member : s ∈ candidates) : s.Filled v := by
  have reaches : m.reached v = v := filled.reached_eq
  have inside := WhereAbsent.candidate filled member
  rwa [reaches] at inside

private theorem eq_of_check (filled : s.Filled v)
    (check : ∀ inner, (s.check o v inner).1 = .ok w → w = v)
    (accepted : (s.enter o v run).1 = .ok w) : w = v := by
  rcases enter_ok_reached filled.determined.self accepted with ⟨-, rfl⟩ | ⟨-, inner, -, checked⟩
  · exact filled.reached_eq
  · rw [filled.reached_eq] at checked
    exact check inner checked

theorem eq_of_enter (filled : s.Filled v) (objectless : s.WithoutObjects)
    (accepted : (s.enter o v run).1 = .ok w) : w = v := by
  induction s using Schema.induction generalizing v w run with
  | primitive m p =>
    refine filled.eq_of_check (fun inner checked => ?_) accepted
    exact Primitive.eq_of_check_ok checked
  | array m size element ih =>
    refine filled.eq_of_check (fun inner checked => ?_) accepted
    rw [check_array] at checked
    obtain ⟨items, values, rfl, rfl, each⟩ := Parser.array_ok (.all _) trivial checked
    have same : values = items.map id := by
      refine Parser.eq_map_of_forall₂ each fun item member value ⟨run, _, returns⟩ => ?_
      exact ih (filled.element rfl member) objectless.element returns
    rw [same, List.map_id]
  | tuple m schemas ih =>
    refine filled.eq_of_check (fun inner checked => ?_) accepted
    rw [check_tuple] at checked
    obtain ⟨items, values, rfl, rfl, arity, each⟩ :=
      Parser.tuple_ok (fun _ _ => .all _) trivial checked
    rw [List.length_map] at arity
    rw [List.zip_map_left, List.forall₂_map_left_iff] at each
    have same : values = (schemas.zip items).map Prod.snd := by
      refine Parser.eq_map_of_forall₂ each fun x member value ⟨run, _, returns⟩ => ?_
      have part : x.1 ∈ schemas := (List.of_mem_zip member).1
      exact ih x.1 part (filled.item rfl x member) (objectless.item part) returns
    rw [same, List.map_snd_zip (Nat.le_of_eq arity)]
  | object m unknownKeys fields _ => exact (objectless.self rfl).elim
  | union m candidates ih =>
    refine filled.eq_of_check (fun inner checked => ?_) accepted
    rw [check_union] at checked
    obtain ⟨c, listed, run, -, returns⟩ :=
      Parser.union_ok (fun _ _ => .all _) (fun _ _ _ => trivial) trivial checked
    obtain ⟨s, member, rfl⟩ := List.mem_map.1 listed
    exact ih s member (filled.candidate member) (objectless.candidate member) returns

theorem of_modify {change : Modifier} (filled : (s.modify change).Filled v) :
    s.Filled v := by
  have own : v = .undefined → s.modifiers.default? = none := by
    intro absent
    have none := filled.self absent
    rw [modifiers_modify] at none
    cases change with
    | default d => cases none
    | _ => exact none
  have reaches : s.modifiers.reached v = (s.modify change).modifiers.reached v := by
    rw [filled.reached_eq]
    by_cases absent : v = .undefined
    · exact Modifiers.reached_of_none (own absent) v
    · exact s.modifiers.reached_of_present absent
  cases s with
  | primitive m p => exact own
  | array m size element => exact ⟨own, reaches ▸ filled.2⟩
  | tuple m items => exact ⟨own, reaches ▸ filled.2⟩
  | object m unknownKeys fields => exact ⟨own, reaches ▸ filled.2⟩
  | union m candidates => exact ⟨own, reaches ▸ filled.2⟩

end Filled

private theorem Conforms.handlesUndefined {s : Schema} (conforms : s.Conforms o .undefined)
    (closed : s.modifiers.passes .undefined = false) : s.handlesUndefined = true := by
  induction s using Schema.induction with
  | primitive m p =>
    cases conforms with
    | passes passes => cases closed.symm.trans passes
    | primitive accepts => cases p <;> first | rfl | exact accepts.elim
  | union m candidates ih =>
    cases conforms with
    | passes passes => cases closed.symm.trans passes
    | @union _ _ s _ member inside =>
      refine (anyAdmitsUndefined_iff candidates).2 ⟨s, member, ?_⟩
      rw [admitsUndefined, Modifiers.admitUndefined]
      cases passes : s.modifiers.passes .undefined with
      | false => simp [ih s member inside passes]
      | true => simp [show s.modifiers.optional = true from passes]
  | _ =>
    cases conforms with
    | passes passes => cases closed.symm.trans passes

private theorem Conforms.takesBack_of_check {s : Schema} {v : Value} (conforms : s.Conforms o v)
    (filled : s.Filled v) {depth : Nat} (room : depth < o.maxDepth)
    (check : s.modifiers.passes v = false → (s.check o).TakesBack (depth + 1) False v) :
    (s.enter o).TakesBack depth False v := by
  refine Schema.takesBack_of_check filled.self (fun absent closed => ?_) room check
  subst absent
  exact conforms.handlesUndefined closed

/-- A schema with enough depth takes back a filled value that conforms to it. -/
theorem Conforms.takesBack {s : Schema} {v : Value} (conforms : s.Conforms o v)
    (objectless : s.WithoutObjects) (filled : s.Filled v) (depth : Nat)
    (room : depth + s.height ≤ o.maxDepth) : (s.enter o).TakesBack depth False v := by
  have lawful : ∀ t : Schema, (t.enter o).Lawful := fun t => t.enter_lawful o
  induction s using Schema.induction generalizing v depth with
  | primitive m p =>
    have here : depth + 1 ≤ o.maxDepth := by simp only [height] at room; omega
    refine conforms.takesBack_of_check filled here fun closed => ?_
    cases conforms with
    | passes passes => cases closed.symm.trans passes
    | primitive accepts =>
      intro run _
      obtain ⟨w, checked⟩ := (p.check_ok_iff v).2 accepts
      exact ⟨w, checked, False.elim⟩
  | array m size element ih =>
    have here : depth + 1 ≤ o.maxDepth := by simp only [height] at room; omega
    refine conforms.takesBack_of_check filled here fun closed => ?_
    cases conforms with
    | passes passes => cases closed.symm.trans passes
    | array within each =>
      have inside := (size.violation?_eq_none_iff_holds .arrayLength _).2 within
      refine Parser.TakesBack.array (lawful element) inside fun item member => ?_
      exact ih (each item member) objectless.element (filled.element rfl member) (depth + 1)
        (by simp only [height] at room; omega)
  | tuple m schemas ih =>
    have here : depth + 1 ≤ o.maxDepth := by simp only [height] at room; omega
    refine conforms.takesBack_of_check filled here fun closed => ?_
    cases conforms with
    | passes passes => cases closed.symm.trans passes
    | @tuple _ _ items arity each =>
      rw [check_tuple]
      refine Parser.TakesBack.tuple (List.forall_mem_map.2 fun s _ => lawful s) (by simpa) ?_
      rw [List.zip_map_left, List.forall_mem_map]
      intro x member
      have part : x.1 ∈ schemas := (List.of_mem_zip member).1
      have least := height_le_greatestHeight part
      exact ih x.1 part (each x member) (objectless.item part) (filled.item rfl x member)
        (depth + 1) (by simp only [height] at room; omega)
  | object m unknownKeys fields _ => exact (objectless.self rfl).elim
  | union m candidates ih =>
    have deep : ∀ s ∈ candidates, depth + 1 + s.height ≤ o.maxDepth := by
      intro s member
      have least := height_le_greatestHeight member
      simp only [height] at room
      omega
    have here : depth + 1 ≤ o.maxDepth := by simp only [height] at room; omega
    refine conforms.takesBack_of_check filled here fun closed => ?_
    cases conforms with
    | passes passes => cases closed.symm.trans passes
    | @union _ _ s _ member inside =>
      have takes := ih s member inside (objectless.candidate member) (filled.candidate member)
        (depth + 1) (deep s member)
      rw [check_union]
      exact .union (List.forall_mem_map.2 fun s _ => lawful s)
        (List.forall_mem_map.2 fun s member => s.enter_quiet o (depth + 1) (deep s member))
        (List.mem_map_of_mem member) takes _

end Schema

end ValueSchema
