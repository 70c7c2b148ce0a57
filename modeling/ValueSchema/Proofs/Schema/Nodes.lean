import ValueSchema.Schema.Builders

set_option autoImplicit false
set_option relaxedAutoImplicit false

namespace ValueSchema

namespace Schema

variable {P : Schema → Prop}

mutual

def Everywhere (P : Schema → Prop) : Schema → Prop
  | .primitive m p => P (.primitive m p)
  | .array m size element => P (.array m size element) ∧ element.Everywhere P
  | .tuple m items => P (.tuple m items) ∧ EverywhereIn P items
  | .object m unknownKeys fields => P (.object m unknownKeys fields) ∧ EverywhereInFields P fields
  | .union m candidates => P (.union m candidates) ∧ EverywhereIn P candidates

def EverywhereIn (P : Schema → Prop) : List Schema → Prop
  | [] => True
  | s :: rest => s.Everywhere P ∧ EverywhereIn P rest

def EverywhereInFields (P : Schema → Prop) : List (String × Schema) → Prop
  | [] => True
  | (_, s) :: rest => s.Everywhere P ∧ EverywhereInFields P rest

end

theorem everywhereIn_iff (items : List Schema) :
    EverywhereIn P items ↔ ∀ s ∈ items, s.Everywhere P := by
  induction items with
  | nil => simp [EverywhereIn]
  | cons s rest ih => rw [EverywhereIn, ih, List.forall_mem_cons]

theorem everywhereInFields_iff (fields : List (String × Schema)) :
    EverywhereInFields P fields ↔ ∀ f ∈ fields, f.2.Everywhere P := by
  induction fields with
  | nil => simp [EverywhereInFields]
  | cons f rest ih => rw [EverywhereInFields, ih, List.forall_mem_cons]

theorem Everywhere.self {s : Schema} (all : s.Everywhere P) : P s := by
  cases s with
  | primitive m p => exact all
  | _ => exact all.1

theorem Everywhere.element {m : Modifiers} {size : Bounds Nat} {element : Schema}
    (all : (array m size element).Everywhere P) : element.Everywhere P := all.2

theorem Everywhere.item {m : Modifiers} {items : List Schema}
    (all : (tuple m items).Everywhere P) {s : Schema} (member : s ∈ items) : s.Everywhere P :=
  (everywhereIn_iff items).1 all.2 s member

theorem Everywhere.field {m : Modifiers} {unknownKeys : UnknownKeys}
    {fields : List (String × Schema)} (all : (object m unknownKeys fields).Everywhere P)
    {f : String × Schema} (member : f ∈ fields) : f.2.Everywhere P :=
  (everywhereInFields_iff fields).1 all.2 f member

theorem Everywhere.candidate {m : Modifiers} {candidates : List Schema}
    (all : (union m candidates).Everywhere P) {s : Schema} (member : s ∈ candidates) :
    s.Everywhere P :=
  (everywhereIn_iff candidates).1 all.2 s member

theorem Everywhere.of_forall (all : ∀ t, P t) (s : Schema) : s.Everywhere P := by
  induction s using Schema.induction with
  | primitive m p => exact all _
  | array m size element ih => exact ⟨all _, ih⟩
  | tuple m items ih => exact ⟨all _, (everywhereIn_iff items).2 ih⟩
  | object m unknownKeys fields ih => exact ⟨all _, (everywhereInFields_iff fields).2 ih⟩
  | union m candidates ih => exact ⟨all _, (everywhereIn_iff candidates).2 ih⟩

theorem Everywhere.imp {Q : Schema → Prop} (weaker : ∀ t, P t → Q t) {s : Schema}
    (all : s.Everywhere P) : s.Everywhere Q := by
  induction s using Schema.induction with
  | primitive m p => exact weaker _ all
  | array m size element ih => exact ⟨weaker _ all.1, ih all.element⟩
  | tuple m items ih =>
    exact ⟨weaker _ all.1, (everywhereIn_iff items).2 fun s member => ih s member (all.item member)⟩
  | object m unknownKeys fields ih =>
    exact ⟨weaker _ all.1,
      (everywhereInFields_iff fields).2 fun f member => ih f member (all.field member)⟩
  | union m candidates ih =>
    exact ⟨weaker _ all.1,
      (everywhereIn_iff candidates).2 fun s member => ih s member (all.candidate member)⟩

theorem Everywhere.and {Q : Schema → Prop} {s : Schema} (all : s.Everywhere P)
    (all' : s.Everywhere Q) : s.Everywhere fun t => P t ∧ Q t := by
  induction s using Schema.induction with
  | primitive m p => exact ⟨all, all'⟩
  | array m size element ih => exact ⟨⟨all.1, all'.1⟩, ih all.element all'.element⟩
  | tuple m items ih =>
    exact ⟨⟨all.1, all'.1⟩, (everywhereIn_iff items).2 fun s member =>
      ih s member (all.item member) (all'.item member)⟩
  | object m unknownKeys fields ih =>
    exact ⟨⟨all.1, all'.1⟩, (everywhereInFields_iff fields).2 fun f member =>
      ih f member (all.field member) (all'.field member)⟩
  | union m candidates ih =>
    exact ⟨⟨all.1, all'.1⟩, (everywhereIn_iff candidates).2 fun s member =>
      ih s member (all.candidate member) (all'.candidate member)⟩

mutual

def decidableEverywhere [DecidablePred P] : (s : Schema) → Decidable (s.Everywhere P)
  | .primitive m p => inferInstanceAs (Decidable (P (.primitive m p)))
  | .array m size element =>
    have := decidableEverywhere element
    inferInstanceAs (Decidable (P (.array m size element) ∧ element.Everywhere P))
  | .tuple m items =>
    have := decidableEverywhereIn items
    inferInstanceAs (Decidable (P (.tuple m items) ∧ EverywhereIn P items))
  | .object m unknownKeys fields =>
    have := decidableEverywhereInFields fields
    inferInstanceAs (Decidable (P (.object m unknownKeys fields) ∧ EverywhereInFields P fields))
  | .union m candidates =>
    have := decidableEverywhereIn candidates
    inferInstanceAs (Decidable (P (.union m candidates) ∧ EverywhereIn P candidates))

def decidableEverywhereIn [DecidablePred P] : (items : List Schema) → Decidable
    (EverywhereIn P items)
  | [] => inferInstanceAs (Decidable True)
  | s :: rest =>
    have := decidableEverywhere s
    have := decidableEverywhereIn rest
    inferInstanceAs (Decidable (s.Everywhere P ∧ EverywhereIn P rest))

def decidableEverywhereInFields [DecidablePred P] :
    (fields : List (String × Schema)) → Decidable (EverywhereInFields P fields)
  | [] => inferInstanceAs (Decidable True)
  | (_, s) :: rest =>
    have := decidableEverywhere s
    have := decidableEverywhereInFields rest
    inferInstanceAs (Decidable (s.Everywhere P ∧ EverywhereInFields P rest))

end

instance [DecidablePred P] (s : Schema) : Decidable (s.Everywhere P) := decidableEverywhere s

def WithoutDefaults (s : Schema) : Prop := s.Everywhere fun t => t.modifiers.default? = none

instance (s : Schema) : Decidable s.WithoutDefaults :=
  inferInstanceAs (Decidable (s.Everywhere fun t => t.modifiers.default? = none))

/-- No schema in a schema has a default that a producer makes; fixed defaults may stand anywhere. -/
def WithoutProducers (s : Schema) : Prop :=
  s.Everywhere fun t => ∀ p, t.modifiers.default? ≠ some (.producer p)

def DistinctFields : Schema → Prop
  | .object _ _ fields => (Entries.names fields).Nodup
  | _ => True

instance : DecidablePred DistinctFields
  | .object _ _ fields => inferInstanceAs (Decidable (Entries.names fields).Nodup)
  | .primitive .. => isTrue trivial
  | .array .. => isTrue trivial
  | .tuple .. => isTrue trivial
  | .union .. => isTrue trivial

/-- No object schema in a schema declares a field twice. Fields are put one by one, so schemas that
are built from well-formed ones are well-formed. -/
def WellFormed (s : Schema) : Prop := s.Everywhere DistinctFields

instance (s : Schema) : Decidable s.WellFormed :=
  inferInstanceAs (Decidable (s.Everywhere DistinctFields))

private theorem WellFormed.putAll {m m' : Modifiers} {unknownKeys unknownKeys' : UnknownKeys}
    {fields extra : List (String × Schema)} (wf : (object m unknownKeys fields).WellFormed)
    (below : ∀ f ∈ extra, f.2.WellFormed) :
    (object m' unknownKeys' (Entries.putAll fields extra)).WellFormed := by
  refine ⟨Entries.names_putAll_nodup wf.self extra, (everywhereInFields_iff _).2 fun f member => ?_⟩
  rcases Entries.mem_putAll member with inside | added
  · exact wf.field inside
  · exact below f added

theorem wellFormed_objectOf {fields : List (String × Schema)}
    (below : ∀ f ∈ fields, f.2.WellFormed) : (objectOf fields).WellFormed :=
  have none : (object {} .passthrough []).WellFormed := ⟨List.nodup_nil, trivial⟩
  none.putAll below

theorem WellFormed.of_field? {s field t : Schema} {name : String} (wf : s.WellFormed)
    (below : field.WellFormed) (built : s.field? name field = some t) : t.WellFormed := by
  cases s with
  | object m unknownKeys fields =>
    obtain rfl := Option.some.inj built
    have one : ∀ f ∈ [(name, field)], f.2.WellFormed := by simpa using below
    exact wf.putAll one
  | _ => cases built

theorem WellFormed.of_merge? {s t u : Schema} (wf : s.WellFormed) (wf' : t.WellFormed)
    (merged : s.merge? t = some u) : u.WellFormed := by
  cases s with
  | object m unknownKeys fields =>
    cases t with
    | object m' unknownKeys' others =>
      obtain rfl := Option.some.inj merged
      exact wf.putAll fun f member => wf'.field member
    | _ => cases merged
  | union m candidates =>
    cases t with
    | union m' others =>
      obtain rfl := Option.some.inj merged
      refine ⟨trivial, (everywhereIn_iff _).2 fun s member => ?_⟩
      exact (List.mem_append.1 member).elim (fun here => wf.candidate here)
        fun there => wf'.candidate there
    | _ => cases merged
  | _ => cases merged

/-- The policy of an object schema for undeclared entries, which the settings may override. -/
def policy? (o : Options) : Schema → Option UnknownKeys
  | .object _ unknownKeys _ => some (o.unknownKeys?.getD unknownKeys)
  | _ => none

def WithoutPolicy (o : Options) (policy : UnknownKeys) (s : Schema) : Prop :=
  s.Everywhere fun t => t.policy? o ≠ some policy

instance (o : Options) (policy : UnknownKeys) (s : Schema) : Decidable (s.WithoutPolicy o policy) :=
  inferInstanceAs (Decidable (s.Everywhere fun t => t.policy? o ≠ some policy))

def WithoutUnions (s : Schema) : Prop := s.Everywhere fun t => t.kind ≠ .union

instance (s : Schema) : Decidable s.WithoutUnions :=
  inferInstanceAs (Decidable (s.Everywhere fun t => t.kind ≠ .union))

def WithoutObjects (s : Schema) : Prop := s.Everywhere fun t => t.kind ≠ .object

instance (s : Schema) : Decidable s.WithoutObjects :=
  inferInstanceAs (Decidable (s.Everywhere fun t => t.kind ≠ .object))

theorem WithoutObjects.wellFormed {s : Schema} (objectless : s.WithoutObjects) : s.WellFormed := by
  refine objectless.imp fun t other => ?_
  cases t with
  | object m unknownKeys fields => exact (other rfl).elim
  | _ => trivial

mutual

/-- How many schemas stand inside each other at most. -/
def height : Schema → Nat
  | .primitive _ _ => 1
  | .array _ _ element => 1 + element.height
  | .tuple _ items => 1 + greatestHeight items
  | .object _ _ fields => 1 + greatestFieldHeight fields
  | .union _ candidates => 1 + greatestHeight candidates

def greatestHeight : List Schema → Nat
  | [] => 0
  | s :: rest => max s.height (greatestHeight rest)

def greatestFieldHeight : List (String × Schema) → Nat
  | [] => 0
  | (_, s) :: rest => max s.height (greatestFieldHeight rest)

end

theorem height_pos (s : Schema) : 0 < s.height := by
  cases s <;> simp only [height] <;> omega

theorem height_le_greatestHeight {items : List Schema} {s : Schema} (member : s ∈ items) :
    s.height ≤ greatestHeight items := by
  induction items with
  | nil => cases member
  | cons t rest ih =>
    rw [greatestHeight]
    rcases List.mem_cons.1 member with rfl | member
    · exact Nat.le_max_left _ _
    · exact Nat.le_trans (ih member) (Nat.le_max_right _ _)

theorem height_le_greatestFieldHeight {fields : List (String × Schema)} {f : String × Schema}
    (member : f ∈ fields) : f.2.height ≤ greatestFieldHeight fields := by
  induction fields with
  | nil => cases member
  | cons g rest ih =>
    rw [greatestFieldHeight]
    rcases List.mem_cons.1 member with rfl | member
    · exact Nat.le_max_left _ _
    · exact Nat.le_trans (ih member) (Nat.le_max_right _ _)

@[simp] theorem modifiers_modify (s : Schema) (change : Modifier) :
    (s.modify change).modifiers = s.modifiers.apply change := by
  cases s <;> rfl

@[simp] theorem kind_modify (s : Schema) (change : Modifier) : (s.modify change).kind = s.kind := by
  cases s <;> rfl

@[simp] theorem height_modify (s : Schema) (change : Modifier) :
    (s.modify change).height = s.height := by
  cases s <;> rfl

end Schema

end ValueSchema
