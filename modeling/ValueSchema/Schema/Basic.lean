import ValueSchema.Options
import ValueSchema.Outcome

/-!
Schemas, with their bounds and modifiers. Facts about all schemas are proved by `Schema.induction`.
-/

set_option autoImplicit false
set_option relaxedAutoImplicit false

namespace ValueSchema

/-- A quantity that bounds apply to: it can be compared, and reported as a double. -/
class Measure (α : Type) where
  below : α → α → Bool
  toDouble : α → Double

instance : Measure Double := ⟨Double.below, id⟩

instance : Measure Nat := ⟨fun a b => a < b, Double.ofNat⟩

structure Bound (α : Type) where
  kind : ConstraintKind
  limit : α

/-- Bounds in the order in which their kinds were first set. -/
abbrev Bounds (α : Type) := List (Bound α)

/-- Whether a quantity is on the wrong side of a bound. What cannot be compared violates none. -/
def Bound.violatedBy {α : Type} [Measure α] (bound : Bound α) (actual : α) : Bool :=
  match bound.kind with
  | .min => Measure.below actual bound.limit
  | .max => Measure.below bound.limit actual
  | .length => Measure.below actual bound.limit || Measure.below bound.limit actual

namespace Bounds

variable {α : Type}

/-- Sets the limit of a kind: in its place if it has one, at the end otherwise. -/
def set : Bounds α → ConstraintKind → α → Bounds α
  | [], kind, limit => [⟨kind, limit⟩]
  | bound :: rest, kind, limit =>
    if bound.kind = kind then ⟨kind, limit⟩ :: rest else bound :: set rest kind limit

def get? (bounds : Bounds α) (kind : ConstraintKind) : Option α :=
  (bounds.find? fun bound => bound.kind == kind).map Bound.limit

def violation? [Measure α] (bounds : Bounds α) (subject : Subject) (actual : α) :
    Option Failure :=
  (bounds.find? fun bound => bound.violatedBy actual).map fun bound =>
    .here (.constraintViolation subject bound.kind (Measure.toDouble bound.limit)
      (Measure.toDouble actual))

def check [Measure α] (bounds : Bounds α) (subject : Subject) (actual : α) :
    Except Failure Unit :=
  match bounds.violation? subject actual with
  | some failure => .error failure
  | none => .ok ()

end Bounds

/-- A source of default values. Its calls are counted, and the count is shared by all uses of the
same slot: the `k`-th call, counted from zero, gives `output k`. -/
structure Producer where
  slot : Nat
  output : Nat → Value

def Producer.cycle (slot : Nat) (values : List Value) : Producer :=
  ⟨slot, fun k => values.getD (k % values.length) .undefined⟩

inductive Default where
  | value (v : Value)
  | producer (p : Producer)

structure Modifiers where
  /-- Absent values are accepted as they are. -/
  optional : Bool := false
  /-- Null is accepted as it is. -/
  nullable : Bool := false
  default? : Option Default := none

inductive Modifier where
  | optional
  | nullable
  /-- Both optional and nullable. -/
  | nullish
  /-- Not optional any more; a default still applies. -/
  | required
  | nonNullable
  | default (d : Default)

namespace Modifiers

/-- Whether the modifiers alone take care of an absent value. -/
def admitUndefined (m : Modifiers) : Bool := m.optional || m.default?.isSome

def apply (m : Modifiers) : Modifier → Modifiers
  | .optional => { m with optional := true }
  | .nullable => { m with nullable := true }
  | .nullish => { m with optional := true, nullable := true }
  | .required => { m with optional := false }
  | .nonNullable => { m with nullable := false }
  | .default d => { m with default? := some d }

end Modifiers

inductive Primitive where
  | undefined
  | null
  | boolean
  | number (bounds : Bounds Double)
  /-- The bounds count bytes. -/
  | string (bounds : Bounds Nat)

inductive Schema where
  | primitive (modifiers : Modifiers) (primitive : Primitive)
  /-- Any number of items within the bounds, all of one schema. -/
  | array (modifiers : Modifiers) (size : Bounds Nat) (element : Schema)
  /-- One item for each schema. -/
  | tuple (modifiers : Modifiers) (items : List Schema)
  /-- Declared entries, and a policy for the others. -/
  | object (modifiers : Modifiers) (unknownKeys : UnknownKeys) (fields : List (String × Schema))
  /-- The first candidate that accepts a value decides. -/
  | union (modifiers : Modifiers) (candidates : List Schema)

instance : Inhabited Schema := ⟨.primitive {} .undefined⟩

def Primitive.kind : Primitive → SchemaKind
  | .undefined => .undefined
  | .null => .null
  | .boolean => .boolean
  | .number _ => .number
  | .string _ => .string

namespace Schema

def kind : Schema → SchemaKind
  | .primitive _ p => p.kind
  | .array .. => .array
  | .tuple .. => .tuple
  | .object .. => .object
  | .union .. => .union

def modifiers : Schema → Modifiers
  | .primitive m _ | .array m _ _ | .tuple m _ | .object m _ _ | .union m _ => m

mutual

/-- Whether an absent value that no modifier settles is still looked at by the kind. -/
def handlesUndefined : Schema → Bool
  | .primitive _ .undefined => true
  | .union _ candidates => anyAdmitsUndefined candidates
  | _ => false

def anyAdmitsUndefined : List Schema → Bool
  | [] => false
  | s :: rest =>
    s.modifiers.admitUndefined || s.handlesUndefined || anyAdmitsUndefined rest

end

/-- Whether an absent value can be accepted: by the modifiers, by the kind itself, or by a
candidate. -/
def admitsUndefined (s : Schema) : Bool := s.modifiers.admitUndefined || s.handlesUndefined

/-- Facts about all schemas, from facts about the schemas below. -/
theorem induction {P : Schema → Prop} (primitive : ∀ m p, P (.primitive m p))
    (array : ∀ m size element, P element → P (.array m size element))
    (tuple : ∀ m items, (∀ s ∈ items, P s) → P (.tuple m items))
    (object : ∀ m unknownKeys fields, (∀ f ∈ fields, P f.2) → P (.object m unknownKeys fields))
    (union : ∀ m candidates, (∀ s ∈ candidates, P s) → P (.union m candidates)) :
    ∀ s, P s := by
  intro s
  refine @Schema.rec P (fun items => ∀ s ∈ items, P s)
    (fun fields => ∀ f ∈ fields, P f.2) (fun f => P f.2)
    primitive array tuple object union ?_ ?_ ?_ ?_ ?_ s
  · exact fun _ h => absurd h (List.not_mem_nil)
  · exact fun _ _ head tail _ h => (List.mem_cons.1 h).elim (fun e => e ▸ head) (tail _)
  · exact fun _ h => absurd h (List.not_mem_nil)
  · exact fun _ _ head tail _ h => (List.mem_cons.1 h).elim (fun e => e ▸ head) (tail _)
  · exact fun _ _ h => h

end Schema

end ValueSchema
