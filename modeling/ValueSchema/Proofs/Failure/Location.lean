import ValueSchema.Proofs.Parser.Lawful
import ValueSchema.Proofs.Schema.Nodes

set_option autoImplicit false
set_option relaxedAutoImplicit false

namespace ValueSchema

/-- The part of a value that a step leads to. An entry that an object does not have is undefined;
an array has no other items than its own. -/
def Value.step? : Value → Segment → Option Value
  | .object entries, .key name => some (Parser.fieldValue entries name)
  | .array items, .index position => items[position]?
  | _, _ => none

def Value.follow? (v : Value) : Path → Option Value
  | [] => some v
  | segment :: path => (v.step? segment).bind fun w => w.follow? path

/-- The schemas that stand in a schema for the values at a path. Candidates stand where their union
stands. -/
inductive Schema.At : Schema → Path → Schema → Prop
  | here (s : Schema) : At s [] s
  | element {m : Modifiers} {size : Bounds Nat} {element t : Schema} {path : Path} (position : Nat)
      (below : At element path t) : At (.array m size element) (.index position :: path) t
  | item {m : Modifiers} {schemas : List Schema} {s t : Schema} {path : Path} {position : Nat}
      (place : schemas[position]? = some s) (below : At s path t) :
      At (.tuple m schemas) (.index position :: path) t
  | field {m : Modifiers} {unknownKeys : UnknownKeys} {fields : List (String × Schema)}
      {f : String × Schema} {t : Schema} {path : Path} (member : f ∈ fields)
      (below : At f.2 path t) : At (.object m unknownKeys fields) (.key f.1 :: path) t
  | candidate {m : Modifiers} {candidates : List Schema} {s t : Schema} {path : Path}
      (member : s ∈ candidates) (below : At s path t) : At (.union m candidates) path t

/-- A value is on the wrong side of a bound that a schema declares; the cause has the bound and the
measure of the value. -/
inductive Schema.Violates : Schema → Value → Cause → Prop
  | primitive {m : Modifiers} {p : Primitive} {v : Value} {cause : Cause}
      (violates : p.Violates v cause) : Violates (.primitive m p) v cause
  | array {m : Modifiers} {size : Bounds Nat} {element : Schema} {items : List Value}
      {b : Bound Nat} (member : b ∈ size) (violated : b.violatedBy items.length = true) :
      Violates (.array m size element) (.array items)
        (.constraintViolation .arrayLength b.kind (.ofNat b.limit) (.ofNat items.length))

variable (o : Options)

/-- What a cause says is true of a value and of a schema that stands for it at a path. -/
def Cause.Describes (s : Schema) (path : Path) (u : Value) : Cause → Prop
  | .typeMismatch expected received =>
    received = u.kind ∧ received ≠ .undefined ∧ expected.fits received = false ∧
      ∃ t, s.At path t ∧ t.kind = expected
  | .constraintViolation subject constraint limit actual =>
    ∃ t, s.At path t ∧ t.Violates u (.constraintViolation subject constraint limit actual)
  | .missing => u = .undefined ∧ ∃ t, s.At path t ∧ t.admitsUndefined = false
  | .tupleLengthMismatch expected received =>
    ∃ m schemas items, s.At path (.tuple m schemas) ∧ u = .array items ∧
      expected = schemas.length ∧ received = items.length ∧ received ≠ expected
  | .recursionLimitExceeded limit => limit = o.maxDepth
  | .unrecognizedKeys keys =>
    ∃ m unknownKeys fields entries, s.At path (.object m unknownKeys fields) ∧
      o.unknownKeys?.getD unknownKeys = .strict ∧ u = .object entries ∧ keys ≠ [] ∧
      keys = (Entries.names entries).filter fun name => decide (name ∉ Entries.names fields)
  | .conversion _ => False

/-- What a failure says is true of a value. An exhausted union stands at its path, and reports
failures of all its candidates or of the first one, none of them outside of that path. -/
def Failure.Describes (s : Schema) (u : Value) : Failure → Prop
  | .plain path cause => cause.Describes o s path u
  | .exhausted path failures =>
    (∃ m candidates, s.At path (.union m candidates) ∧
      failures.length = (match o.unionFailures with
        | .all => candidates.length
        | .first => min 1 candidates.length)) ∧
    ∀ f ∈ failures, path <+: f.path

private def Failure.Located (s : Schema) (v : Value) (failure : Failure) : Prop :=
  ∀ f ∈ failure.nodes, ∃ u, v.follow? f.path = some u ∧ f.Describes o s u

variable {o : Options} {s t : Schema} {u v w : Value}

private theorem Cause.Describes.outward {cause : Cause} {path path' : Path}
    (below : ∀ inner, s.At path inner → t.At path' inner)
    (describes : cause.Describes o s path u) : cause.Describes o t path' u := by
  cases cause with
  | typeMismatch expected received =>
    obtain ⟨same, present, other, inner, place, kind⟩ := describes
    exact ⟨same, present, other, inner, below inner place, kind⟩
  | constraintViolation subject constraint limit actual =>
    obtain ⟨inner, place, violates⟩ := describes
    exact ⟨inner, below inner place, violates⟩
  | missing =>
    obtain ⟨absent, inner, place, closed⟩ := describes
    exact ⟨absent, inner, below inner place, closed⟩
  | tupleLengthMismatch expected received =>
    obtain ⟨m, schemas, items, place, facts⟩ := describes
    exact ⟨m, schemas, items, below _ place, facts⟩
  | recursionLimitExceeded limit => exact describes
  | unrecognizedKeys keys =>
    obtain ⟨m, unknownKeys, fields, entries, place, facts⟩ := describes
    exact ⟨m, unknownKeys, fields, entries, below _ place, facts⟩
  | conversion message => exact describes

namespace Failure

private theorem located_plain {cause : Cause} (describes : cause.Describes o s [] v) :
    (Failure.here cause).Located o s v := by
  intro f member
  obtain rfl : f = .plain [] cause := by simpa [here, nodes] using member
  exact ⟨v, rfl, describes⟩

private theorem Located.prefixed {failure : Failure} {segment : Segment}
    (located : failure.Located o s w) (step : v.step? segment = some w)
    (below : ∀ path inner, s.At path inner → t.At (segment :: path) inner) :
    (failure.prefixed segment).Located o t v := by
  intro f member
  rw [nodes_prefixed, List.mem_map] at member
  obtain ⟨g, inside, rfl⟩ := member
  obtain ⟨u, leads, describes⟩ := located g inside
  refine ⟨u, ?_, ?_⟩
  · rw [path_prefixed, Value.follow?, step]
    exact leads
  · cases g with
    | plain path cause => exact Cause.Describes.outward (below path) describes
    | exhausted path failures =>
      obtain ⟨⟨m, candidates, place, count⟩, inner⟩ := describes
      simp only [Failure.prefixed, prefixedAll_eq]
      refine ⟨⟨m, candidates, below path _ place, ?_⟩, ?_⟩
      · rw [List.length_map]
        exact count
      · intro f listed
        obtain ⟨h, below, rfl⟩ := List.mem_map.1 listed
        rw [path_prefixed, List.prefix_cons_inj]
        exact inner h below

private theorem Located.candidate {failure : Failure} {m : Modifiers} {candidates : List Schema}
    (located : failure.Located o s v) (member : s ∈ candidates) :
    failure.Located o (.union m candidates) v := by
  intro f inside
  obtain ⟨u, leads, describes⟩ := located f inside
  refine ⟨u, leads, ?_⟩
  cases f with
  | plain path cause =>
    exact Cause.Describes.outward (fun _ place => .candidate member place) describes
  | exhausted path failures =>
    obtain ⟨⟨m', others, place, count⟩, inner⟩ := describes
    exact ⟨⟨m', others, .candidate member place, count⟩, inner⟩

private theorem located_exhausted {m : Modifiers} {candidates : List Schema}
    {failures : List Failure} (all : failures.length = candidates.length)
    (each : ∀ f ∈ Parser.reported o.unionFailures failures, f.Located o (.union m candidates) v) :
    (exhausted [] (Parser.reported o.unionFailures failures)).Located o
      (.union m candidates) v := by
  intro f member
  rcases mem_nodes_exhausted.1 member with rfl | ⟨c, reported, inside⟩
  · refine ⟨v, rfl, ⟨m, candidates, .here _, ?_⟩, fun _ _ => List.nil_prefix⟩
    cases o.unionFailures with
    | all => exact all
    | first => rw [← all]; exact List.length_take
  · exact each c reported f inside

end Failure

namespace Schema

private theorem describes_mismatch (s : Schema) (input : Value)
    (other : s.kind.fits input.kind = false) (present : input ≠ .undefined) :
    (Cause.typeMismatch s.kind input.kind).Describes o s [] input := by
  refine ⟨rfl, ?_, other, s, .here s, rfl⟩
  intro absent
  cases input with
  | undefined => exact present rfl
  | _ => cases absent

private theorem enter_located_of_check {s : Schema} (plain : s.modifiers.default? = none)
    (check : ∀ input run failure, (input = .undefined → s.handlesUndefined = true) →
      (s.check o input run).1 = .error failure → failure.Located o s input)
    {input : Value} {run : Run} {failure : Failure}
    (refused : (s.enter o input run).1 = .error failure) : failure.Located o s input := by
  rcases enter_error o plain refused with rfl | ⟨rfl, closed, rfl⟩ | ⟨handles, -, inner, refused⟩
  · exact Failure.located_plain rfl
  · exact Failure.located_plain ⟨rfl, s, .here s, closed⟩
  · exact check input inner failure handles refused

private theorem enter_located (s : Schema) (plain : s.WithoutDefaults) {input : Value} {run : Run}
    {failure : Failure} (refused : (s.enter o input run).1 = .error failure) :
    failure.Located o s input := by
  induction s using Schema.induction generalizing input run failure with
  | primitive m p =>
    refine enter_located_of_check plain.self (fun input run failure handles refused => ?_) refused
    have checked : p.check input = .error failure := refused
    rcases p.check_cases input with accepted | ⟨mismatch, other⟩ | ⟨cause, violated, violates⟩
    · rw [accepted] at checked
      cases checked
    · rw [mismatch] at checked
      obtain rfl := Except.error.inj checked
      refine Failure.located_plain (describes_mismatch (.primitive m p) input other ?_)
      rintro rfl
      cases p with
      | undefined => cases other
      | _ => cases handles rfl
    · rw [violated] at checked
      obtain rfl := Except.error.inj checked
      have place := Schema.Violates.primitive (m := m) violates
      refine Failure.located_plain ?_
      cases violates with
      | number => exact ⟨_, .here _, place⟩
      | string => exact ⟨_, .here _, place⟩
  | array m size element ih =>
    refine enter_located_of_check plain.self (fun input run failure handles refused => ?_) refused
    rw [check_array] at refused
    rcases Parser.array_error (.all _) trivial refused with ⟨other, rfl⟩ |
      ⟨items, rfl, ⟨b, member, violated, rfl⟩ | ⟨i, item, below, found, ⟨run, -, fails⟩, rfl⟩⟩
    · exact Failure.located_plain (describes_mismatch (.array m size element) input other
        fun absent => nomatch handles absent)
    · exact Failure.located_plain ⟨_, .here _, .array member violated⟩
    · exact (ih plain.element fails).prefixed found fun _ _ => .element i
  | tuple m schemas ih =>
    refine enter_located_of_check plain.self (fun input run failure handles refused => ?_) refused
    rw [check_tuple] at refused
    rcases Parser.tuple_error (fun _ _ => .all _) trivial refused with ⟨other, rfl⟩ |
      ⟨items, rfl, ⟨length, rfl⟩ | ⟨i, item, p, below, found, place, ⟨run, -, fails⟩, rfl⟩⟩
    · exact Failure.located_plain (describes_mismatch (.tuple m schemas) input other
        fun absent => nomatch handles absent)
    · rw [List.length_map] at length ⊢
      exact Failure.located_plain ⟨m, schemas, items, .here _, rfl, rfl, rfl, length⟩
    · rw [List.getElem?_map] at place
      obtain ⟨s, here, rfl⟩ := Option.map_eq_some_iff.1 place
      have member := List.mem_of_getElem? here
      exact (ih s member (plain.item member) fails).prefixed found fun _ _ => .item here
  | object m unknownKeys fields ih =>
    refine enter_located_of_check plain.self (fun input run failure handles refused => ?_) refused
    rw [check_object] at refused
    rcases Parser.object_error (fun _ _ => .all _) trivial refused with ⟨other, rfl⟩ |
      ⟨entries, rfl, ⟨p, listed, below, ⟨run, -, fails⟩, rfl⟩ | ⟨strict, some, rfl⟩⟩
    · exact Failure.located_plain (describes_mismatch (.object m unknownKeys fields) input other
        fun absent => nomatch handles absent)
    · obtain ⟨f, member, rfl⟩ := List.mem_map.1 listed
      exact (ih f member (plain.field member) fails).prefixed rfl fun _ _ => .field member
    · have names : Entries.names (fields.map fun f => (f.1, f.2.enter o)) =
          Entries.names fields := by simp [Entries.names]
      refine Failure.located_plain ⟨m, unknownKeys, fields, entries, .here _, strict, rfl, ?_, ?_⟩
      · simpa [Entries.names] using some
      · rw [Entries.names_without, names]
  | union m candidates ih =>
    refine enter_located_of_check plain.self (fun input run failure _ refused => ?_) refused
    rw [check_union] at refused
    have each : ∀ c ∈ candidates.map (fun s => (s.kind, s.enter o)), ∀ failure,
        Parser.Returns (fun _ => True) c.2 input (.error failure) →
        failure.Located o (.union m candidates) input := by
      intro c listed failure
      obtain ⟨s, member, rfl⟩ := List.mem_map.1 listed
      rintro ⟨run, -, fails⟩
      exact (ih s member (plain.candidate member) fails).candidate member
    rcases Parser.union_error (fun _ _ => .all _) (fun _ _ _ => trivial) trivial refused with
      ⟨c, listed, stops⟩ | ⟨failures, all, rfl⟩
    · exact each c listed failure stops
    · refine Failure.located_exhausted ?_ fun f reported => ?_
      · rw [← all.length_eq, List.length_map]
      · obtain ⟨c, listed, fails⟩ :=
          exists_related_of_mem all.flip (Parser.mem_of_mem_reported reported)
        exact each c listed f fails

/-- Every failure in the tree of a failed parse by a schema without defaults has a path that leads
to a part of the input, and its cause is true of that part and of a schema that stands for it. -/
theorem parse_located (s : Schema) (plain : s.WithoutDefaults) (o : Options) (input : Value)
    (session : Session) {failure : Failure}
    (failed : (s.parse o input session).1 = .error failure) :
    ∀ f ∈ failure.nodes, ∃ u, input.follow? f.path = some u ∧ f.Describes o s u := by
  rw [parse_result] at failed
  exact s.enter_located plain failed

/-- The failure of a candidate points below the place of its union. -/
theorem parse_located_below_union :
    let pet : Schema := .unionOf [.string, .objectOf [("name", .string)]]
    let s : Schema := .objectOf [("pets", .arrayOf pet)]
    let input : Value := .object [("pets", .array [.string "rex", .object [("name", .null)]])]
    let place : Path := [.key "pets", .index 1]
    let name : Failure := .plain (place ++ [.key "name"]) (.typeMismatch .string .null)
    s.WithoutDefaults ∧
      (s.parse {} input {}).1 =
        .error (.exhausted place [.plain place (.typeMismatch .string .object), name]) ∧
      ∃ u, input.follow? (place ++ [.key "name"]) = some u ∧ name.Describes {} s u := by
  intro pet s input place name
  have plain : s.WithoutDefaults := by decide
  have failed : (s.parse {} input {}).1 =
      .error (.exhausted place [.plain place (.typeMismatch .string .object), name]) := rfl
  have located := parse_located s plain {} input {} failed name
  exact ⟨plain, failed, located (by simp [name, Failure.nodes, Failure.nodesAll])⟩

end Schema

end ValueSchema
