import ValueSchema.Proofs.Parser.Loops
import ValueSchema.Proofs.Reparsing

set_option autoImplicit false
set_option relaxedAutoImplicit false

namespace ValueSchema

/-- The same settings with one policy for the undeclared entries of every object. -/
def Options.overriding (o : Options) (policy : UnknownKeys) : Options :=
  { o with unknownKeys? := some policy }

namespace Schema

mutual

/-- The output of a value without the undeclared entries of objects, at every object schema that was
used for the value. Of a union, that is the first candidate that accepts the value at its depth. -/
def trim (o : Options) (depth : Nat) : Schema → Value → Value → Value
  | .primitive _ _, _ => id
  | .array m _ element, v =>
    match m.reached v with
    | .array items => Value.mapItems (List.zipWith (element.trim o (depth + 1)) items)
    | _ => id
  | .tuple m schemas, v =>
    match m.reached v with
    | .array items => Value.mapItems (trimItems o (depth + 1) schemas items)
    | _ => id
  | .object m _ fields, v =>
    match m.reached v with
    | .object entries => Value.mapEntries (List.filterMap (trimEntry o (depth + 1) fields entries))
    | _ => id
  | .union m candidates, v => trimChosen o (depth + 1) candidates (m.reached v)

def trimItems (o : Options) (depth : Nat) : List Schema → List Value → List Value → List Value
  | s :: schemas, item :: items, w :: values =>
    s.trim o depth item w :: trimItems o depth schemas items values
  | _, _, _ => []

def trimEntry (o : Options) (depth : Nat) :
    List (String × Schema) → Entries Value → String × Value → Option (String × Value)
  | [], _, _ => none
  | (name, s) :: rest, entries, e =>
    if e.1 = name then some (name, s.trim o depth (Parser.fieldValue entries name) e.2)
    else trimEntry o depth rest entries e

def trimChosen (o : Options) (depth : Nat) : List Schema → Value → Value → Value
  | [], _ => id
  | s :: rest, v =>
    match (s.enter o v ⟨{}, depth⟩).1 with
    | .ok _ => s.trim o depth v
    | .error _ => trimChosen o depth rest v

end

variable {o : Options} {depth : Nat}

private theorem trimItems_eq (schemas : List Schema) (items values : List Value) :
    trimItems o depth schemas items values =
      List.zipWith (fun x w => x.1.trim o depth x.2 w) (schemas.zip items) values := by
  induction schemas generalizing items values with
  | nil => rfl
  | cons s rest ih =>
    cases items with
    | nil => rfl
    | cons item items =>
      cases values with
      | nil => rfl
      | cons w values => rw [trimItems, ih, List.zip_cons_cons, List.zipWith_cons_cons]

private theorem trimEntry_of_mem {fields : List (String × Schema)}
    (nodup : (Entries.names fields).Nodup)
    (entries : Entries Value) {f : String × Schema} (member : f ∈ fields) (w : Value) :
    trimEntry o depth fields entries (f.1, w) =
      some (f.1, f.2.trim o depth (Parser.fieldValue entries f.1) w) := by
  induction fields with
  | nil => cases member
  | cons g rest ih =>
    obtain ⟨fresh, distinct⟩ := List.nodup_cons.1 nodup
    rcases List.mem_cons.1 member with rfl | later
    · rw [trimEntry, if_pos rfl]
    · have other : f.1 ≠ g.1 := fun same => fresh (same ▸ List.mem_map_of_mem later)
      rw [trimEntry, if_neg other, ih distinct later]

private theorem trimEntry_of_not_mem {fields : List (String × Schema)} (entries : Entries Value)
    {name : String} (missing : name ∉ Entries.names fields) (w : Value) :
    trimEntry o depth fields entries (name, w) = none := by
  induction fields with
  | nil => rfl
  | cons g rest ih =>
    have other : name ≠ g.1 := fun same => missing (List.mem_cons.2 (.inl same))
    rw [trimEntry, if_neg other, ih fun found => missing (List.mem_cons_of_mem _ found)]

private theorem kind_trim (s : Schema) (v w : Value) : (s.trim o depth v w).kind = w.kind := by
  induction s using Schema.induction generalizing depth v with
  | primitive m p => rfl
  | array m size element _ =>
    rw [trim]
    cases m.reached v with
    | array items => exact Value.kind_mapItems _ w
    | _ => rfl
  | tuple m schemas _ =>
    rw [trim]
    cases m.reached v with
    | array items => exact Value.kind_mapItems _ w
    | _ => rfl
  | object m unknownKeys fields _ =>
    rw [trim]
    cases m.reached v with
    | object entries => exact Value.kind_mapEntries _ w
    | _ => rfl
  | union m candidates ih =>
    rw [trim]
    generalize m.reached v = u
    induction candidates with
    | nil => rfl
    | cons s rest ih_rest =>
      rw [trimChosen]
      cases (s.enter o u ⟨{}, depth + 1⟩).1 with
      | ok _ => exact ih s List.mem_cons_self u
      | error _ => exact ih_rest fun t member => ih t (List.mem_cons_of_mem s member)

private theorem enter_mimics_of_check {s : Schema} {v : Value} {policy policy' : UnknownKeys}
    (fixed : ∀ p, s.modifiers.default? ≠ some (.producer p))
    (check : Parser.Mimics (depth + 1) (s.trim (o.overriding .passthrough) depth v)
      (s.check (o.overriding policy)) (s.check (o.overriding policy')) (s.modifiers.reached v)) :
    Parser.Mimics depth (s.trim (o.overriding .passthrough) depth v)
      (s.enter (o.overriding policy)) (s.enter (o.overriding policy')) v := by
  rw [enter_eq, enter_eq]
  refine Parser.Mimics.guarded (fun run start => ?_) o.maxDepth
  rw [Parser.resolved_eq_reached fun _ => fixed, Parser.resolved_eq_reached fun _ => fixed]
  exact check.settled (Value.eq_undefined_of_kind (s.kind_trim v .undefined))
    (Value.eq_null_of_kind (s.kind_trim v .null)) s.modifiers s.handlesUndefined run start

private theorem trimChosen_chooses {candidates : List Schema}
    (fixed : ∀ s ∈ candidates, s.WithoutProducers) (u : Value) :
    Parser.Chooses depth u (enter o) (fun s => s.trim o depth u)
      (fun candidates => trimChosen o depth candidates u) candidates where
  accepts s member rest run w start accepted := by
    have steady : (s.enter o u ⟨{}, depth⟩).1 = .ok w :=
      (fixed s member).steady.accepted accepted (by simp [start])
    simp only [trimChosen, steady]
  refuses s member rest run failure start refused other := by
    have untripped : tripped (s.enter o u run).1 = false := by rwa [refused, tripped_error]
    have steady : (s.enter o u ⟨{}, depth⟩).1 = .error failure :=
      ((fixed s member).steady (by simp [start]) untripped).trans refused
    simp only [trimChosen, steady]

private theorem enter_mimics {s : Schema} (wf : s.WellFormed) (fixed : s.WithoutProducers)
    (depth : Nat) (v : Value) :
    Parser.Mimics depth (s.trim (o.overriding .passthrough) depth v)
      (s.enter (o.overriding .passthrough)) (s.enter (o.overriding .strip)) v := by
  have lawful : ∀ t : Schema, (t.enter (o.overriding .passthrough)).Lawful :=
    fun t => t.enter_lawful _
  induction s using Schema.induction generalizing depth v with
  | primitive m p =>
    refine enter_mimics_of_check fixed.self fun run _ => ?_
    change (p.check (m.reached v), run) = Step.changed _ (p.check (m.reached v), run)
    cases p.check (m.reached v) <;> rfl
  | array m size element ih =>
    refine enter_mimics_of_check fixed.self ?_
    rw [trim, check_array, check_array]
    change Parser.Mimics _ _ _ _ (m.reached v)
    cases m.reached v with
    | array items =>
      exact .array (.zipWith _) (lawful element)
        (fun item _ => ih wf.element fixed.element (depth + 1) item) size
    | _ => exact fun _ _ => rfl
  | tuple m schemas ih =>
    refine enter_mimics_of_check fixed.self ?_
    rw [trim, check_tuple, check_tuple]
    change Parser.Mimics _ _ _ _ (m.reached v)
    cases m.reached v with
    | array items =>
      have change_eq : trimItems (o.overriding .passthrough) (depth + 1) schemas items =
          List.zipWith (fun x => x.1.trim (o.overriding .passthrough) (depth + 1) x.2)
            (schemas.zip items) := funext fun values => trimItems_eq schemas items values
      change Parser.Mimics _ (Value.mapItems (trimItems _ _ schemas items)) _ _ _
      rw [change_eq]
      refine .tuple (.zipWith _) (fun s _ => lawful s) fun x listed => ?_
      have member := (List.of_mem_zip listed).1
      exact ih x.1 member (wf.item member) (fixed.item member) (depth + 1) x.2
    | _ => exact fun _ _ => rfl
  | object m unknownKeys fields ih =>
    refine enter_mimics_of_check fixed.self ?_
    rw [trim, check_object, check_object]
    change Parser.Mimics _ _ _ _ (m.reached v)
    cases m.reached v with
    | object entries =>
      refine .object (fun f _ => lawful f.2)
        (fun f member => ih f member (wf.field member) (fixed.field member) (depth + 1) _)
        (fun f _ w => ?_) (fun f member w => trimEntry_of_mem wf.self entries member w)
        fun values => ?_
      · exact Value.isUndefined_eq_of_kind (f.2.kind_trim _ w)
      · have gone : (Entries.without entries fields).filterMap
            (trimEntry (o.overriding .passthrough) (depth + 1) fields entries) = [] := by
          rw [Entries.without_eq_filter, List.filterMap_eq_nil_iff]
          intro e member
          exact trimEntry_of_not_mem entries (of_decide_eq_true (List.mem_filter.1 member).2) e.2
        change Except.ok (Value.object _) = Except.ok (Value.object _)
        rw [List.filterMap_append, gone, List.append_nil]
    | _ => exact fun _ _ => rfl
  | union m candidates ih =>
    refine enter_mimics_of_check fixed.self ?_
    rw [trim, check_union, check_union]
    exact .union (trimChosen_chooses (fun s member => fixed.candidate member) _)
      (fun s _ => lawful s)
      (fun s member => ih s member (wf.candidate member) (fixed.candidate member) (depth + 1)
        (m.reached v)) o.unionFailures

private theorem enter_carries_of_check {s : Schema} {policy policy' : UnknownKeys} {same : Prop}
    (fixed : ∀ p, s.modifiers.default? ≠ some (.producer p)) (room : depth < o.maxDepth)
    (check : Parser.Carries (depth + 1) same (s.check (o.overriding policy))
      (s.check (o.overriding policy'))) :
    Parser.Carries depth same (s.enter (o.overriding policy)) (s.enter (o.overriding policy')) := by
  intro v w run start accepted other start'
  have inside := Parser.guarded_ok accepted
  rw [Parser.resolved_eq_reached fun _ => fixed] at inside
  have gives := Parser.Gives.settled inside (check (congrArg (· + 1) start))
  have enters : other.depth < (o.overriding policy').maxDepth := start' ▸ room
  rw [enter_eq]
  simp only [Parser.guarded, enters, if_true, Parser.resolved_eq_reached fun _ => fixed]
  exact gives _ (congrArg (· + 1) start')

private theorem enter_carries {s : Schema} (fixed : s.WithoutProducers) (policy : UnknownKeys)
    (depth : Nat) (room : depth + s.height ≤ o.maxDepth) :
    Parser.Carries depth s.WithoutUnions (s.enter (o.overriding .strict))
      (s.enter (o.overriding policy)) := by
  have lawful : ∀ (policy : UnknownKeys) (t : Schema), (t.enter (o.overriding policy)).Lawful :=
    fun policy t => t.enter_lawful _
  induction s using Schema.induction generalizing depth with
  | primitive m p =>
    refine enter_carries_of_check fixed.self (by simp only [height] at room; omega) ?_
    intro v w run _ accepted other _
    exact ⟨w, accepted, fun _ => rfl⟩
  | array m size element ih =>
    have inner := ih fixed.element (depth + 1) (by simp only [height] at room; omega)
    refine enter_carries_of_check fixed.self (by simp only [height] at room; omega) ?_
    rw [check_array, check_array]
    exact .array (lawful .strict element) (lawful policy element)
      (inner.mono Everywhere.element) size
  | tuple m items ih =>
    refine enter_carries_of_check fixed.self (by simp only [height] at room; omega) ?_
    rw [check_tuple, check_tuple]
    refine .tuple (fun s _ => lawful .strict s) (fun s _ => lawful policy s) fun s member => ?_
    have least := height_le_greatestHeight member
    exact (ih s member (fixed.item member) (depth + 1) (by simp only [height] at room; omega)).mono
      fun all => all.item member
  | object m unknownKeys fields ih =>
    refine enter_carries_of_check fixed.self (by simp only [height] at room; omega) ?_
    rw [check_object, check_object]
    refine .object (fun f _ => lawful .strict f.2) (fun f _ => lawful policy f.2)
      (fun f member => ?_) policy
    have least := height_le_greatestFieldHeight member
    exact (ih f member (fixed.field member) (depth + 1) (by simp only [height] at room; omega)).mono
      fun all => all.field member
  | union m candidates ih =>
    have deep : ∀ s ∈ candidates, depth + 1 + s.height ≤ o.maxDepth := by
      intro s member
      have least := height_le_greatestHeight member
      simp only [height] at room
      omega
    refine enter_carries_of_check fixed.self (by simp only [height] at room; omega) ?_
    rw [check_union, check_union]
    have quiet : ∀ s ∈ candidates, (s.enter (o.overriding policy)).Quiet (depth + 1) :=
      fun s member => s.enter_quiet (o.overriding policy) (depth + 1) (deep s member)
    have inner : ∀ s ∈ candidates, Parser.Carries (depth + 1) False
        (s.enter (o.overriding .strict)) (s.enter (o.overriding policy)) :=
      fun s member =>
        (ih s member (fixed.candidate member) (depth + 1) (deep s member)).mono False.elim
    exact Parser.Carries.mono (.union (fun s _ => lawful .strict s) (fun s _ => lawful policy s)
      quiet inner _) fun without => without.self rfl

/-- The policies for undeclared entries are a scale. Dropping these entries makes of a value what
keeping them makes of it, without the undeclared entries, and fails alike. With enough depth, what
is accepted where they are refused is accepted by the other policies, without unions with one
output. -/
theorem parse_key_policies {s : Schema} (wf : s.WellFormed) (fixed : s.WithoutProducers)
    (o : Options) (input : Value) (session : Session) :
    s.parse (o.overriding .strip) input session =
        ((s.parse (o.overriding .passthrough) input session).1.map
          (s.trim (o.overriding .passthrough) 0 input),
          (s.parse (o.overriding .passthrough) input session).2) ∧
      (s.height ≤ o.maxDepth → ∀ w, (s.parse (o.overriding .strict) input session).1 = .ok w →
        (∃ y, (s.parse (o.overriding .strip) input session).1 = .ok y) ∧
        (∃ y, (s.parse (o.overriding .passthrough) input session).1 = .ok y) ∧
        (s.WithoutUnions → (s.parse (o.overriding .strip) input session).1 = .ok w ∧
          (s.parse (o.overriding .passthrough) input session).1 = .ok w)) := by
  refine ⟨?_, fun deep w accepted => ?_⟩
  · have same := enter_mimics (o := o) wf fixed 0 input ⟨session, 0⟩ rfl
    simp only [parse, same]
    rcases s.enter (o.overriding .passthrough) input ⟨session, 0⟩ with ⟨failure | value, run⟩
    · rfl
    · rfl
  · rw [parse_result] at accepted
    have accepts : ∀ policy, ∃ y, (s.parse (o.overriding policy) input session).1 = .ok y ∧
        (s.WithoutUnions → y = w) := by
      intro policy
      rw [parse_result]
      exact enter_carries fixed policy 0 (by omega) rfl accepted ⟨session, 0⟩ rfl
    obtain ⟨stripped, strip, same⟩ := accepts .strip
    obtain ⟨passed, passthrough, same'⟩ := accepts .passthrough
    refine ⟨⟨stripped, strip⟩, ⟨passed, passthrough⟩, fun unionless => ⟨?_, ?_⟩⟩
    · rw [strip, same unionless]
    · rw [passthrough, same' unionless]

/-- A pair of flags comes out alike under all policies. A union of one flag and the pair takes the
pair where undeclared entries are refused, and the one flag where they are dropped or kept. -/
theorem parse_key_policies_one_or_two_flags :
    let pair : Schema := .objectOf [("b", .boolean), ("a", .boolean)]
    let either : Schema := .unionOf [.objectOf [("a", .boolean)], pair]
    let input : Value := .object [("a", .bool true), ("b", .bool false)]
    let flags : Value := .object [("b", .bool false), ("a", .bool true)]
    let result := fun (s : Schema) policy => (s.parse (Options.overriding {} policy) input {}).1
    pair.WellFormed ∧ pair.WithoutProducers ∧ pair.WithoutUnions ∧
      either.WellFormed ∧ either.WithoutProducers ∧
      result pair .strict = .ok flags ∧ result pair .strip = .ok flags ∧
      result pair .passthrough = .ok flags ∧
      result either .strict = .ok flags ∧
      result either .strip = .ok (.object [("a", .bool true)]) ∧
      result either .passthrough = .ok input := by
  intro pair either input flags result
  have fixed : pair.WithoutProducers := ⟨nofun, nofun, nofun, trivial⟩
  have fixed' : either.WithoutProducers := ⟨nofun, ⟨nofun, nofun, trivial⟩, fixed, trivial⟩
  have accepted := (parse_key_policies (s := pair) (by decide) fixed {} input {}).2 (by decide)
  obtain ⟨strip, passthrough⟩ := (accepted flags rfl).2.2 (by decide)
  have trimmed := (parse_key_policies (s := either) (by decide) fixed' {} input {}).1
  exact ⟨by decide, fixed, by decide, by decide, fixed', rfl, strip, passthrough, rfl,
    congrArg Prod.fst trimmed, rfl⟩

end Schema

end ValueSchema
