import ValueSchema.Proofs.UnionMerging

set_option autoImplicit false
set_option relaxedAutoImplicit false

namespace ValueSchema

namespace Schema

mutual

/-- A schema, and the candidates that are reached from it through unions only. -/
def alternatives : Schema → List Schema
  | .union m candidates => .union m candidates :: alternativesOfAll candidates
  | s => [s]

def alternativesOfAll : List Schema → List Schema
  | [] => []
  | s :: rest => s.alternatives ++ alternativesOfAll rest

end

private theorem self_mem_alternatives (s : Schema) : s ∈ s.alternatives := by
  cases s <;> exact List.mem_cons_self

private theorem alternativesOfAll_eq (candidates : List Schema) :
    alternativesOfAll candidates = candidates.flatMap alternatives := by
  induction candidates with
  | nil => rfl
  | cons s rest ih => rw [alternativesOfAll, ih, List.flatMap_cons]

private theorem mem_alternatives_of_candidate {m : Modifiers} {candidates : List Schema}
    {s t : Schema} (member : s ∈ candidates) (below : t ∈ s.alternatives) :
    t ∈ (union m candidates).alternatives := by
  rw [alternatives, alternativesOfAll_eq]
  exact List.mem_cons_of_mem _ (List.mem_flatMap.2 ⟨s, member, below⟩)

variable {o : Options} {s : Schema} {run : Run}

private theorem enter_undefined_of_check (bare : s.modifiers.default? = none)
    (admits : s.admitsUndefined = true) (room : run.depth < o.maxDepth)
    (checked : s.handlesUndefined = true → (s.check o .undefined run.deeper).1 = .ok .undefined) :
    (s.enter o .undefined run).1 = .ok .undefined := by
  cases optional : s.modifiers.optional with
  | true => simp [enter_eq, Parser.guarded, room, Parser.resolved, bare, Parser.settled, optional]
  | false =>
    have handled : s.handlesUndefined = true := by
      simpa [admitsUndefined, Modifiers.admitUndefined, bare, optional] using admits
    have checks : Visit.Checks o ⟨s, .undefined, run⟩ .undefined run.deeper :=
      ⟨room, by simp [Modifiers.drawn, bare, Run.deeper], optional, fun _ => handled⟩
    exact checks.result_eq.trans (checked handled)

private theorem tried_undefined {candidates : List Schema} {depth : Nat} (room : depth < o.maxDepth)
    (accepts : ∀ s ∈ candidates, s.admitsUndefined = true → ∀ run : Run, run.depth = depth →
      (s.enter o .undefined run).1 = .ok .undefined)
    (admits : anyAdmitsUndefined candidates = true) (index : Nat) (level : run.depth = depth) :
    (tried o index candidates .undefined run).1 = .accepted .undefined := by
  induction candidates generalizing index run with
  | nil => cases admits
  | cons s rest ih =>
    rw [tried_cons_accepted_iff]
    cases first : s.admitsUndefined with
    | true => exact .inl (accepts s List.mem_cons_self first run level)
    | false =>
      have later : anyAdmitsUndefined rest = true := by
        have split : (s.admitsUndefined || anyAdmitsUndefined rest) = true := admits
        rwa [first, Bool.false_or] at split
      exact .inr ⟨_, run, enter_missing first (level ▸ room), rfl,
        ih (fun t member => accepts t (List.mem_cons_of_mem s member)) later (index + 1) level⟩

private theorem enter_undefined_of_admits (s : Schema)
    (plain : ∀ t ∈ s.alternatives, t.modifiers.default? = none) (admits : s.admitsUndefined = true)
    (deep : run.depth + s.height ≤ o.maxDepth) :
    (s.enter o .undefined run).1 = .ok .undefined := by
  have bare : s.modifiers.default? = none := plain s s.self_mem_alternatives
  induction s using Schema.induction generalizing run with
  | primitive m p =>
    refine enter_undefined_of_check bare admits (by simp only [height] at deep; omega) ?_
    intro handled
    cases p with
    | undefined => rfl
    | _ => cases handled
  | union m candidates ih =>
    simp only [height] at deep
    refine enter_undefined_of_check bare admits (by omega) fun handled => ?_
    have accepts : ∀ s ∈ candidates, s.admitsUndefined = true → ∀ inner : Run,
        inner.depth = run.depth + 1 → (s.enter o .undefined inner).1 = .ok .undefined := by
      intro s member admits inner level
      have least := height_le_greatestHeight member
      have plain : ∀ t ∈ s.alternatives, t.modifiers.default? = none :=
        fun t below => plain t (mem_alternatives_of_candidate member below)
      exact ih s member plain admits (by omega) (plain s s.self_mem_alternatives)
    have room : run.depth + 1 < o.maxDepth := by
      obtain ⟨s, member, -⟩ := (anyAdmitsUndefined_iff candidates).1 handled
      have least := height_le_greatestHeight member
      have positive := s.height_pos
      omega
    have trial : (tried o 0 candidates .undefined run.deeper).1 = .accepted .undefined :=
      tried_undefined room accepts handled 0 rfl
    rw [check_union, Parser.union_eq]
    exact congrArg (Parser.Trial.outcome o.unionFailures) trial
  | array | tuple | object =>
    refine enter_undefined_of_check bare admits (by simp only [height] at deep; omega) ?_
    intro handled
    cases handled

private theorem admitsUndefined_of_enter_ok {w : Value}
    (accepted : (s.enter o .undefined run).1 = .ok w) :
    s.admitsUndefined = true := by
  by_cases room : run.depth < o.maxDepth
  · cases admits : s.admitsUndefined with
    | true => rfl
    | false =>
      rw [enter_missing admits room] at accepted
      cases accepted
  · rw [enter_of_full o (Nat.le_of_not_lt room)] at accepted
    cases accepted

private theorem admitsUndefined_of_field_absent {m : Modifiers} {unknownKeys : UnknownKeys}
    {fields : List (String × Schema)} {entries : Entries Value} {w : Value}
    (accepted : ((object m unknownKeys fields).enter o (.object entries) run).1 = .ok w)
    {f : String × Schema} (member : f ∈ fields) (absent : f.1 ∉ Entries.names entries) :
    f.2.admitsUndefined = true := by
  obtain ⟨r, inner, -, same, cases⟩ := enter_ok_cases o accepted
  obtain rfl : r = .object entries := same nofun
  obtain ⟨-, checked⟩ := cases.resolve_left fun passed => nomatch passed.1
  rcases returned : Parser.fieldsInOrder entries (fields.map fun f => (f.1, f.2.enter o)) inner with
    ⟨failure | values, after⟩
  · rw [check_object, Parser.object_of_error returned] at checked
    cases checked
  · have each := Parser.fieldsInOrder_ok (I := fun _ => True) (fun _ _ => .all _) trivial
      (congrArg Prod.fst returned)
    obtain ⟨value, run, -, parsed⟩ := each _ (List.mem_map_of_mem member)
    have missing : Parser.fieldValue entries f.1 = .undefined := by
      rw [Parser.fieldValue, Entries.find?_eq_none absent]
      rfl
    rw [missing] at parsed
    exact admitsUndefined_of_enter_ok parsed

/-- The static test for absent values predicts the parse. Where it fails, the parse of an absent
value fails by the missing value at the root, without any call; so a schema that accepts an absent
value admits it, and an object schema never accepts an object without a field whose schema fails the
test. Where it succeeds, no alternative of the schema has a default and there is enough depth, an
absent value comes out. -/
theorem parse_undefined_predicted (s : Schema) (o : Options) (session : Session) :
    (s.admitsUndefined = false → 1 ≤ o.maxDepth → s.parse o .undefined session =
      (.error (.plain [] .missing), session.emit (.parseFailed [] .missing))) ∧
    (∀ w, (s.parse o .undefined session).1 = .ok w → s.admitsUndefined = true) ∧
    (s.admitsUndefined = false → ∀ (m : Modifiers) (unknownKeys : UnknownKeys)
      (fields : List (String × Schema)) (name : String), (name, s) ∈ fields →
      ∀ entries : Entries Value, name ∉ Entries.names entries →
      ∀ w, ((object m unknownKeys fields).parse o (.object entries) session).1 ≠ .ok w) ∧
    (s.admitsUndefined = true → (∀ t ∈ s.alternatives, t.modifiers.default? = none) →
      s.height ≤ o.maxDepth → (s.parse o .undefined session).1 = .ok .undefined) := by
  refine ⟨fun closed room => ?_, fun w accepted => ?_, ?_, fun admits plain deep => ?_⟩
  · have missing : s.enter o .undefined ⟨session, 0⟩ = (.error (.here .missing), ⟨session, 0⟩) :=
      enter_missing closed room
    simp only [parse, missing]
    rfl
  · rw [parse_result] at accepted
    exact admitsUndefined_of_enter_ok accepted
  · intro closed m unknownKeys fields name member entries absent w accepted
    rw [parse_result] at accepted
    have admits := admitsUndefined_of_field_absent accepted member absent
    rw [closed] at admits
    cases admits
  · rw [parse_result]
    exact enter_undefined_of_admits s plain admits (by simpa using deep)

/-- A union of unions without an alternative for an absent value misses it, also as the field of an
object. With one alternative that takes it, an absent value comes out, whatever the fields of an
object schema beside it have for defaults. -/
theorem parse_undefined_by_nested_unions :
    let required : Schema := .unionOf [.boolean, .unionOf [.number, .null]]
    let server : Schema := .objectOf [("port", .modify .number (.default (.value (.number 80))))]
    let lenient : Schema := .unionOf [server, .unionOf [.null, .modify .undefined .required]]
    required.admitsUndefined = false ∧
      (required.parse {} .undefined {}).1 = .error (.plain [] .missing) ∧
      (∀ w, ((objectOf [("at", required)]).parse {} (.object []) {}).1 ≠ .ok w) ∧
      lenient.admitsUndefined = true ∧
      (lenient.parse { maxDepth := 3 } .undefined {}).1 = .ok .undefined := by
  intro required server lenient
  obtain ⟨misses, -, refuses, -⟩ := parse_undefined_predicted required {} {}
  obtain ⟨-, -, -, passes⟩ := parse_undefined_predicted lenient { maxDepth := 3 } {}
  exact ⟨rfl, congrArg Prod.fst (misses rfl (by decide)),
    refuses rfl {} .passthrough [("at", required)] "at" (by simp) [] (by decide), rfl,
    passes rfl (by decide) (by decide)⟩

end Schema

private theorem Parser.settled_eq_of_passes {m m' : Modifiers} {v : Value}
    (same : m.passes v = m'.passes v)
    (handles : Bool) (check : Parser) : settled m handles check v = settled m' handles check v := by
  funext run
  cases v with
  | undefined =>
    have optional : m.optional = m'.optional := same
    simp only [settled, optional]
  | null =>
    have nullable : m.nullable = m'.nullable := same
    simp only [settled, nullable]
  | _ => rfl

private theorem Modifiers.drawn_of_bare {m : Modifiers} (bare : m.default? = none) (v : Value)
    (run : Run) : m.drawn v run = (v, run) := by
  cases v <;> simp [drawn, bare]

private theorem Parser.settled_of_passes {m : Modifiers} {v : Value} (passes : m.passes v = true)
    (handles : Bool) (check : Parser) (run : Run) : settled m handles check v run =
        (.ok v, run) := by
  rcases settled_cases m handles check v run with ⟨eq, -⟩ | ⟨-, -, closed, -⟩ | ⟨-, closed, -⟩
  · exact eq
  · rw [passes] at closed
    cases closed
  · rw [passes] at closed
    cases closed

def Options.deeper (o : Options) : Options := { o with maxDepth := o.maxDepth + 1 }

namespace Schema

variable {o : Options} {s : Schema} {u v w : Value} {run : Run}

section Literals

/-- A schema that accepts one value, as it is, and refuses every other one at once. -/
private def Takes (o : Options) (s : Schema) (u : Value) : Prop :=
  ∀ (v : Value) (run : Run), run.depth < o.maxDepth →
    (v = u ∧ s.enter o v run = (.ok u, run)) ∨
      (v ≠ u ∧ ∃ failure, s.enter o v run = (.error failure, run) ∧ failure.isLimit = false)

private theorem undefined_takes (o : Options) : undefined.Takes o .undefined := by
  intro v run room
  simp only [enter_eq, Parser.guarded, room, if_true]
  cases v with
  | undefined => exact .inl ⟨rfl, rfl⟩
  | _ =>
    refine .inr ⟨?_, _, rfl, rfl⟩
    intro same
    cases same

private theorem null_takes (o : Options) : null.Takes o .null := by
  intro v run room
  simp only [enter_eq, Parser.guarded, room, if_true]
  cases v with
  | null => exact .inl ⟨rfl, rfl⟩
  | _ =>
    refine .inr ⟨?_, _, rfl, rfl⟩
    intro same
    cases same

private theorem Takes.enter_union_cons_ok_iff (takes : s.Takes o u) {rest : List Schema} :
    ((unionOf (s :: rest)).enter o v run).1 = .ok w ↔ run.deeper.depth < o.maxDepth ∧
      (v = u ∧ w = u ∨ v ≠ u ∧ ((unionOf rest).enter o v run).1 = .ok w) := by
  by_cases room : run.deeper.depth < o.maxDepth
  · have room' : run.depth < o.maxDepth := Nat.lt_of_succ_lt room
    rw [enter_union_ok_iff, enter_union_ok_iff, and_iff_right room, and_iff_right room',
      and_iff_right room', tried_cons_accepted_iff]
    rcases takes v run.deeper room with ⟨rfl, accepts⟩ | ⟨other, failure, refuses, untripped⟩
    · have made : v = w ↔ w = v := eq_comm
      simpa [accepts] using made
    · have calls : (run.deeper.emit (.candidateRejected 0 s.kind failure.code)).calls =
          run.deeper.calls := rfl
      have later : (tried o (0 + 1) rest v
          (run.deeper.emit (.candidateRejected 0 s.kind failure.code))).1 = .accepted w ↔
            (tried o 0 rest v run.deeper).1 = .accepted w := tried_iff calls rfl (by simp)
      simp [refuses, untripped, other, later]
  · rw [enter_union_ok_iff]
    exact iff_of_false (fun accepted => tried_of_full (Nat.le_of_not_lt room) accepted.2)
      fun accepted => room accepted.1

private theorem enter_union_singleton_ok_iff :
    ((unionOf [s]).enter o.deeper v run).1 = .ok w ↔ (s.enter o v run).1 = .ok w := by
  have left : o.maxDepth + run.deeper.depth = o.maxDepth + 1 + run.depth := by
    simp only [Run.deeper]
    omega
  have calls : run.calls = run.deeper.calls := rfl
  have echoes := enter_echoes_calls o (o.maxDepth + 1) s v calls left
  rw [enter_union_ok_iff, tried_singleton_accepted_iff, echoes.result_iff rfl]
  refine and_iff_right_of_imp fun accepted => ?_
  by_cases room : run.depth < o.maxDepth + 1
  · exact room
  · have full : o.deeper.maxDepth ≤ run.deeper.depth := by
      simp only [Options.deeper, Run.deeper]
      omega
    rw [enter_of_full o.deeper full s v] at accepted
    cases accepted

end Literals

section Modified

variable {change : Modifier} {p : Value}

@[simp] private theorem check_modify (o : Options) (s : Schema) (change : Modifier) :
    (s.modify change).check o = s.check o := by
  cases s <;> rfl

@[simp] private theorem handlesUndefined_modify (s : Schema) (change : Modifier) :
    (s.modify change).handlesUndefined = s.handlesUndefined := by
  cases s with
  | primitive m p => cases p <;> rfl
  | _ => rfl

private theorem modify_nullish (s : Schema) : s.modify .nullish =
    (s.modify .nullable).modify .optional := by
  cases s <;> rfl

private theorem enter_eq_settled (room : run.depth < o.maxDepth) :
    (s.enter o v run).1 = (Parser.settled s.modifiers s.handlesUndefined (s.check o)
      (s.modifiers.drawn v run.deeper).1 (s.modifiers.drawn v run.deeper).2).1 := by
  simp only [enter_eq, Parser.guarded, room, if_true, Parser.resolved_eq_drawn]
  rfl

private theorem enter_modify_ok_iff
    (same : (s.modifiers.apply change).default? = s.modifiers.default?)
    (passes : (s.modifiers.apply change).passes p = true)
    (others : ∀ u, u ≠ p → (s.modifiers.apply change).passes u = s.modifiers.passes u) :
    ((s.modify change).enter o v run).1 = .ok w ↔ run.depth < o.maxDepth ∧
      ((s.modifiers.drawn v run.deeper).1 = p ∧ w = p ∨
        (s.modifiers.drawn v run.deeper).1 ≠ p ∧ (s.enter o v run).1 = .ok w) := by
  by_cases room : run.depth < o.maxDepth
  · have drawn : (s.modifiers.apply change).drawn v run.deeper =
      s.modifiers.drawn v run.deeper := by
      simp only [Modifiers.drawn, same]
    rw [enter_eq_settled room, enter_eq_settled room, and_iff_right room, modifiers_modify,
      handlesUndefined_modify, check_modify, drawn]
    by_cases reached : (s.modifiers.drawn v run.deeper).1 = p
    · rw [Parser.settled_of_passes (reached ▸ passes)]
      simpa [reached] using (eq_comm : p = w ↔ w = p)
    · rw [Parser.settled_eq_of_passes (others _ reached)]
      simp [reached]
  · rw [enter_of_full o (Nat.le_of_not_lt room)]
    refine iff_of_false (fun accepted => ?_) fun accepted => room accepted.1
    cases accepted

private theorem enter_optional_ok_iff (bare : s.modifiers.default? = none) :
    ((s.modify .optional).enter o v run).1 = .ok w ↔ run.depth < o.maxDepth ∧
      (v = .undefined ∧ w = .undefined ∨ v ≠ .undefined ∧ (s.enter o v run).1 = .ok w) := by
  have others : ∀ u, u ≠ .undefined →
      (s.modifiers.apply .optional).passes u = s.modifiers.passes u := by
    intro u present
    cases u with
    | undefined => exact (present rfl).elim
    | _ => rfl
  rw [enter_modify_ok_iff rfl rfl others, Modifiers.drawn_of_bare bare]

private theorem enter_nullable_ok_iff :
    ((s.modify .nullable).enter o v run).1 = .ok w ↔ run.depth < o.maxDepth ∧
      ((s.modifiers.drawn v run.deeper).1 = .null ∧ w = .null ∨
        (s.modifiers.drawn v run.deeper).1 ≠ .null ∧ (s.enter o v run).1 = .ok w) := by
  have others : ∀ u, u ≠ .null →
      (s.modifiers.apply .nullable).passes u = s.modifiers.passes u := by
    intro u other
    cases u with
    | null => exact (other rfl).elim
    | _ => rfl
  exact enter_modify_ok_iff rfl rfl others

private theorem eq_null_of_enter_ok (reached : (s.modifiers.drawn v run.deeper).1 = .null)
    (accepted : (s.enter o v run).1 = .ok w) : w = .null := by
  by_cases room : run.depth < o.maxDepth
  · rw [enter_eq_settled room, reached] at accepted
    rcases Parser.settled_ok accepted with ⟨-, rfl⟩ | ⟨-, checked⟩
    · rfl
    · have present : Value.null ≠ .undefined := nofun
      exact Value.eq_null_of_kind (kind_of_check_ok s present checked)
  · rw [enter_of_full o (Nat.le_of_not_lt room)] at accepted
    cases accepted

end Modified

private theorem enter_null_union_ok_iff :
    ((unionOf [null, s]).enter o.deeper v run).1 = .ok w ↔ run.depth < o.maxDepth ∧
      (v = .null ∧ w = .null ∨ v ≠ .null ∧ (s.enter o v run).1 = .ok w) := by
  rw [(null_takes o.deeper).enter_union_cons_ok_iff, enter_union_singleton_ok_iff]
  exact and_congr_left fun _ => Nat.succ_lt_succ_iff

private theorem enter_undefined_union_ok_iff {rest : List Schema} :
    ((unionOf (undefined :: rest)).enter o.deeper v run).1 = .ok w ↔ run.depth < o.maxDepth ∧
      (v = .undefined ∧ w = .undefined ∨
        v ≠ .undefined ∧ ((unionOf rest).enter o.deeper v run).1 = .ok w) := by
  rw [(undefined_takes o.deeper).enter_union_cons_ok_iff]
  exact and_congr_left fun _ => Nat.succ_lt_succ_iff

/-- A nullable schema and a union that tries null first differ at most in a null that the schema
goes on with in place of an absent value. -/
private theorem enter_nullable_iff_union
    (meets : (s.modifiers.drawn v run.deeper).1 = .null → v ≠ .null → run.depth < o.maxDepth →
      ∃ w, (s.enter o v run).1 = .ok w) :
    ((s.modify .nullable).enter o v run).1 = .ok w ↔
      ((unionOf [null, s]).enter o.deeper v run).1 = .ok w := by
  rw [enter_nullable_ok_iff, enter_null_union_ok_iff]
  refine and_congr_right fun room => ?_
  by_cases given : v = .null
  · subst given
    rfl
  · by_cases reached : (s.modifiers.drawn v run.deeper).1 = .null
    · obtain ⟨made, accepted⟩ := meets reached given room
      obtain rfl := eq_null_of_enter_ok reached accepted
      simpa [given, reached, accepted] using (eq_comm : w = .null ↔ .null = w)
    · simp [given, reached]

private theorem enter_optional_iff_union (bare : s.modifiers.default? = none) :
    ((s.modify .optional).enter o v run).1 = .ok w ↔
      ((unionOf [undefined, s]).enter o.deeper v run).1 = .ok w := by
  rw [enter_optional_ok_iff bare, enter_undefined_union_ok_iff, enter_union_singleton_ok_iff]

private theorem enter_nullish_iff_union (bare : s.modifiers.default? = none) :
    ((s.modify .nullish).enter o v run).1 = .ok w ↔
      ((unionOf [undefined, null, s]).enter o.deeper v run).1 = .ok w := by
  have bare' : (s.modify .nullable).modifiers.default? = none := by
    rw [modifiers_modify]
    exact bare
  rw [modify_nullish, enter_optional_ok_iff bare', enter_undefined_union_ok_iff]
  refine and_congr_right fun _ => or_congr_right (and_congr_right fun _ => ?_)
  refine enter_nullable_iff_union fun reached given => ?_
  rw [Modifiers.drawn_of_bare bare] at reached
  exact (given reached).elim

/-- A default stands in null for an absent value, and the schema refuses it. -/
def RefusesNullDefault (o : Options) (s : Schema) (v : Value) (session : Session) : Prop :=
  0 < o.maxDepth ∧ v = .undefined ∧
    (∃ d, s.modifiers.default? = some d ∧ (session.produce d).1 = .null) ∧
    ∀ w, (s.parse o v session).1 ≠ .ok w

/-- Under one more level, unions accept what modifiers do, and make the same of it: `undefined` or
the schema for an optional schema without a default, `undefined`, `null` or the schema for one that
is nullish, and `null` or the schema for a nullable one. The last has one exception. A null that
stands in for an absent value passes the nullable schema, and the union leaves it to the schema,
which may refuse it. -/
theorem parse_modified_iff_union (s : Schema) (o : Options) (v : Value) (session : Session) :
    (¬ RefusesNullDefault o s v session →
      ∀ w, ((s.modify .nullable).parse o v session).1 = .ok w ↔
        ((unionOf [null, s]).parse o.deeper v session).1 = .ok w) ∧
    (RefusesNullDefault o s v session →
      ((s.modify .nullable).parse o v session).1 = .ok .null ∧
        ∀ w, ((unionOf [null, s]).parse o.deeper v session).1 ≠ .ok w) ∧
    (s.modifiers.default? = none →
      (∀ w, ((s.modify .optional).parse o v session).1 = .ok w ↔
        ((unionOf [undefined, s]).parse o.deeper v session).1 = .ok w) ∧
      ∀ w, ((s.modify .nullish).parse o v session).1 = .ok w ↔
        ((unionOf [undefined, null, s]).parse o.deeper v session).1 = .ok w) := by
  simp only [RefusesNullDefault, parse_result]
  refine ⟨fun unrefused w => ?_, ?_, fun bare => ⟨fun w => ?_, fun w => ?_⟩⟩
  · refine enter_nullable_iff_union fun reached given room => ?_
    by_contra refused
    rcases s.modifiers.drawn_cases v (Run.deeper ⟨session, 0⟩) with
      ⟨d, absent, standing, drawn⟩ | ⟨-, drawn⟩
    · rw [drawn] at reached
      exact unrefused ⟨room, absent, ⟨d, standing, reached⟩, not_exists.1 refused⟩
    · rw [drawn] at reached
      exact given reached
  · rintro ⟨room, rfl, ⟨d, standing, made⟩, refuses⟩
    have reached : (s.modifiers.drawn .undefined (Run.deeper ⟨session, 0⟩)).1 = .null := by
      simp only [Modifiers.drawn, standing]
      exact made
    refine ⟨enter_nullable_ok_iff.2 ⟨room, .inl ⟨reached, rfl⟩⟩, fun w accepted => ?_⟩
    obtain ⟨-, ⟨given, -⟩ | ⟨-, accepted⟩⟩ := enter_null_union_ok_iff.1 accepted
    · cases given
    · exact refuses w accepted
  · exact enter_optional_iff_union bare
  · exact enter_nullish_iff_union bare

/-- A nullable number with a default of null is null where it is absent. The union that tries null
before the number with that default refuses an absent value. -/
theorem nullable_apart_from_union :
    let s : Schema := .modify .number (.default (.value .null))
    ((s.modify .nullable).parse {} .undefined {}).1 = .ok .null ∧
      ¬ ∀ w, ((s.modify .nullable).parse {} .undefined {}).1 = .ok w ↔
        ((unionOf [null, s]).parse { maxDepth := 101 } .undefined {}).1 = .ok w := by
  refine ⟨rfl, fun same => ?_⟩
  cases (same .null).1 rfl

/-- A nullish array, a nullable flag whose default is null for a start, and a nullable null with
that default come out as their unions do, at the lowest limits. -/
theorem parse_modified_iff_union_at_lowest_limits :
    let flags : Schema := .arrayOf .boolean
    let turns : Producer := .cycle 0 [.null, .bool true]
    let flag : Schema := .modify .boolean (.default (.producer turns))
    let nothing : Schema := .modify .null (.default (.producer turns))
    let limit := fun maxDepth : Nat => ({ maxDepth } : Options)
    flags.modifiers.default? = none ∧
      ((unionOf [undefined, null, flags]).parse (limit 3) (.array [.bool true]) {}).1 =
        .ok (.array [.bool true]) ∧
      RefusesNullDefault (limit 1) flag .undefined {} ∧
      (∀ w, ((unionOf [null, flag]).parse (limit 2) .undefined {}).1 ≠ .ok w) ∧
      ¬ RefusesNullDefault (limit 1) nothing .undefined {} ∧
      ((unionOf [null, nothing]).parse (limit 2) .undefined {}).1 = .ok .null := by
  intro flags turns flag nothing limit
  have refuses : RefusesNullDefault (limit 1) flag .undefined {} :=
    ⟨by decide, rfl, ⟨_, rfl, rfl⟩, nofun⟩
  have accepts : ¬ RefusesNullDefault (limit 1) nothing .undefined {} :=
    fun refuses => refuses.2.2.2 .null rfl
  obtain ⟨-, -, nullish⟩ := parse_modified_iff_union flags (limit 2) (.array [.bool true]) {}
  obtain ⟨-, apart, -⟩ := parse_modified_iff_union flag (limit 1) .undefined {}
  obtain ⟨alike, -, -⟩ := parse_modified_iff_union nothing (limit 1) .undefined {}
  exact ⟨rfl, ((nullish rfl).2 _).1 rfl, refuses, (apart refuses).2, accepts,
    (alike accepts .null).1 rfl⟩

end Schema

end ValueSchema
