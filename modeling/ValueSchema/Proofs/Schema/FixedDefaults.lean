import ValueSchema.Proofs.DepthLimit

/-!
Schemas whose defaults are all fixed. No session changes what such a schema makes of a value, so the
candidate that a union takes for a value is a function of the value.
-/

set_option autoImplicit false
set_option relaxedAutoImplicit false

namespace ValueSchema

/-- The value that a schema goes on with: a fixed default in place of an absent value. -/
def Modifiers.reached (m : Modifiers) : Value → Value
  | .undefined => match m.default? with
    | some (.value v) => v
    | _ => .undefined
  | v => v

theorem Modifiers.reached_of_present (m : Modifiers) {v : Value} (present : v ≠ .undefined) :
    m.reached v = v := by
  cases v with
  | undefined => exact (present rfl).elim
  | _ => rfl

theorem Modifiers.reached_of_none {m : Modifiers} (none : m.default? = none) (v : Value) :
    m.reached v = v := by
  cases v <;> simp [Modifiers.reached, none]

theorem Parser.resolved_eq_reached {m : Modifiers} {v : Value}
    (fixed : v = .undefined → ∀ p, m.default? ≠ some (.producer p)) (handles : Bool)
    (check : Parser) : resolved m handles check v = settled m handles check (m.reached v) := by
  funext run
  cases v with
  | undefined =>
    cases standing : m.default? with
    | none => simp [resolved, Modifiers.reached, standing]
    | some d =>
      cases d with
      | value w => simp [resolved, Modifiers.reached, standing]; rfl
      | producer p => exact (fixed rfl p standing).elim
  | _ => rfl

namespace Schema

variable {o : Options} {s : Schema} {v w : Value} {run : Run}

theorem WithoutDefaults.withoutProducers (plain : s.WithoutDefaults) :
    s.WithoutProducers := by
  refine plain.imp fun t none p standing => ?_
  rw [none] at standing
  cases standing

theorem enter_ok_reached (fixed : v = .undefined → ∀ p, s.modifiers.default? ≠ some (.producer p))
    (accepted : (s.enter o v run).1 = .ok w) :
    (s.modifiers.passes (s.modifiers.reached v) = true ∧ w = s.modifiers.reached v) ∨
    (s.modifiers.passes (s.modifiers.reached v) = false ∧
      ∃ inner, inner.depth = run.depth + 1 ∧
        (s.check o (s.modifiers.reached v) inner).1 = .ok w) := by
  have inside := Parser.guarded_ok accepted
  rw [Parser.resolved_eq_reached fixed] at inside
  rcases Parser.settled_ok inside with passed | ⟨closed, checked⟩
  · exact .inl passed
  · exact .inr ⟨closed, _, rfl, checked⟩

theorem enter_ok (fixed : ∀ p, s.modifiers.default? ≠ some (.producer p))
    (accepted : (s.enter o v run).1 = .ok w) :
    (s.modifiers.passes (s.modifiers.reached v) = true ∧ w = s.modifiers.reached v) ∨
    (s.modifiers.passes (s.modifiers.reached v) = false ∧
      ∃ inner, inner.depth = run.depth + 1 ∧
        (s.check o (s.modifiers.reached v) inner).1 = .ok w) :=
  enter_ok_reached (fun _ => fixed) accepted

/-- In every run that is no deeper, a schema makes the same of a value, unless it trips. -/
def Steady (o : Options) (s : Schema) (v : Value) : Prop :=
  ∀ ⦃run other : Run⦄, other.depth ≤ run.depth → tripped (s.enter o v run).1 = false →
    (s.enter o v other).1 = (s.enter o v run).1

theorem Steady.accepted (steady : s.Steady o v) (accepted : (s.enter o v run).1 = .ok w)
    {other : Run} (shallower : other.depth ≤ run.depth) : (s.enter o v other).1 = .ok w := by
  rw [steady shallower (by rw [accepted, tripped_ok]), accepted]

private theorem WithoutProducers.respects (fixed : s.WithoutProducers) :
    s.Everywhere fun t => ∀ d, t.modifiers.default? = some d → d.Respects fun _ _ => True := by
  refine Everywhere.imp (fun t none d standing => ?_) fixed
  cases d with
  | value w => exact fun _ _ _ => ⟨rfl, trivial⟩
  | producer p => exact (none p standing).elim

theorem WithoutProducers.steady (fixed : s.WithoutProducers) : s.Steady o v := by
  intro run other shallower untripped
  have both := enter_refines (fun _ _ _ _ => trivial) o o.maxDepth s fixed.respects v run other
    trivial (by omega)
  rcases both with trips | same
  · rw [untripped] at trips
    cases trips
  · exact same.result.symm

theorem enter_ok_shallower (fixed : s.WithoutProducers) (accepted : (s.enter o v run).1 = .ok w)
    {other : Run} (shallower : other.depth ≤ run.depth) : (s.enter o v other).1 = .ok w :=
  fixed.steady.accepted accepted shallower

/-- A check gives a value of the kind that it gets. Only a union can make something of an absent
value, by a default of a candidate. -/
theorem kind_of_check_ok (s : Schema) {v w : Value} {run : Run} (present : v ≠ .undefined)
    (accepted : (s.check o v run).1 = .ok w) : w.kind = v.kind := by
  induction s using Schema.induction generalizing run with
  | primitive m p =>
    rw [Primitive.eq_of_check_ok accepted]
  | array m size element _ =>
    rw [check_array] at accepted
    obtain ⟨items, values, rfl, rfl, -⟩ := Parser.array_ok (.all _) trivial accepted
    rfl
  | tuple m items _ =>
    rw [check_tuple] at accepted
    obtain ⟨items, values, rfl, rfl, -⟩ := Parser.tuple_ok (fun _ _ => .all _) trivial accepted
    rfl
  | object m unknownKeys fields _ =>
    rw [check_object] at accepted
    obtain ⟨entries, values, rfl, rfl⟩ := Parser.object_ok accepted
    rfl
  | union m candidates ih =>
    rw [check_union] at accepted
    obtain ⟨c, listed, run, -, returns⟩ :=
      Parser.union_ok (fun _ _ => .all _) (fun _ _ _ => trivial) trivial accepted
    obtain ⟨s, member, rfl⟩ := List.mem_map.1 listed
    obtain ⟨r, inner, -, same, ⟨-, rfl⟩ | ⟨-, checked⟩⟩ := enter_ok_cases o returns
    · rw [same present]
    · rw [same present] at checked
      exact ih s member checked

theorem kind_of_enter_ok (present : v ≠ .undefined) (accepted : (s.enter o v run).1 = .ok w) :
    w.kind = v.kind := by
  obtain ⟨r, inner, -, same, ⟨-, rfl⟩ | ⟨-, checked⟩⟩ := enter_ok_cases o accepted
  · rw [same present]
  · rw [same present] at checked
    exact kind_of_check_ok s present checked

/-- Parsing an output once more keeps its kind. Only an absent output may have come from an absent
value, and then the second parse is the first one. -/
theorem kind_of_enter_again (fixed : s.WithoutProducers)
    (first : (s.enter o v run).1 = .ok w) {other : Run} (shallower : other.depth ≤ run.depth)
    {y : Value} (again : (s.enter o w other).1 = .ok y) : y.kind = w.kind := by
  by_cases absent : w = .undefined
  · by_cases present : v = .undefined
    · rw [absent, ← present, enter_ok_shallower fixed first shallower] at again
      rw [Except.ok.inj again]
    · have kind := kind_of_enter_ok present first
      rw [absent] at kind
      exact (present (Value.eq_undefined_of_kind kind.symm)).elim
  · exact kind_of_enter_ok absent again

theorem undefined_of_enter_ok (plain : s.WithoutDefaults)
    (made : (s.enter o .undefined run).1 = .ok w) : w = .undefined := by
  induction s using Schema.induction generalizing run with
  | primitive m p =>
    rcases enter_ok plain.withoutProducers.self made with ⟨-, rfl⟩ | ⟨-, inner, -, checked⟩
    · exact Modifiers.reached_of_none plain.self _
    · rw [Modifiers.reached_of_none plain.self] at checked
      have same : p.check .undefined = .ok w := checked
      cases p <;> cases same
      rfl
  | union m candidates ih =>
    rcases enter_ok plain.withoutProducers.self made with ⟨-, rfl⟩ | ⟨-, inner, -, checked⟩
    · exact Modifiers.reached_of_none plain.self _
    · rw [Modifiers.reached_of_none plain.self, check_union] at checked
      obtain ⟨c, listed, run, -, returns⟩ :=
        Parser.union_ok (fun _ _ => .all _) (fun _ _ _ => trivial) trivial checked
      obtain ⟨s, member, rfl⟩ := List.mem_map.1 listed
      exact ih s member (plain.candidate member) returns
  | _ =>
    rcases enter_ok plain.withoutProducers.self made with ⟨-, rfl⟩ | ⟨-, inner, -, checked⟩
    · exact Modifiers.reached_of_none plain.self _
    · rw [Modifiers.reached_of_none plain.self] at checked
      cases checked

/-- The first candidate that accepts a value at a depth, by its index, and what it makes of it. -/
def firstAccepting (o : Options) (depth : Nat) (v : Value) : List Schema → Option (Nat × Value)
  | [] => none
  | s :: rest =>
    match (s.enter o v ⟨{}, depth⟩).1 with
    | .ok w => some (0, w)
    | .error _ => (firstAccepting o depth v rest).map fun found => (found.1 + 1, found.2)

theorem firstAccepting_eq_some {candidates : List Schema} {depth index : Nat}
    (found : firstAccepting o depth v candidates = some (index, w)) :
    ∃ s, candidates[index]? = some s ∧ (s.enter o v ⟨{}, depth⟩).1 = .ok w := by
  induction candidates generalizing index with
  | nil => cases found
  | cons s rest ih =>
    rw [firstAccepting] at found
    split at found
    next other accepted =>
      obtain ⟨rfl, rfl⟩ := Prod.mk.inj (Option.some.inj found)
      exact ⟨s, rfl, accepted⟩
    next failure refused =>
      obtain ⟨⟨i, other⟩, later, same⟩ := Option.map_eq_some_iff.1 found
      obtain ⟨rfl, rfl⟩ := Prod.mk.inj same
      exact ih later

theorem not_accepted_of_firstAccepting_eq_none {candidates : List Schema} {depth : Nat}
    (none : firstAccepting o depth v candidates = none) :
    ∀ s ∈ candidates, ∀ w, (s.enter o v ⟨{}, depth⟩).1 ≠ .ok w := by
  induction candidates with
  | nil => exact fun s member => (List.not_mem_nil member).elim
  | cons s rest ih =>
    rw [firstAccepting] at none
    split at none
    next other accepted => cases none
    next failure refused =>
      refine List.forall_mem_cons.2 ⟨fun w accepted => ?_, ih (Option.map_eq_none_iff.1 none)⟩
      rw [refused] at accepted
      cases accepted

private theorem firstOf_accepted {candidates : List Schema}
    (steady : ∀ s ∈ candidates, s.Steady o v)
    {number : Nat}
    (accepted : (Parser.firstOf number (candidates.map fun s => (s.kind, s.enter o)) v run).1 =
      .accepted w) :
    ∃ index, ∀ depth ≤ run.depth, firstAccepting o depth v candidates = some (index, w) := by
  induction candidates generalizing number run with
  | nil => cases accepted
  | cons s rest ih =>
    have inside := steady s List.mem_cons_self
    rcases entered : s.enter o v run with ⟨failure | other, after⟩
    · simp only [List.map_cons, Parser.firstOf, entered] at accepted
      by_cases limit : failure.isLimit = true
      · simp [limit] at accepted
      have depth : after.depth = run.depth := by
        rw [← s.enter_depth o v run, entered]
      have later : (Parser.firstOf (number + 1) (rest.map fun s => (s.kind, s.enter o)) v
          (after.emit (.candidateRejected number s.kind failure.code))).1 = .accepted w := by
        simp only [limit] at accepted
        cases tried : (Parser.firstOf (number + 1) (rest.map fun s => (s.kind, s.enter o)) v
          (after.emit (.candidateRejected number s.kind failure.code))).1 with
        | accepted value => simpa [tried, Parser.Trial.after] using accepted
        | stopped stop => simp [tried, Parser.Trial.after] at accepted
        | refused failures => simp [tried, Parser.Trial.after] at accepted
      obtain ⟨index, found⟩ := ih (fun t member => steady t (List.mem_cons_of_mem s member)) later
      rw [Run.emit_depth, depth] at found
      refine ⟨index + 1, fun shallower below => ?_⟩
      have untripped : tripped (s.enter o v run).1 = false := by
        rw [entered]
        simpa using limit
      have refused : (s.enter o v ⟨{}, shallower⟩).1 = .error failure := by
        rw [inside below untripped, entered]
      rw [firstAccepting, refused, found shallower below]
      rfl
    · simp only [List.map_cons, Parser.firstOf, entered] at accepted
      obtain rfl : other = w := by simpa using accepted
      refine ⟨0, fun shallower below => ?_⟩
      have here : (s.enter o v run).1 = .ok other := by rw [entered]
      have returns : (s.enter o v ⟨{}, shallower⟩).1 = .ok other := inside.accepted here below
      rw [firstAccepting, returns]

theorem firstAccepting_of_union_ok {m : Modifiers} {candidates : List Schema}
    (steady : ∀ s ∈ candidates, s.Steady o v)
    (accepted : ((union m candidates).check o v run).1 = .ok w) :
    ∃ index, ∀ depth ≤ run.depth, firstAccepting o depth v candidates = some (index, w) := by
  rw [check_union, Parser.union_eq] at accepted
  cases tried : (Parser.firstOf 0 (candidates.map fun s => (s.kind, s.enter o)) v run).1 with
  | accepted value =>
    rw [tried] at accepted
    obtain rfl := Except.ok.inj accepted
    exact firstOf_accepted steady tried
  | stopped failure =>
    rw [tried] at accepted
    cases accepted
  | refused failures =>
    rw [tried] at accepted
    cases accepted

end Schema

/-- Two steps from related runs: both trip over the limit, or they match. -/
def Step.Echoes {α : Type} (R : Session → Session → Prop) (run run' : Run) (a b : Step α) : Prop :=
  (tripped a.1 = true ∧ tripped b.1 = true) ∨ Step.Matches R run run' a b

def Session.SameCalls (a b : Session) : Prop := a.calls = b.calls

private theorem Default.respects_sameCalls (d : Default) : d.Respects Session.SameCalls := by
  intro a b same
  have calls : a.calls = b.calls := same
  cases d with
  | value w => exact ⟨rfl, same⟩
  | producer p => simp [Session.produce, Session.SameCalls, calls]

namespace Step.Echoes

variable {α : Type} {R : Session → Session → Prop} {run run' : Run} {a b : Step α}

private theorem of_refines (there : Step.Refines R run run' a b)
    (back : Step.Refines R run' run b a) : Step.Echoes R run run' a b := by
  rcases there with trips | same
  · rcases back with trips' | same'
    · exact .inl ⟨trips, trips'⟩
    · exact .inl ⟨trips, by rw [same'.result, trips]⟩
  · exact .inr same

theorem cases (echoes : Step.Echoes R run run' a b) :
    (∃ failure failure' mid mid', a = (.error failure, mid) ∧ b = (.error failure', mid') ∧
      failure.isLimit = true ∧ failure'.isLimit = true) ∨
    (∃ failure mid mid', a = (.error failure, mid) ∧ b = (.error failure, mid') ∧
      failure.isLimit = false ∧
      Step.Matches R run run' ((.error failure, mid) : Step α) (.error failure, mid')) ∨
    ∃ value mid mid', a = (.ok value, mid) ∧ b = (.ok value, mid') ∧
      Step.Matches R run run' ((.ok value, mid) : Step α) (.ok value, mid') := by
  obtain ⟨result, mid⟩ := a
  obtain ⟨result', mid'⟩ := b
  rcases echoes with ⟨trips, trips'⟩ | same
  · cases result with
    | ok value => cases trips
    | error failure =>
      cases result' with
      | ok value => cases trips'
      | error failure' => exact .inl ⟨failure, failure', mid, mid', rfl, rfl, trips, trips'⟩
  · obtain rfl : result = result' := same.result
    cases result with
    | ok value => exact .inr (.inr ⟨value, mid, mid', rfl, rfl, same⟩)
    | error failure =>
      cases limit : failure.isLimit with
      | true => exact .inl ⟨failure, failure, mid, mid', rfl, rfl, limit, limit⟩
      | false => exact .inr (.inl ⟨failure, mid, mid', rfl, rfl, limit, same⟩)

theorem result_iff (echoes : Step.Echoes R run run' a b) {result : Except Failure α}
    (untripped : tripped result = false) : a.1 = result ↔ b.1 = result := by
  rcases echoes with ⟨trips, trips'⟩ | same
  · constructor
    · rintro rfl
      rw [untripped] at trips
      cases trips
    · rintro rfl
      rw [untripped] at trips'
      cases trips'
  · rw [same.result]

end Step.Echoes

namespace Schema

variable {run run' : Run}

private theorem enter_echoes {R : Session → Session → Prop} (symm : ∀ a b, R a b → R b a)
    (emits : ∀ a b event, R a b → R (a.emit event) (b.emit event)) (o : Options) (limit : Nat)
    {s : Schema}
    (respects : s.Everywhere fun t => ∀ d, t.modifiers.default? = some d → d.Respects R)
    (v : Value) (related : R run.toSession run'.toSession)
    (left : o.maxDepth + run'.depth = limit + run.depth) :
    Step.Echoes R run run' (s.enter o v run) (s.enter { o with maxDepth := limit } v run') :=
  .of_refines
    (enter_refines emits o limit s respects v run run' related (Nat.le_of_eq left))
    (enter_refines emits { o with maxDepth := limit } o.maxDepth s respects v run' run
      (symm _ _ related) (Nat.le_of_eq left.symm))

theorem enter_echoes_calls (o : Options) (limit : Nat) (s : Schema) (v : Value)
    (calls : run.calls = run'.calls) (left : o.maxDepth + run'.depth = limit + run.depth) :
    Step.Echoes Session.SameCalls run run' (s.enter o v run)
      (s.enter { o with maxDepth := limit } v run') :=
  enter_echoes (R := Session.SameCalls) (fun _ _ same => Eq.symm same) (fun _ _ _ same => same) o
    limit (Everywhere.of_forall (fun _ d _ => d.respects_sameCalls) s) v calls left

theorem WithoutProducers.enter_echoes {s : Schema} (fixed : s.WithoutProducers) (o : Options)
    (v : Value) (level : run.depth = run'.depth) :
    Step.Echoes (fun _ _ => True) run run' (s.enter o v run) (s.enter o v run') :=
  Schema.enter_echoes (fun _ _ _ => trivial) (fun _ _ _ _ => trivial) o o.maxDepth fixed.respects v
    trivial (by rw [level])

end Schema

end ValueSchema
