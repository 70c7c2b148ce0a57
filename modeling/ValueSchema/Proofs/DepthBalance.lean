import ValueSchema.Proofs.DepthLimit
import ValueSchema.Proofs.Schema.Visits

/-!
The limit counts how many schemas stand inside each other, and every schema that is entered leaves
the count as it found it. So the count could be an argument of the recursion.
-/

set_option autoImplicit false
set_option relaxedAutoImplicit false

namespace ValueSchema

namespace Schema

/-- A parse under a limit of at least the height of the schema does not fail by it. If a parse fails
by the limit, a schema is entered too deep, the failure has the path of its value, and the steps of
the path and the unions on the way are as many as the limit allows. -/
theorem parse_limit_exact (s : Schema) (o : Options) (input : Value) (session : Session) :
    (s.height ≤ o.maxDepth → tripped (s.parse o input session).1 = false) ∧
    ∀ failure, (s.parse o input session).1 = .error failure → failure.isLimit = true →
      (∃ way z, Visit.Enters o (.start s input session) way z ∧ z.Full o) ∧
      ∀ way z, Visit.Enters o (.start s input session) way z → z.Full o →
        failure = .plain way.path (.recursionLimitExceeded o.maxDepth) ∧
        failure.path.length + way.unions = o.maxDepth ∧
        (s.WithoutUnions → failure.path.length = o.maxDepth) := by
  have entered : (s.parse o input session).1 = ((Visit.start s input session).step o).1 :=
    s.parse_result o input session
  refine ⟨fun room => ?_, fun failure failed limit => ⟨?_, fun way z enters full => ?_⟩⟩
  · rw [parse_result]
    exact s.enter_quiet o 0 (by omega) input _ rfl
  · exact Visit.exists_full (by rw [← entered, failed, tripped_error, limit])
  · obtain rfl : failure = .plain way.path (.recursionLimitExceeded o.maxDepth) :=
      Except.error.inj (failed.symm.trans (entered.trans (enters.stops full).1))
    have deep : way.length = o.maxDepth := by
      have least : o.maxDepth ≤ z.run.depth := full
      have most := enters.depth_le (Nat.zero_le _)
      have counted : z.run.depth = 0 + way.length := enters.depth
      omega
    have count : way.path.length + way.unions = o.maxDepth := way.length_path_add_unions.trans deep
    refine ⟨rfl, count, fun unionless => ?_⟩
    rwa [enters.unions_eq_zero unionless, Nat.add_zero] at count

/-- A union of nested arrays of height four: under a limit of four the parse does not trip, under a
limit of three it trips below two items and one union. -/
theorem parse_nested_union_limit_exact :
    let s : Schema := .unionOf [.arrayOf (.arrayOf .boolean), .arrayOf .null]
    let input : Value := .array [.array [.null]]
    tripped (s.parse { maxDepth := 4 } input {}).1 = false ∧
      ∃ way z, Visit.Enters { maxDepth := 3 } (.start s input {}) way z ∧
        (s.parse { maxDepth := 3 } input {}).1 =
          .error (.plain way.path (.recursionLimitExceeded 3)) ∧
        way.path = [.index 0, .index 0] ∧ way.unions = 1 := by
  intro s input
  have failed : (s.parse { maxDepth := 3 } input {}).1 =
      .error (.plain [.index 0, .index 0] (.recursionLimitExceeded 3)) := rfl
  obtain ⟨⟨way, z, enters, full⟩, each⟩ :=
    (parse_limit_exact s { maxDepth := 3 } input {}).2 _ failed rfl
  obtain ⟨same, count, -⟩ := each way z enters full
  have path : way.path = [.index 0, .index 0] := ((Failure.plain.injEq ..).mp same).1.symm
  have untripped := (parse_limit_exact s { maxDepth := 4 } input {}).1 (by decide)
  refine ⟨untripped, way, z, enters, ?_, path, ?_⟩
  · rw [failed, path]
  · simp [Failure.path] at count
    omega

end Schema

namespace Parser

/-- Enters a schema whose depth is known in advance. The alarm is raised unless the run has just
that depth on the way in, within the limit, and one more on the way out. -/
def watched (alarm : Parser) (limit depth : Nat) (parser : Parser) : Parser := fun input run =>
  if run.depth = depth ∧ depth ≤ limit then
    if depth < limit then
      let (result, after) := parser input { run with depth := depth + 1 }
      if after.depth = depth + 1 then (result, { after with depth := depth })
      else alarm input after
    else (.error (.here (.recursionLimitExceeded limit)), run.emit (.limitReached limit))
  else alarm input run

private abbrev AgreeAt (depth : Nat) (p q : Parser) : Prop := ∀ v, Mimics depth id p q v

namespace AgreeAt

variable {depth : Nat} {p q : Parser}

private theorem refl (depth : Nat) (p : Parser) : AgreeAt depth p p :=
  fun v run _ => (Step.changed_id (p v run)).symm

private theorem resolved (agree : AgreeAt depth p q) (m : Modifiers) (handles : Bool) :
    AgreeAt depth (Parser.resolved m handles p) (Parser.resolved m handles q) := by
  intro input run start
  rw [resolved_eq_drawn, resolved_eq_drawn]
  exact (agree _).settled rfl rfl m handles _ ((m.drawn_depth input run).trans start)

private theorem guarded {limit : Nat} (alarm : Parser) (lawful : p.Lawful) (within : depth ≤ limit)
    (agree : depth < limit → AgreeAt (depth + 1) p q) :
    AgreeAt depth (Parser.guarded limit p) (Parser.watched alarm limit depth q) := by
  rintro input run rfl
  by_cases room : run.depth < limit
  · have same := agree room input { run with depth := run.depth + 1 } rfl
    rcases returned : p input { run with depth := run.depth + 1 } with ⟨result, after⟩
    have level : after.depth = run.depth + 1 := by
      have kept := (lawful input { run with depth := run.depth + 1 }).depth
      rwa [returned] at kept
    simp only [Parser.guarded, watched, room, within, and_self, if_true, same, returned, level,
      Nat.add_sub_cancel, Step.changed_id]
  · simp only [Parser.guarded, watched, room, within, and_self, if_true, if_false, Step.changed_id]

private theorem array (lawful : p.Lawful) (agree : AgreeAt depth p q) (size : Bounds Nat) :
    AgreeAt depth (Parser.array size p) (Parser.array size q) := by
  intro input
  cases input with
  | array items =>
    have same := Mimics.array .unchanged lawful (fun item (_ : item ∈ items) => agree item) size
    rwa [Value.mapItems_id] at same
  | _ => exact fun _ _ => rfl

section Lists

variable {α : Type} {p q : α → Parser}

private theorem tuple {xs : List α} (lawful : ∀ a ∈ xs, (p a).Lawful)
    (agree : ∀ a ∈ xs, AgreeAt depth (p a) (q a)) :
    AgreeAt depth (Parser.tuple (xs.map p)) (Parser.tuple (xs.map q)) := by
  intro input
  cases input with
  | array items =>
    have same : Mimics depth (Value.mapItems id) (Parser.tuple (xs.map p)) (Parser.tuple (xs.map q))
        (.array items) :=
      .tuple .unchanged lawful fun x listed => agree x.1 (List.of_mem_zip listed).1 x.2
    rwa [Value.mapItems_id] at same
  | _ => exact fun _ _ => rfl

private theorem object {fields : List (String × α)} (lawful : ∀ f ∈ fields, (p f.2).Lawful)
    (agree : ∀ f ∈ fields, AgreeAt depth (p f.2) (q f.2)) (policy : UnknownKeys) :
    AgreeAt depth (Parser.object policy (fields.map fun f => (f.1, p f.2)))
      (Parser.object policy (fields.map fun f => (f.1, q f.2))) := by
  intro input
  cases input with
  | object entries =>
    have all : List.filterMap (some : String × Value → _) = id :=
      funext fun _ => List.filterMap_some
    have same : Mimics depth (Value.mapEntries (List.filterMap some))
        (Parser.object policy (fields.map fun f => (f.1, p f.2)))
        (Parser.object policy (fields.map fun f => (f.1, q f.2))) (.object entries) := by
      refine .object lawful (fun f member => agree f member _) (fun _ _ _ => rfl)
        (fun _ _ _ => rfl) fun values => ?_
      rw [all, Value.mapEntries_id, Except.map_id]
      rfl
    rwa [all, Value.mapEntries_id] at same
  | _ => exact fun _ _ => rfl

private theorem union {xs : List α} (lawful : ∀ a ∈ xs, (p a).Lawful)
    (agree : ∀ a ∈ xs, AgreeAt depth (p a) (q a)) (kind : α → SchemaKind) (detail : UnionFailures) :
    AgreeAt depth (Parser.union detail (xs.map fun a => (kind a, p a)))
      (Parser.union detail (xs.map fun a => (kind a, q a))) :=
  fun input => .union .unchanged lawful (fun a member => agree a member input) detail

end Lists

end AgreeAt

end Parser

namespace Schema

def watching (alarm : Parser) (o : Options) (depth : Nat) (s : Schema) (check : Parser) : Parser :=
  .watched alarm o.maxDepth depth (.resolved s.modifiers s.handlesUndefined check)

mutual

def checkWatched (alarm : Parser) (o : Options) (depth : Nat) : Schema → Parser
  | .primitive _ p => fun input run => (p.check input, run)
  | .array _ size element =>
    .array size (watching alarm o depth element (checkWatched alarm o (depth + 1) element))
  | .tuple _ items => .tuple (watchItems alarm o depth items)
  | .object _ unknownKeys fields =>
    .object (o.unknownKeys?.getD unknownKeys) (watchFields alarm o depth fields)
  | .union _ candidates => .union o.unionFailures (watchCandidates alarm o depth candidates)

def watchItems (alarm : Parser) (o : Options) (depth : Nat) : List Schema → List Parser
  | [] => []
  | s :: rest =>
    watching alarm o depth s (checkWatched alarm o (depth + 1) s) :: watchItems alarm o depth rest

def watchFields (alarm : Parser) (o : Options) (depth : Nat) :
    List (String × Schema) → List (String × Parser)
  | [] => []
  | (name, s) :: rest =>
    (name, watching alarm o depth s (checkWatched alarm o (depth + 1) s)) ::
      watchFields alarm o depth rest

def watchCandidates (alarm : Parser) (o : Options) (depth : Nat) :
    List Schema → List (SchemaKind × Parser)
  | [] => []
  | s :: rest =>
    (s.kind, watching alarm o depth s (checkWatched alarm o (depth + 1) s)) ::
      watchCandidates alarm o depth rest

end

/-- A schema as part of a run in which its depth is known: it is an argument of the recursion, one
more for the schemas below, and the count in the run is compared with it. -/
def watch (alarm : Parser) (o : Options) (depth : Nat) (s : Schema) : Parser :=
  watching alarm o depth s (checkWatched alarm o (depth + 1) s)

section Watched

variable (alarm : Parser) (o : Options)

private theorem watchItems_eq (depth : Nat) (items : List Schema) :
    watchItems alarm o depth items = items.map (watch alarm o depth) := by
  induction items with
  | nil => rfl
  | cons s rest ih => rw [watchItems, ih]; rfl

private theorem watchFields_eq (depth : Nat) (fields : List (String × Schema)) :
    watchFields alarm o depth fields = fields.map fun f => (f.1, watch alarm o depth f.2) := by
  induction fields with
  | nil => rfl
  | cons f rest ih => rw [watchFields, ih]; rfl

private theorem watchCandidates_eq (depth : Nat) (candidates : List Schema) :
    watchCandidates alarm o depth candidates =
      candidates.map fun s => (s.kind, watch alarm o depth s) := by
  induction candidates with
  | nil => rfl
  | cons s rest ih => rw [watchCandidates, ih]; rfl

private theorem watch_agree_of_check {s : Schema} {depth : Nat} (within : depth ≤ o.maxDepth)
    (agree : depth < o.maxDepth →
      Parser.AgreeAt (depth + 1) (s.check o) (s.checkWatched alarm o (depth + 1))) :
    Parser.AgreeAt depth (s.enter o) (s.watch alarm o depth) :=
  .guarded alarm ((s.check_lawful o).resolved _ _) within fun room => (agree room).resolved _ _

private theorem watch_agree (s : Schema) (depth : Nat) (within : depth ≤ o.maxDepth) :
    Parser.AgreeAt depth (s.enter o) (s.watch alarm o depth) := by
  induction s using Schema.induction generalizing depth with
  | primitive m p => exact watch_agree_of_check alarm o within fun _ => .refl _ _
  | array m size element ih =>
    exact watch_agree_of_check alarm o within fun room =>
      .array (element.enter_lawful o) (ih (depth + 1) room) size
  | tuple m items ih =>
    refine watch_agree_of_check alarm o within fun room => ?_
    rw [check_tuple, checkWatched, watchItems_eq]
    exact .tuple (fun s _ => s.enter_lawful o) fun s below => ih s below (depth + 1) room
  | object m unknownKeys fields ih =>
    refine watch_agree_of_check alarm o within fun room => ?_
    rw [check_object, checkWatched, watchFields_eq]
    exact .object (fun f _ => f.2.enter_lawful o) (fun f below => ih f below (depth + 1) room) _
  | union m candidates ih =>
    refine watch_agree_of_check alarm o within fun room => ?_
    rw [check_union, checkWatched, watchCandidates_eq]
    exact .union (fun s _ => s.enter_lawful o) (fun s below => ih s below (depth + 1) room)
      Schema.kind o.unionFailures

private theorem watch_eq_enter (s : Schema) {run : Run} (within : run.depth ≤ o.maxDepth)
    (input : Value) : s.watch alarm o run.depth input run = s.enter o input run := by
  have same := s.watch_agree alarm o run.depth within input run rfl
  rwa [Step.changed_id] at same

end Watched

/-- A schema that is entered leaves the count as it was, whatever comes out of it. The schemas that
are entered in its course find the count of the schemas around them, whatever was entered before,
within the limit, and leave it as well. No alarm is raised: on no way in or out is the count another
one than the known depth. -/
theorem depth_balanced (s : Schema) (o : Options) (input : Value) (run : Run)
    (within : run.depth ≤ o.maxDepth) :
    (s.enter o input run).2.depth = run.depth ∧
      (∀ alarm, s.watch alarm o run.depth input run = s.enter o input run) ∧
      ∀ way z, Visit.Enters o ⟨s, input, run⟩ way z →
        z.run.depth = run.depth + way.length ∧ z.run.depth ≤ o.maxDepth ∧
        (z.step o).2.depth = z.run.depth ∧
        ∀ turn y, Visit.Calls o z turn y → y.run.depth = z.run.depth + 1 :=
  ⟨s.enter_depth o input run, fun alarm => s.watch_eq_enter alarm o within input,
    fun _ z enters =>
      ⟨enters.depth, enters.depth_le within, z.schema.enter_depth o z.input z.run,
        fun _ _ calls => calls.starts.2.1⟩⟩

/-- The first candidate refuses the item for its type, the second one trips over the limit two
levels further in, and the count is two as before. -/
theorem depth_balanced_after_trip :
    let s : Schema := .unionOf [.arrayOf .boolean, .arrayOf (.arrayOf .boolean)]
    let o : Options := { maxDepth := 5 }
    let input : Value := .array [.array [.bool true]]
    let run : Run := { depth := 2 }
    run.depth ≤ o.maxDepth ∧
      (s.enter o input run).1 =
        .error (.plain [.index 0, .index 0] (.recursionLimitExceeded 5)) ∧
      (s.enter o input run).2.depth = 2 ∧
      ∀ alarm, s.watch alarm o 2 input run = s.enter o input run := by
  intro s o input run
  obtain ⟨restored, silent, -⟩ := depth_balanced s o input run (by decide)
  exact ⟨by decide, rfl, restored, silent⟩

end Schema

end ValueSchema
