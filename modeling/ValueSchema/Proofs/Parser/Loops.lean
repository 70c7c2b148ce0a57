import ValueSchema.Proofs.Parser.Lawful
import ValueSchema.Proofs.Parser.Outputs

/-!
How far a loop over parsers gets, and parsers that do what another one does and make something else
of it.
-/

set_option autoImplicit false
set_option relaxedAutoImplicit false

namespace ValueSchema

def Step.changed {α β : Type} (change : α → β) (step : Step α) : Step β :=
  (step.1.map change, step.2)

@[simp] private theorem Step.changed_run {α β : Type} (change : α → β) (step : Step α) :
    (step.changed change).2 = step.2 := rfl

private theorem Step.changed_changed {α β γ : Type} (f : α → β) (g : β → γ) (step : Step α) :
    (step.changed f).changed g = step.changed (g ∘ f) := by
  obtain ⟨result, after⟩ := step
  cases result <;> rfl

@[simp] theorem Step.changed_id {α : Type} (step : Step α) : step.changed id = step := by
  obtain ⟨result, after⟩ := step
  cases result <;> rfl

private theorem Step.Lawful.extends_events {α : Type} {run : Run} {step : Step α}
    (lawful : Step.Lawful run step) : run.events <+: step.2.events := by
  obtain ⟨new, later, -⟩ := lawful.events
  exact ⟨new, later.symm⟩

namespace Parser

section Sequence

variable {items done rest : List (Parser × Value)} {position : Nat} {run mid after : Run}
  {values : List Value} {failure : Failure}

theorem inOrder_congr {items' : List (Parser × Value)}
    (same : List.Forall₂ (fun a b => a.1 a.2 = b.1 b.2) items items') (position : Nat) :
    inOrder position items = inOrder position items' := by
  induction same generalizing position with
  | nil => rfl
  | cons head _ ih =>
    funext run
    simp only [inOrder, head, ih]

theorem inOrder_cons_ok {x : Parser × Value} {value : Value}
    (first : x.1 x.2 run = (.ok value, mid)) (position : Nat) (rest : List (Parser × Value)) :
    inOrder position (x :: rest) run = (inOrder (position + 1) rest mid).changed (value :: ·) := by
  simp only [inOrder, first]
  rcases inOrder (position + 1) rest mid with ⟨failure | values, after⟩
  · rfl
  · rfl

private theorem inOrder_append (before : inOrder position done run = (.ok values, mid))
    (rest : List (Parser × Value)) :
    inOrder position (done ++ rest) run =
      (inOrder (position + done.length) rest mid).changed (values ++ ·) := by
  induction done generalizing position run values with
  | nil =>
    obtain ⟨rfl, rfl⟩ : [] = values ∧ run = mid := by simpa [inOrder] using before
    rw [List.nil_append, List.length_nil, Nat.add_zero]
    rcases inOrder position rest run with ⟨failure | others, after⟩
    · rfl
    · rfl
  | cons x tail ih =>
    rcases first : x.1 x.2 run with ⟨failure | value, next⟩
    · simp [inOrder, first] at before
    rw [inOrder_cons_ok first] at before
    rcases later : inOrder (position + 1) tail next with ⟨failure | others, last⟩
    · rw [later] at before
      cases before
    obtain ⟨rfl, rfl⟩ : value :: others = values ∧ last = mid := by
      simpa [later, Step.changed, Except.map] using before
    have place : position + (x :: tail).length = position + 1 + tail.length := by
      rw [List.length_cons]
      omega
    rw [List.cons_append, inOrder_cons_ok first, ih later, place, Step.changed_changed]
    rfl

theorem inOrder_error_split (returned : inOrder position items run = (.error failure, after)) :
    ∃ done x rest values mid inner, items = done ++ x :: rest ∧
      inOrder position done run = (.ok values, mid) ∧ x.1 x.2 mid = (.error inner, after) ∧
      failure = inner.prefixed (.index (position + done.length)) := by
  induction items generalizing position run with
  | nil => cases returned
  | cons x rest ih =>
    rcases first : x.1 x.2 run with ⟨inner | value, mid⟩
    · obtain ⟨rfl, rfl⟩ : inner.prefixed (.index position) = failure ∧ mid = after := by
        simpa [inOrder, first] using returned
      exact ⟨[], x, rest, [], run, inner, rfl, rfl, first, rfl⟩
    rw [inOrder_cons_ok first] at returned
    rcases later : inOrder (position + 1) rest mid with ⟨other | values, last⟩
    · obtain ⟨rfl, rfl⟩ : other = failure ∧ last = after := by
        simpa [later, Step.changed, Except.map] using returned
      obtain ⟨done, y, others, values, here, inner, rfl, before, fails, rfl⟩ := ih later
      refine ⟨x :: done, y, others, value :: values, here, inner, rfl, ?_, fails, ?_⟩
      · rw [inOrder_cons_ok first, before]
        rfl
      · rw [List.length_cons, Nat.add_right_comm, Nat.add_assoc]
    · rw [later] at returned
      cases returned

theorem inOrder_stops (before : inOrder position done run = (.ok values, mid))
    {x : Parser × Value} (fails : x.1 x.2 mid = (.error failure, after)) :
    inOrder position (done ++ x :: rest) run =
      (.error (failure.prefixed (.index (position + done.length))), after) := by
  rw [inOrder_append before]
  simp [inOrder, fails, Step.changed, Except.map]

theorem inOrder_reports (lawful : ∀ y ∈ rest, y.1.Lawful)
    (before : inOrder position done run = (.ok values, mid)) (x : Parser × Value) :
    (x.1 x.2 mid).2.events <+: (inOrder position (done ++ x :: rest) run).2.events := by
  rw [inOrder_append before, Step.changed_run]
  rcases first : x.1 x.2 mid with ⟨failure | value, next⟩
  · simp [inOrder, first]
  · rw [inOrder_cons_ok first]
    exact (Lawful.inOrder lawful (position + done.length + 1) next).extends_events

end Sequence

section Fields

variable {entries : Entries Value} {fields done rest : List (String × Parser)}
  {run mid after : Run} {values : List (String × Value)} {failure : Failure}

theorem fieldsInOrder_cons_ok {f : String × Parser} {value : Value}
    (first : f.2 (fieldValue entries f.1) run = (.ok value, mid)) (rest : List (String × Parser)) :
    fieldsInOrder entries (f :: rest) run =
      (fieldsInOrder entries rest mid).changed (kept entries [(f.1, value)] ++ ·) := by
  simp only [fieldsInOrder_cons, first, kept, List.filter_cons, List.filter_nil]
  rcases fieldsInOrder entries rest mid with ⟨failure | values, after⟩
  · rfl
  · by_cases stays : ((Entries.find? entries f.1).isSome || !value.isUndefined) = true
    · simp only [stays, if_true]
      rfl
    · simp only [stays]
      rfl

theorem fieldsInOrder_congr {entries' : Entries Value} {fields' : List (String × Parser)}
    (each : List.Forall₂ (fun f g => f.1 = g.1 ∧
      f.2 (fieldValue entries f.1) = g.2 (fieldValue entries' g.1) ∧
      ∀ run value, (f.2 (fieldValue entries f.1) run).1 = .ok value →
        kept entries [(f.1, value)] = kept entries' [(g.1, value)]) fields fields') :
    fieldsInOrder entries fields = fieldsInOrder entries' fields' := by
  induction each with
  | nil => rfl
  | @cons f g rest rest' head _ ih =>
    obtain ⟨name, p⟩ := f
    obtain ⟨name', q⟩ := g
    obtain ⟨rfl, alike, stays⟩ := head
    have same : q (fieldValue entries' name) = p (fieldValue entries name) := alike.symm
    funext run
    rcases first : p (fieldValue entries name) run with ⟨failure | value, mid⟩
    · have first' : q (fieldValue entries' name) run = (.error failure, mid) := by rw [same, first]
      simp only [fieldsInOrder_cons, first, first']
    · have first' : q (fieldValue entries' name) run = (.ok value, mid) := by rw [same, first]
      have here := fieldsInOrder_cons_ok (f := (name, p)) first rest
      have there := fieldsInOrder_cons_ok (f := (name, q)) first' rest'
      rw [here, there, ih, stays run value (congrArg Prod.fst first)]

private theorem fieldsInOrder_append (before : fieldsInOrder entries done run = (.ok values, mid))
    (rest : List (String × Parser)) :
    fieldsInOrder entries (done ++ rest) run =
      (fieldsInOrder entries rest mid).changed (values ++ ·) := by
  induction done generalizing run values with
  | nil =>
    obtain ⟨rfl, rfl⟩ : [] = values ∧ run = mid := by simpa [fieldsInOrder] using before
    rw [List.nil_append]
    rcases fieldsInOrder entries rest run with ⟨failure | others, after⟩
    · rfl
    · rfl
  | cons field tail ih =>
    rcases first : field.2 (fieldValue entries field.1) run with ⟨failure | value, next⟩
    · simp [fieldsInOrder_cons, first] at before
    rw [fieldsInOrder_cons_ok first] at before
    rcases later : fieldsInOrder entries tail next with ⟨failure | others, last⟩
    · rw [later] at before
      cases before
    obtain ⟨rfl, rfl⟩ : kept entries [(field.1, value)] ++ others = values ∧ last = mid := by
      simpa [later, Step.changed, Except.map] using before
    rw [List.cons_append, fieldsInOrder_cons_ok first, ih later, Step.changed_changed]
    congr 1
    exact funext fun more => (List.append_assoc _ others more).symm

theorem fieldsInOrder_error_split
    (returned : fieldsInOrder entries fields run = (.error failure, after)) :
    ∃ done field rest values mid inner, fields = done ++ field :: rest ∧
      fieldsInOrder entries done run = (.ok values, mid) ∧
      field.2 (fieldValue entries field.1) mid = (.error inner, after) ∧
      failure = inner.prefixed (.key field.1) := by
  induction fields generalizing run with
  | nil => cases returned
  | cons field rest ih =>
    rcases first : field.2 (fieldValue entries field.1) run with ⟨inner | value, mid⟩
    · obtain ⟨rfl, rfl⟩ : inner.prefixed (.key field.1) = failure ∧ mid = after := by
        simpa [fieldsInOrder_cons, first] using returned
      exact ⟨[], field, rest, [], run, inner, rfl, rfl, first, rfl⟩
    rcases later : fieldsInOrder entries rest mid with ⟨other | values, last⟩
    · obtain ⟨rfl, rfl⟩ : other = failure ∧ last = after := by
        simpa [fieldsInOrder_cons, first, later] using returned
      obtain ⟨done, f, others, values, here, inner, rfl, before, fails, rfl⟩ := ih later
      refine ⟨field :: done, f, others, kept entries [(field.1, value)] ++ values, here, inner, rfl,
        ?_, fails, rfl⟩
      rw [fieldsInOrder_cons_ok first, before]
      rfl
    · rw [fieldsInOrder_cons_ok first, later] at returned
      cases returned

theorem fieldsInOrder_stops (before : fieldsInOrder entries done run = (.ok values, mid))
    {f : String × Parser} (fails : f.2 (fieldValue entries f.1) mid = (.error failure, after)) :
    fieldsInOrder entries (done ++ f :: rest) run =
      (.error (failure.prefixed (.key f.1)), after) := by
  rw [fieldsInOrder_append before]
  simp [fieldsInOrder_cons, fails, Step.changed, Except.map]

theorem fieldsInOrder_reports (lawful : ∀ f ∈ rest, f.2.Lawful)
    (before : fieldsInOrder entries done run = (.ok values, mid)) (field : String × Parser) :
    (field.2 (fieldValue entries field.1) mid).2.events <+:
      (fieldsInOrder entries (done ++ field :: rest) run).2.events := by
  rw [fieldsInOrder_append before, Step.changed_run]
  rcases first : field.2 (fieldValue entries field.1) mid with ⟨failure | value, next⟩
  · simp [fieldsInOrder_cons, first]
  · rw [fieldsInOrder_cons_ok first]
    exact (Lawful.fieldsInOrder lawful entries next).extends_events

end Fields

section Candidates

variable {candidates done rest : List (SchemaKind × Parser)} {index : Nat} {input : Value}
  {run mid after : Run} {failures : List Failure} {failure : Failure}

theorem firstOf_cons_refused {c : SchemaKind × Parser}
    (fails : c.2 input run = (.error failure, mid)) (other : failure.isLimit = false)
    (rest : List (SchemaKind × Parser)) :
    firstOf index (c :: rest) input run =
      ((firstOf (index + 1) rest input
          (mid.emit (.candidateRejected index c.1 failure.code))).1.after failure,
        (firstOf (index + 1) rest input
          (mid.emit (.candidateRejected index c.1 failure.code))).2) := by
  simp [firstOf, fails, other]

theorem firstOf_append (before : firstOf index done input run = (.refused failures, mid))
    (rest : List (SchemaKind × Parser)) :
    firstOf index (done ++ rest) input run =
      (failures.foldr Trial.after (firstOf (index + done.length) rest input mid).1,
        (firstOf (index + done.length) rest input mid).2) := by
  induction done generalizing index run failures with
  | nil =>
    obtain ⟨rfl, rfl⟩ : [] = failures ∧ run = mid := by simpa [firstOf] using before
    rfl
  | cons c tail ih =>
    rcases first : c.2 input run with ⟨failure | value, next⟩
    · by_cases limit : failure.isLimit = true
      · simp [firstOf, first, limit] at before
      have other : failure.isLimit = false := by simpa using limit
      rw [firstOf_cons_refused first other] at before
      rcases later : firstOf (index + 1) tail input
        (next.emit (.candidateRejected index c.1 failure.code)) with ⟨trial | stop | others, last⟩
      · simp [later, Trial.after] at before
      · simp [later, Trial.after] at before
      obtain ⟨rfl, rfl⟩ : failure :: others = failures ∧ last = mid := by
        simpa [later, Trial.after] using before
      have place : index + (c :: tail).length = index + 1 + tail.length := by
        rw [List.length_cons]
        omega
      rw [List.cons_append, firstOf_cons_refused first other, ih later, place]
      rfl
    · simp [firstOf, first] at before

theorem firstOf_append_of_ended
    (ended : ∀ failures, (firstOf index done input run).1 ≠ .refused failures)
    (rest : List (SchemaKind × Parser)) :
    firstOf index (done ++ rest) input run = firstOf index done input run := by
  induction done generalizing index run with
  | nil => exact (ended [] rfl).elim
  | cons c tail ih =>
    rcases first : c.2 input run with ⟨failure | value, next⟩
    · by_cases limit : failure.isLimit = true
      · simp [firstOf, first, limit]
      have other : failure.isLimit = false := by simpa using limit
      rw [firstOf_cons_refused first other] at ended
      rw [List.cons_append, firstOf_cons_refused first other, firstOf_cons_refused first other, ih]
      intro failures refused
      exact ended (failure :: failures) (congrArg (Trial.after failure) refused)
    · simp [firstOf, first]

theorem firstOf_stopped_split (returned : firstOf index candidates input run =
    (.stopped failure, after)) :
    ∃ done c rest failures mid stop, candidates = done ++ c :: rest ∧
      firstOf index done input run = (.refused failures, mid) ∧
      c.2 input mid = (.error failure, stop) ∧ failure.isLimit = true ∧
      after = stop.emit (.candidateRejected (index + done.length) c.1 failure.code) := by
  induction candidates generalizing index run with
  | nil => cases returned
  | cons c rest ih =>
    rcases first : c.2 input run with ⟨other | value, mid⟩
    · by_cases limit : other.isLimit = true
      · obtain ⟨rfl, rfl⟩ : other = failure ∧
            mid.emit (.candidateRejected index c.1 other.code) = after := by
          simpa [firstOf, first, limit] using returned
        exact ⟨[], c, rest, [], run, mid, rfl, rfl, first, limit, rfl⟩
      have passed : other.isLimit = false := by simpa using limit
      rw [firstOf_cons_refused first passed] at returned
      rcases later : firstOf (index + 1) rest input
        (mid.emit (.candidateRejected index c.1 other.code)) with ⟨value | stop | others, last⟩
      · simp [later, Trial.after] at returned
      · obtain ⟨rfl, rfl⟩ : stop = failure ∧ last = after := by
          simpa [later, Trial.after] using returned
        obtain ⟨done, d, others, failures, here, trip, rfl, before, fails, trips, rfl⟩ := ih later
        refine ⟨c :: done, d, others, other :: failures, here, trip, rfl, ?_, fails, trips, ?_⟩
        · rw [firstOf_cons_refused first passed, before]
          rfl
        · rw [List.length_cons, Nat.add_right_comm, Nat.add_assoc]
      · simp [later, Trial.after] at returned
    · simp [firstOf, first] at returned

theorem Trial.foldr_after (failures : List Failure) (trial : Trial) :
    failures.foldr Trial.after trial = match trial with
      | .refused others => .refused (failures ++ others)
      | trial => trial := by
  induction failures with
  | nil => cases trial <;> rfl
  | cons failure rest ih =>
    rw [List.foldr_cons, ih]
    cases trial <;> rfl

theorem firstOf_stops (before : firstOf index done input run = (.refused failures, mid))
    {c : SchemaKind × Parser} (fails : c.2 input mid = (.error failure, after))
    (limit : failure.isLimit = true) :
    firstOf index (done ++ c :: rest) input run =
      (.stopped failure,
        after.emit (.candidateRejected (index + done.length) c.1 failure.code)) := by
  rw [firstOf_append before, Trial.foldr_after]
  simp [firstOf, fails, limit]

theorem firstOf_accepts (before : firstOf index done input run = (.refused failures, mid))
    {c : SchemaKind × Parser} {value : Value} (accepts : c.2 input mid = (.ok value, after)) :
    firstOf index (done ++ c :: rest) input run = (.accepted value, after) := by
  rw [firstOf_append before, Trial.foldr_after]
  simp [firstOf, accepts]

theorem firstOf_refuses (before : firstOf index done input run = (.refused failures, mid))
    {c : SchemaKind × Parser} (fails : c.2 input mid = (.error failure, after))
    (other : failure.isLimit = false) :
    firstOf index (done ++ [c]) input run =
      (.refused (failures ++ [failure]),
        after.emit (.candidateRejected (index + done.length) c.1 failure.code)) := by
  rw [firstOf_append before, Trial.foldr_after, firstOf_cons_refused fails other]
  rfl

theorem firstOf_reports (lawful : ∀ c ∈ rest, c.2.Lawful)
    (before : firstOf index done input run = (.refused failures, mid)) (c : SchemaKind × Parser) :
    (c.2 input mid).2.events <+: (firstOf index (done ++ c :: rest) input run).2.events := by
  rw [firstOf_append before]
  rcases first : c.2 input mid with ⟨failure | value, next⟩
  · by_cases limit : failure.isLimit = true
    · simp [firstOf, first, limit, Run.emit, Session.emit]
    have other : failure.isLimit = false := by simpa using limit
    rw [firstOf_cons_refused first other]
    have onward := (Lawful.firstOf lawful .all (index + done.length + 1) input
      (next.emit (.candidateRejected (index + done.length) c.1 failure.code))).1.extends_events
    exact (List.prefix_append next.events _).trans onward
  · simp [firstOf, first]

end Candidates

end Parser

namespace Value

def mapItems (change : List Value → List Value) : Value → Value
  | .array items => .array (change items)
  | v => v

def mapEntries (change : Entries Value → Entries Value) : Value → Value
  | .object entries => .object (change entries)
  | v => v

@[simp] theorem mapItems_id : mapItems id = id := by
  funext v
  cases v <;> rfl

@[simp] theorem mapEntries_id : mapEntries id = id := by
  funext v
  cases v <;> rfl

@[simp] theorem kind_mapItems (change : List Value → List Value) (v : Value) :
    (v.mapItems change).kind = v.kind := by
  cases v <;> rfl

@[simp] theorem kind_mapEntries (change : Entries Value → Entries Value) (v : Value) :
    (v.mapEntries change).kind = v.kind := by
  cases v <;> rfl

end Value

namespace Parser

private def Trial.mapAccepted (change : Value → Value) : Trial → Trial
  | .accepted w => .accepted (change w)
  | trial => trial

private theorem Trial.mapAccepted_after (change : Value → Value) (failure : Failure)
    (trial : Trial) :
    (trial.after failure).mapAccepted change = (trial.mapAccepted change).after failure := by
  cases trial <;> rfl

private theorem Trial.outcome_mapAccepted (change : Value → Value) (detail : UnionFailures)
    (trial : Trial) :
    (trial.mapAccepted change).outcome detail = (trial.outcome detail).map change := by
  cases trial <;> rfl

private theorem asArray_changed (step : Step (List Value)) (change : List Value → List Value) :
    asArray (step.changed change) = (asArray step).changed (Value.mapItems change) := by
  obtain ⟨result, after⟩ := step
  cases result <;> rfl

/-- A change of the outputs of a list, each by the element that it belongs to. -/
structure Itemwise {α : Type} (changes : α → Value → Value)
    (all : List α → List Value → List Value) : Prop where
  nil : all [] [] = []
  cons : ∀ a rest w ws, all (a :: rest) (w :: ws) = changes a w :: all rest ws

theorem Itemwise.zipWith {α : Type} (changes : α → Value → Value) :
    Itemwise changes (List.zipWith changes) :=
  ⟨rfl, fun _ _ _ _ => rfl⟩

theorem Itemwise.unchanged {α : Type} : Itemwise (fun _ : α => id) fun _ => id :=
  ⟨rfl, fun _ _ _ _ => rfl⟩

/-- A change of what a union makes of a value, by the first candidate that accepts it. -/
structure Chooses {α : Type} (depth : Nat) (u : Value) (p : α → Parser)
    (changes : α → Value → Value) (choose : List α → Value → Value) (xs : List α) : Prop where
  accepts : ∀ a ∈ xs, ∀ rest {run : Run} {w : Value}, run.depth = depth →
    (p a u run).1 = .ok w → choose (a :: rest) = changes a
  refuses : ∀ a ∈ xs, ∀ rest {run : Run} {failure : Failure}, run.depth = depth →
    (p a u run).1 = .error failure → failure.isLimit = false → choose (a :: rest) = choose rest

private theorem Chooses.tail {α : Type} {depth : Nat} {u : Value} {p : α → Parser}
    {changes : α → Value → Value} {choose : List α → Value → Value} {a : α} {rest : List α}
    (chooses : Chooses depth u p changes choose (a :: rest)) :
    Chooses depth u p changes choose rest :=
  ⟨fun b member => chooses.accepts b (List.mem_cons_of_mem a member),
    fun b member => chooses.refuses b (List.mem_cons_of_mem a member)⟩

theorem Chooses.unchanged {α : Type} {depth : Nat} {u : Value} {p : α → Parser} {xs : List α} :
    Chooses depth u p (fun _ => id) (fun _ => id) xs :=
  ⟨fun _ _ _ _ _ _ _ => rfl, fun _ _ _ _ _ _ _ _ => rfl⟩

/-- In every run at a depth, the second parser does with a value what the first one does, and
changes what comes out. -/
def Mimics (depth : Nat) (change : Value → Value) (p q : Parser) (v : Value) : Prop :=
  ∀ run, run.depth = depth → q v run = (p v run).changed change

namespace Mimics

variable {depth : Nat} {change : Value → Value} {p q : Parser} {u v : Value}

theorem guarded (inner : Mimics (depth + 1) change p q v) (limit : Nat) :
    Mimics depth change (Parser.guarded limit p) (Parser.guarded limit q) v := by
  intro run start
  by_cases room : run.depth < limit
  · have step := inner { run with depth := run.depth + 1 } (congrArg (· + 1) start)
    simp only [Parser.guarded, room, if_true, step, Step.changed]
  · simp only [Parser.guarded, room, if_false]
    rfl

theorem settled (inner : Mimics depth change p q v) (absent : change .undefined = .undefined)
    (null : change .null = .null) (m : Modifiers) (handles : Bool) :
    Mimics depth change (Parser.settled m handles p) (Parser.settled m handles q) v := by
  intro run start
  cases v with
  | undefined =>
    simp only [Parser.settled]
    split
    · simp only [Step.changed, Except.map, absent]
    · split
      · exact inner run start
      · rfl
  | null =>
    simp only [Parser.settled]
    split
    · simp only [Step.changed, Except.map, null]
    · exact inner run start
  | _ => exact inner run start

section Lists

variable {α : Type} {p q : α → Parser} {changes : α → Value → Value}
  {all : List α → List Value → List Value}

private theorem inOrder {xs : List α} {value : α → Value} (each : Itemwise changes all)
    (lawful : ∀ a ∈ xs, (p a).Lawful)
    (mimics : ∀ a ∈ xs, Mimics depth (changes a) (p a) (q a) (value a)) (position : Nat) {run : Run}
    (start : run.depth = depth) :
    Parser.inOrder position (xs.map fun a => (q a, value a)) run =
      (Parser.inOrder position (xs.map fun a => (p a, value a)) run).changed (all xs) := by
  induction xs generalizing position run with
  | nil =>
    change (Except.ok [], run) = (Except.ok (all [] []), run)
    rw [each.nil]
  | cons a rest ih =>
    have here := mimics a List.mem_cons_self run start
    have kept := (lawful a List.mem_cons_self).keeps_depth depth (value a) run start
    rcases first : p a (value a) run with ⟨failure | w, mid⟩
    · rw [first] at here
      simp only [List.map_cons, Parser.inOrder, first, here]
      rfl
    · rw [first] at here kept
      replace here : q a (value a) run = (.ok (changes a w), mid) := here
      have later := ih (fun b member => lawful b (List.mem_cons_of_mem a member))
        (fun b member => mimics b (List.mem_cons_of_mem a member)) (position + 1) kept
      have before := inOrder_cons_ok (x := (p a, value a)) first position
        (rest.map fun a => (p a, value a))
      have after := inOrder_cons_ok (x := (q a, value a)) here position
        (rest.map fun a => (q a, value a))
      rw [List.map_cons, List.map_cons, before, after, later, Step.changed_changed,
        Step.changed_changed]
      exact congrArg (Step.changed · _) (funext fun ws => (each.cons a rest w ws).symm)

theorem tuple {xs : List α} {items : List Value} {changes : α × Value → Value → Value}
    {all : List (α × Value) → List Value → List Value} (each : Itemwise changes all)
    (lawful : ∀ a ∈ xs, (p a).Lawful)
    (mimics : ∀ x ∈ xs.zip items, Mimics depth (changes x) (p x.1) (q x.1) x.2) :
    Mimics depth (Value.mapItems (all (xs.zip items)))
      (Parser.tuple (xs.map p)) (Parser.tuple (xs.map q)) (.array items) := by
  intro run start
  have zipped : ∀ f : α → Parser,
      (xs.map f).zip items = (xs.zip items).map fun x => (f x.1, x.2) := by
    intro f
    rw [List.zip_map_left]
    rfl
  simp only [Parser.tuple, List.length_map, zipped]
  split
  · have loop := inOrder (p := fun x : α × Value => p x.1) each
      (fun x member => lawful x.1 (List.of_mem_zip member).1) mimics 0 start
    exact (congrArg _ loop).trans (asArray_changed _ _)
  · rfl

private theorem firstOf {xs : List α} {kind : α → SchemaKind} {choose : List α → Value → Value}
    (chooses : Chooses depth u p changes choose xs) (lawful : ∀ a ∈ xs, (p a).Lawful)
    (mimics : ∀ a ∈ xs, Mimics depth (changes a) (p a) (q a) u) (index : Nat) {run : Run}
    (start : run.depth = depth) :
    Parser.firstOf index (xs.map fun a => (kind a, q a)) u run =
      let tried := Parser.firstOf index (xs.map fun a => (kind a, p a)) u run
      (tried.1.mapAccepted (choose xs), tried.2) := by
  induction xs generalizing index run with
  | nil => rfl
  | cons a rest ih =>
    have here := mimics a List.mem_cons_self run start
    have kept := (lawful a List.mem_cons_self).keeps_depth depth u run start
    rcases first : p a u run with ⟨failure | w, mid⟩
    · rw [first] at here kept
      replace here : q a u run = (.error failure, mid) := here
      by_cases limit : failure.isLimit = true
      · simp [Parser.firstOf, first, here, limit, Trial.mapAccepted]
      · have other : failure.isLimit = false := by simpa using limit
        have passed := chooses.refuses a List.mem_cons_self rest start (congrArg Prod.fst first)
          other
        have later := @ih (chooses.tail) (fun b member => lawful b (List.mem_cons_of_mem a member))
          (fun b member => mimics b (List.mem_cons_of_mem a member)) (index + 1)
          (mid.emit (.candidateRejected index (kind a) failure.code)) kept
        rw [List.map_cons, List.map_cons, firstOf_cons_refused (c := (kind a, p a)) first other,
          firstOf_cons_refused (c := (kind a, q a)) here other]
        simp only [later, passed, Trial.mapAccepted_after]
    · rw [first] at here
      replace here : q a u run = (.ok (changes a w), mid) := here
      have taken := chooses.accepts a List.mem_cons_self rest start (congrArg Prod.fst first)
      simp only [List.map_cons, Parser.firstOf, first, here, Trial.mapAccepted, taken]

/-- A candidate is refused on both sides or on none, so both unions take the same one. -/
theorem union {xs : List α} {kind : α → SchemaKind} {choose : List α → Value → Value}
    (chooses : Chooses depth u p changes choose xs) (lawful : ∀ a ∈ xs, (p a).Lawful)
    (mimics : ∀ a ∈ xs, Mimics depth (changes a) (p a) (q a) u) (detail : UnionFailures) :
    Mimics depth (choose xs) (Parser.union detail (xs.map fun a => (kind a, p a)))
      (Parser.union detail (xs.map fun a => (kind a, q a))) u := by
  intro run start
  rw [union_eq, union_eq, firstOf chooses lawful mimics 0 start]
  simp only [Step.changed, Trial.outcome_mapAccepted]

end Lists

theorem array {items : List Value} {changes : Value → Value → Value}
    {all : List Value → List Value → List Value} (each : Itemwise changes all) (lawful : p.Lawful)
    (mimics : ∀ item ∈ items, Mimics depth (changes item) p q item) (size : Bounds Nat) :
    Mimics depth (Value.mapItems (all items)) (Parser.array size p) (Parser.array size q)
      (.array items) := by
  intro run start
  simp only [Parser.array]
  cases size.violation? .arrayLength items.length with
  | some failure => rfl
  | none =>
    have loop := inOrder each (fun _ _ => lawful) mimics 0 start
    exact (congrArg _ loop).trans (asArray_changed _ _)

section Fields

variable {α : Type} {p q : α → Parser} {entries : Entries Value}
  {changes : String × α → Value → Value} {change : String × Value → Option (String × Value)}

private theorem fieldsInOrder {fields : List (String × α)} (lawful : ∀ f ∈ fields, (p f.2).Lawful)
    (mimics : ∀ f ∈ fields, Mimics depth (changes f) (p f.2) (q f.2) (fieldValue entries f.1))
    (kinds : ∀ f ∈ fields, ∀ w, (changes f w).isUndefined = w.isUndefined)
    (declared : ∀ f ∈ fields, ∀ w, change (f.1, w) = some (f.1, changes f w)) {run : Run}
    (start : run.depth = depth) :
    Parser.fieldsInOrder entries (fields.map fun f => (f.1, q f.2)) run =
      (Parser.fieldsInOrder entries (fields.map fun f => (f.1, p f.2)) run).changed
        (List.filterMap change) := by
  induction fields generalizing run with
  | nil => rfl
  | cons f rest ih =>
    have here := mimics f List.mem_cons_self run start
    have kept_depth :=
      (lawful f List.mem_cons_self).keeps_depth depth (fieldValue entries f.1) run start
    rcases first : p f.2 (fieldValue entries f.1) run with ⟨failure | w, mid⟩
    · rw [first] at here
      simp only [List.map_cons, fieldsInOrder_cons, first, here]
      rfl
    · rw [first] at here kept_depth
      replace here : q f.2 (fieldValue entries f.1) run = (.ok (changes f w), mid) := here
      have later := ih (fun g member => lawful g (List.mem_cons_of_mem f member))
        (fun g member => mimics g (List.mem_cons_of_mem f member))
        (fun g member => kinds g (List.mem_cons_of_mem f member))
        (fun g member => declared g (List.mem_cons_of_mem f member)) kept_depth
      have before := fieldsInOrder_cons_ok (f := (f.1, p f.2)) first
        (rest.map fun f => (f.1, p f.2))
      have after := fieldsInOrder_cons_ok (f := (f.1, q f.2)) here (rest.map fun f => (f.1, q f.2))
      -- the field stays on both sides or on none
      have stays : kept entries [(f.1, changes f w)] =
          (kept entries [(f.1, w)]).filterMap change := by
        simp only [kept, List.filter_cons, List.filter_nil, kinds f List.mem_cons_self]
        split
        · rw [List.filterMap_cons_some (declared f List.mem_cons_self w)]
          rfl
        · rfl
      rw [List.map_cons, List.map_cons, before, after, later, Step.changed_changed,
        Step.changed_changed, stays]
      congr 1
      exact funext fun ws => List.filterMap_append.symm

theorem object {fields : List (String × α)} {policy policy' : UnknownKeys}
    (lawful : ∀ f ∈ fields, (p f.2).Lawful)
    (mimics : ∀ f ∈ fields,
      Mimics depth (changes f) (p f.2) (q f.2) (fieldValue entries f.1))
    (kinds : ∀ f ∈ fields, ∀ w, (changes f w).isUndefined = w.isUndefined)
    (declared : ∀ f ∈ fields, ∀ w, change (f.1, w) = some (f.1, changes f w))
    (undeclared : ∀ values, withUndeclared policy' (Entries.without entries fields)
        (values.filterMap change) =
      (withUndeclared policy (Entries.without entries fields) values).map
        (Value.mapEntries (List.filterMap change))) :
    Mimics depth (Value.mapEntries (List.filterMap change))
      (Parser.object policy (fields.map fun f => (f.1, p f.2)))
      (Parser.object policy' (fields.map fun f => (f.1, q f.2))) (.object entries) := by
  intro run start
  have loop := fieldsInOrder lawful mimics kinds declared start
  have without : ∀ f : α → Parser,
      Entries.without entries (fields.map fun g => (g.1, f g.2)) = Entries.without entries fields :=
    fun f => Entries.without_congr entries (Entries.names_map ..)
  simp only [Parser.object, loop, without]
  rcases returned : Parser.fieldsInOrder entries (fields.map fun f => (f.1, p f.2)) run with
    ⟨failure | values, after⟩
  · simp only [returned]
    rfl
  · simp only [returned]
    exact congrArg (·, after) (undeclared values)

end Fields

end Mimics

end Parser

end ValueSchema
