import Mathlib.Data.List.Forall2
import ValueSchema.Proofs.Parser.Lawful
import ValueSchema.Proofs.Parser.Outputs
import ValueSchema.Proofs.Schema.Nodes

/-!
Two parses in step. A correspondence says how two values may differ in the entries of their objects,
and how two failures may differ, in such a way that every part of a schema keeps both.
-/

set_option autoImplicit false
set_option relaxedAutoImplicit false

namespace ValueSchema

namespace Schema

/-- Two schemas that are the same but for the bounds of their strings and arrays, which are in a
relation wherever they stand. -/
inductive Resized (R : Bounds Nat → Bounds Nat → Prop) : Schema → Schema → Prop
  | primitive (m : Modifiers) (p : Primitive) : Resized R (.primitive m p) (.primitive m p)
  | string {m : Modifiers} {size size' : Bounds Nat} (sizes : R size size') :
      Resized R (.primitive m (.string size)) (.primitive m (.string size'))
  | array {m : Modifiers} {size size' : Bounds Nat} {element element' : Schema}
      (sizes : R size size') (below : Resized R element element') :
      Resized R (.array m size element) (.array m size' element')
  | tuple {m : Modifiers} {items items' : List Schema} (length : items.length = items'.length)
      (each : ∀ x ∈ items.zip items', Resized R x.1 x.2) :
      Resized R (.tuple m items) (.tuple m items')
  | object {m : Modifiers} {unknownKeys : UnknownKeys} {fields fields' : List (String × Schema)}
      (names : Entries.names fields = Entries.names fields')
      (each : ∀ x ∈ fields.zip fields', Resized R x.1.2 x.2.2) :
      Resized R (.object m unknownKeys fields) (.object m unknownKeys fields')
  | union {m : Modifiers} {candidates candidates' : List Schema}
      (length : candidates.length = candidates'.length)
      (each : ∀ x ∈ candidates.zip candidates', Resized R x.1 x.2) :
      Resized R (.union m candidates) (.union m candidates')

namespace Resized

variable {R : Bounds Nat → Bounds Nat → Prop} {s t : Schema}

private theorem refl (keeps : ∀ size, R size size) (s : Schema) : s.Resized R s := by
  induction s using Schema.induction with
  | primitive m p => exact .primitive m p
  | array m size element ih => exact .array (keeps size) ih
  | tuple m items ih =>
    have each := List.forall₂_same.2 ih
    exact .tuple rfl fun x member => (List.forall₂_iff_zip.1 each).2 member
  | object m unknownKeys fields ih =>
    have each : List.Forall₂ (fun f g => f.2.Resized R g.2) fields fields := List.forall₂_same.2 ih
    exact .object rfl fun x member => (List.forall₂_iff_zip.1 each).2 member
  | union m candidates ih =>
    have each := List.forall₂_same.2 ih
    exact .union rfl fun x member => (List.forall₂_iff_zip.1 each).2 member

theorem imp {Q : Bounds Nat → Bounds Nat → Prop} (wider : ∀ size size', R size size' → Q size size')
    (resized : s.Resized R t) : s.Resized Q t := by
  induction resized with
  | primitive m p => exact .primitive m p
  | string sizes => exact .string (wider _ _ sizes)
  | array sizes _ ih => exact .array (wider _ _ sizes) ih
  | tuple length _ ih => exact .tuple length ih
  | object names _ ih => exact .object names ih
  | union length _ ih => exact .union length ih

private theorem kind_eq (resized : s.Resized R t) : s.kind = t.kind := by
  cases resized <;> rfl

private theorem modifiers_eq (resized : s.Resized R t) : s.modifiers = t.modifiers := by
  cases resized <;> rfl

private theorem handlesUndefined_eq (resized : s.Resized R t) :
    s.handlesUndefined = t.handlesUndefined := by
  induction resized with
  | @union m candidates candidates' length each ih =>
    have admits : List.Forall₂ (fun s t => s.modifiers.admitUndefined = t.modifiers.admitUndefined ∧
        s.handlesUndefined = t.handlesUndefined) candidates candidates' :=
      List.forall₂_iff_zip.2 ⟨length, fun member =>
        ⟨congrArg Modifiers.admitUndefined (each _ member).modifiers_eq, ih _ member⟩⟩
    rw [handlesUndefined, handlesUndefined]
    clear length each ih
    induction admits with
    | nil => rfl
    | cons head _ rest => rw [anyAdmitsUndefined, anyAdmitsUndefined, head.1, head.2, rest]
  | _ => rfl

end Resized

end Schema

private theorem related_zip {α β γ δ : Type} {R : α → β → Prop} {S : γ → δ → Prop} {as : List α}
    {bs : List β} {cs : List γ} {ds : List δ} (first : List.Forall₂ R as bs)
    (second : List.Forall₂ S cs ds) :
    List.Forall₂ (fun x y => R x.1 y.1 ∧ S x.2 y.2) (as.zip cs) (bs.zip ds) := by
  induction first generalizing cs ds with
  | nil => exact .nil
  | cons head _ ih =>
    cases second with
    | nil => exact .nil
    | cons head' tail' => exact .cons ⟨head, head'⟩ (ih tail')

private theorem related_fields {α β : Type} {R : String × α → String × β → Prop}
    {fields : List (String × α)} {fields' : List (String × β)}
    (names : Entries.names fields = Entries.names fields')
    (each : ∀ x ∈ fields.zip fields', R x.1 x.2) :
    List.Forall₂ (fun f g => f.1 = g.1 ∧ R f g) fields fields' := by
  have same : List.Forall₂ (fun f g => f.1 = g.1) fields fields' := by
    rw [Entries.names, Entries.names, ← List.forall₂_eq_eq_eq, List.forall₂_map_left_iff,
      List.forall₂_map_right_iff] at names
    exact names
  obtain ⟨length, same⟩ := List.forall₂_iff_zip.1 same
  exact List.forall₂_iff_zip.2 ⟨length, fun member => ⟨same member, each _ member⟩⟩

/-- Two outcomes with the same state after them: results in one relation, or failures in another. -/
inductive Agree {α σ : Type} (V : α → α → Prop) (F : Failure → Failure → Prop) :
    Except Failure α × σ → Except Failure α × σ → Prop
  | ok {x y : α} {state : σ} (results : V x y) : Agree V F (.ok x, state) (.ok y, state)
  | error {f g : Failure} {state : σ} (failures : F f g) :
      Agree V F (.error f, state) (.error g, state)

theorem Agree.cases {α σ : Type} {V : α → α → Prop} {F : Failure → Failure → Prop}
    {a b : Except Failure α × σ} (agree : Agree V F a b) :
    (∃ f g state, a = (.error f, state) ∧ b = (.error g, state) ∧ F f g) ∨
      ∃ x y state, a = (.ok x, state) ∧ b = (.ok y, state) ∧ V x y := by
  cases agree with
  | ok results => exact .inr ⟨_, _, _, rfl, rfl, results⟩
  | error failures => exact .inl ⟨_, _, _, rfl, rfl, failures⟩

theorem Agree.imp {α σ : Type} {V W : α → α → Prop} {F G : Failure → Failure → Prop}
    {a b : Except Failure α × σ} (agree : Agree V F a b) (results : ∀ x y, V x y → W x y)
    (failures : ∀ f g, F f g → G f g) : Agree W G a b := by
  cases agree with
  | ok related => exact .ok (results _ _ related)
  | error related => exact .error (failures _ _ related)

/-- How two parses may differ, in their values and in their failures. Their settings may differ in
the detail of failed unions. -/
structure Correspondence (detail detail' : UnionFailures) where
  /-- How the lists of entries of two objects may differ. -/
  lists : Entries Value → Entries Value → Prop
  failures : Failure → Failure → Prop
  /-- The policies and declared names of the object schemas that keep to it. -/
  admits : UnknownKeys → List String → Prop
  here (cause : Cause) : failures (.here cause) (.here cause)
  prefixed {f g : Failure} (segment : Segment) :
    failures f g → failures (f.prefixed segment) (g.prefixed segment)
  path {f g : Failure} : failures f g → f.path = g.path
  code {f g : Failure} : failures f g → f.code = g.code
  exhausted {fs gs : List Failure} : List.Forall₂ failures fs gs →
    failures (.exhausted [] (Parser.reported detail fs))
      (.exhausted [] (Parser.reported detail' gs))
  /-- The objects made of alike entries and of alike fields are alike. -/
  made {policy : UnknownKeys} {entries entries' all all' : Entries Value} :
    admits policy (Entries.names all) →
    Value.Alike lists (.object entries) (.object entries') →
    List.Forall₂ (fun a b => a.1 = b.1 ∧ Value.Alike lists a.2 b.2) all all' →
    Value.Alike lists (.object (Parser.output policy entries all))
      (.object (Parser.output policy entries' all'))
  /-- Both objects have undeclared entries, or none. -/
  undeclared {entries entries' all : Entries Value} :
    admits .strict (Entries.names all) →
    Value.Alike lists (.object entries) (.object entries') →
    (Entries.without entries all).isEmpty = (Entries.without entries' all).isEmpty ∧
    failures (.here (.unrecognizedKeys (Entries.names (Entries.without entries all))))
      (.here (.unrecognizedKeys (Entries.names (Entries.without entries' all))))

namespace Correspondence

variable {detail detail' : UnionFailures} (c : Correspondence detail detail')

def Alike : Value → Value → Prop := Value.Alike c.lists

private def InStep (p q : Parser) : Prop :=
  ∀ ⦃v w⦄, c.Alike v w → ∀ run, Agree c.Alike c.failures (p v run) (q w run)

/-- Bounds that allow the same sizes, and refuse the others with corresponding failures. -/
def SameSizes (size size' : Bounds Nat) : Prop :=
  ∀ subject actual,
    Option.Rel c.failures (size.violation? subject actual) (size'.violation? subject actual)

variable {c} {p q : Parser}

theorem SameSizes.refl (size : Bounds Nat) : c.SameSizes size size := by
  intro subject actual
  cases found : size.violation? subject actual with
  | none => exact .none
  | some failure =>
    obtain ⟨b, -, -, rfl⟩ := Bounds.of_violation?_eq_some found
    exact .some (c.here _)

private theorem InStep.guarded (inner : c.InStep p q) (limit : Nat) :
    c.InStep (.guarded limit p) (.guarded limit q) := by
  intro v w alike run
  by_cases room : run.depth < limit
  · have step := inner alike { run with depth := run.depth + 1 }
    simp only [Parser.guarded, room, if_true]
    rcases step.cases with ⟨f, g, mid, left, right, same⟩ | ⟨x, y, mid, left, right, same⟩
    · rw [left, right]
      exact .error same
    · rw [left, right]
      exact .ok same
  · simp only [Parser.guarded, room, if_false]
    exact .error (c.here _)

private theorem InStep.settled (inner : c.InStep p q) (m : Modifiers) (handles : Bool) :
    c.InStep (.settled m handles p) (.settled m handles q) := by
  intro v w alike run
  have checked := inner alike run
  cases alike with
  | same =>
    cases v with
    | undefined =>
      simp only [Parser.settled]
      split
      · exact .ok (.same .undefined)
      · split
        · exact checked
        · exact .error (c.here .missing)
    | null =>
      simp only [Parser.settled]
      split
      · exact .ok (.same .null)
      · exact checked
    | _ => exact checked
  | array => exact checked
  | object => exact checked

private theorem InStep.resolved (inner : c.InStep p q) (m : Modifiers) (handles : Bool) :
    c.InStep (.resolved m handles p) (.resolved m handles q) := by
  intro v w alike run
  have plain := inner.settled m handles
  have asIs := plain alike run
  cases alike with
  | same =>
    cases v with
    | undefined =>
      simp only [Parser.resolved]
      cases m.default? with
      | none => exact asIs
      | some d => exact plain (.same (run.produce d).1) (run.produce d).2
    | _ => exact asIs
  | array => exact asIs
  | object => exact asIs

private theorem inStep_primitive (p : Primitive) :
    c.InStep (fun input run => (p.check input, run)) fun input run => (p.check input, run) := by
  intro v w alike run
  cases alike with
  | same =>
    show Agree c.Alike c.failures (p.check v, run) (p.check v, run)
    rcases p.check_cases v with accepted | ⟨mismatch, -⟩ | ⟨cause, violated, -⟩
    · rw [accepted]
      exact .ok (.same v)
    · rw [mismatch]
      exact .error (c.here _)
    · rw [violated]
      exact .error (c.here cause)
  | array => cases p <;> exact .error (c.here _)
  | object => cases p <;> exact .error (c.here _)

private theorem inStep_string {size size' : Bounds Nat} (sizes : c.SameSizes size size') :
    c.InStep (fun input run => ((Primitive.string size).check input, run))
      fun input run => ((Primitive.string size').check input, run) := by
  intro v w alike run
  cases alike with
  | same =>
    cases v with
    | string s =>
      have checked := sizes .stringLength s.utf8ByteSize
      show Agree c.Alike c.failures ((Primitive.string size).check (.string s), run)
        ((Primitive.string size').check (.string s), run)
      simp only [Primitive.check, Bounds.check]
      generalize size.violation? .stringLength s.utf8ByteSize = found at checked
      generalize size'.violation? .stringLength s.utf8ByteSize = found' at checked
      cases checked with
      | none => exact .ok (.same _)
      | some failures => exact .error failures
    | _ => exact .error (c.here _)
  | array => exact .error (c.here _)
  | object => exact .error (c.here _)

private theorem inOrder_inStep {items items' : List (Parser × Value)}
    (inner : List.Forall₂ (fun a b => c.InStep a.1 b.1 ∧ c.Alike a.2 b.2) items items')
    (position : Nat) (run : Run) :
    Agree (List.Forall₂ c.Alike) c.failures (Parser.inOrder position items run)
      (Parser.inOrder position items' run) := by
  induction inner generalizing position run with
  | nil => exact .ok .nil
  | @cons a b rest rest' head _ ih =>
    have first := head.1 head.2 run
    simp only [Parser.inOrder]
    rcases first.cases with ⟨f, g, mid, left, right, same⟩ | ⟨x, y, mid, left, right, same⟩
    · simp only [left, right]
      exact .error (c.prefixed (.index position) same)
    · have later := ih (position + 1) mid
      rcases later.cases with ⟨f, g, after, left', right', others⟩ |
        ⟨xs, ys, after, left', right', others⟩
      · simp only [left, right, left', right']
        exact .error others
      · simp only [left, right, left', right']
        exact .ok (.cons same others)

private theorem asArray_inStep {a b : Step (List Value)}
    (agree : Agree (List.Forall₂ c.Alike) c.failures a b) :
    Agree c.Alike c.failures (Parser.asArray a) (Parser.asArray b) := by
  cases agree with
  | ok items => exact .ok (Value.Alike.array_iff.2 items)
  | error failures => exact .error failures

private theorem Alike.array_cases {v w : Value} (alike : c.Alike v w) :
    (∃ items items', v = .array items ∧ w = .array items' ∧ List.Forall₂ c.Alike items items') ∨
      (v.kind ≠ .array ∧ w.kind = v.kind) := by
  have kind := alike.kind_eq
  cases v with
  | array items =>
    cases w with
    | array items' => exact .inl ⟨items, items', rfl, rfl, Value.Alike.array_iff.1 alike⟩
    | _ => cases kind
  | _ => exact .inr ⟨nofun, kind.symm⟩

private theorem Alike.object_cases {v w : Value} (alike : c.Alike v w) :
    (∃ entries entries', v = .object entries ∧ w = .object entries') ∨
      (v.kind ≠ .object ∧ w.kind = v.kind) := by
  have kind := alike.kind_eq
  cases v with
  | object entries =>
    cases w with
    | object entries' => exact .inl ⟨entries, entries', rfl, rfl⟩
    | _ => cases kind
  | _ => exact .inr ⟨nofun, kind.symm⟩

private theorem InStep.array (inner : c.InStep p q) {size size' : Bounds Nat}
    (sizes : c.SameSizes size size') : c.InStep (.array size p) (.array size' q) := by
  intro v w alike run
  rcases alike.array_cases with ⟨items, items', rfl, rfl, each⟩ | ⟨other, kind⟩
  · have checked := sizes .arrayLength items'.length
    simp only [Parser.array, each.length_eq]
    generalize size.violation? .arrayLength items'.length = found at checked
    generalize size'.violation? .arrayLength items'.length = found' at checked
    cases checked with
    | some failures => exact .error failures
    | none =>
      apply asArray_inStep
      apply inOrder_inStep
      rw [List.forall₂_map_left_iff, List.forall₂_map_right_iff]
      exact each.imp fun _ _ same => ⟨inner, same⟩
  · rw [Parser.array_mismatch other, Parser.array_mismatch (kind ▸ other), kind]
    exact .error (c.here _)

private theorem InStep.tuple {parsers parsers' : List Parser}
    (inner : List.Forall₂ c.InStep parsers parsers') :
    c.InStep (.tuple parsers) (.tuple parsers') := by
  intro v w alike run
  rcases alike.array_cases with ⟨items, items', rfl, rfl, each⟩ | ⟨other, kind⟩
  · simp only [Parser.tuple, each.length_eq, inner.length_eq]
    split
    next =>
      apply asArray_inStep
      apply inOrder_inStep
      exact related_zip inner each
    next => exact .error (c.here _)
  · rw [Parser.tuple_mismatch other, Parser.tuple_mismatch (kind ▸ other), kind]
    exact .error (c.here _)

private theorem fieldsInOrder_inStep {fields fields' : List (String × Parser)}
    (inner : List.Forall₂ (fun f g => f.1 = g.1 ∧ c.InStep f.2 g.2) fields fields')
    {entries entries' : Entries Value} (alike : c.Alike (.object entries) (.object entries'))
    (run : Run) :
    Agree (fun made made' => ∃ all all', Entries.names all = Entries.names fields ∧
        List.Forall₂ (fun a b => a.1 = b.1 ∧ c.Alike a.2 b.2) all all' ∧
        made = Parser.kept entries all ∧ made' = Parser.kept entries' all') c.failures
      (Parser.fieldsInOrder entries fields run) (Parser.fieldsInOrder entries' fields' run) := by
  induction inner generalizing run with
  | nil => exact .ok ⟨[], [], rfl, .nil, rfl, rfl⟩
  | @cons f g rest rest' head _ ih =>
    have first := head.2 (alike.fieldValue f.1) run
    rw [Parser.fieldsInOrder_cons, Parser.fieldsInOrder_cons, ← head.1]
    rcases first.cases with ⟨e, e', mid, left, right, same⟩ | ⟨x, y, mid, left, right, same⟩
    · simp only [left, right]
      exact .error (c.prefixed (.key f.1) same)
    · have later := ih mid
      rcases later.cases with ⟨e, e', after, left', right', others⟩ |
        ⟨_, _, after, left', right', all, all', names, each, rfl, rfl⟩
      · simp only [left, right, left', right']
        exact .error others
      · have longer : Entries.names ((f.1, x) :: all) = Entries.names (f :: rest) :=
          congrArg₂ List.cons rfl names
        have alikes : List.Forall₂ (fun a b => a.1 = b.1 ∧ c.Alike a.2 b.2)
            ((f.1, x) :: all) ((f.1, y) :: all') := .cons ⟨rfl, same⟩ each
        simp only [left, right, left', right', Parser.kept_cons]
        exact .ok ⟨_, _, longer, alikes, rfl, rfl⟩

private theorem InStep.object {fields fields' : List (String × Parser)}
    (inner : List.Forall₂ (fun f g => f.1 = g.1 ∧ c.InStep f.2 g.2) fields fields')
    {policy : UnknownKeys} (admits : c.admits policy (Entries.names fields)) :
    c.InStep (.object policy fields) (.object policy fields') := by
  intro v w alike run
  rcases alike.object_cases with ⟨entries, entries', rfl, rfl⟩ | ⟨other, kind⟩
  · rcases (fieldsInOrder_inStep inner alike run).cases with ⟨f, g, mid, left, right, same⟩ |
      ⟨_, _, mid, left, right, all, all', names, each, rfl, rfl⟩
    · simp only [Parser.object, left, right]
      exact .error same
    · have names' : Entries.names fields' = Entries.names fields := Parser.names_eq_of_forall₂ inner
      have declared : Entries.names all' = Entries.names all := Parser.names_eq_of_forall₂ each
      rw [← names] at admits
      have made := c.made admits alike each
      have undeclared := fun strict : policy = .strict => c.undeclared (strict ▸ admits) alike
      rw [Entries.without_congr entries names, Entries.without_congr entries' names] at undeclared
      simp only [Parser.object, left, right, Parser.withUndeclared_eq,
        Entries.without_congr entries' names', Parser.output_eq names,
        Parser.output_eq (declared.trans names)]
      by_cases strict : policy = .strict
      · obtain ⟨empty, keys⟩ := undeclared strict
        rw [empty]
        split
        · exact .error keys
        · exact .ok made
      · simp only [strict, false_and, if_false]
        exact .ok made
  · rw [Parser.object_mismatch other, Parser.object_mismatch (kind ▸ other), kind]
    exact .error (c.here _)

inductive Trials (c : Correspondence detail detail') : Parser.Trial → Parser.Trial → Prop
  | accepted {v w : Value} (alike : c.Alike v w) : Trials c (.accepted v) (.accepted w)
  | stopped {f g : Failure} (failures : c.failures f g) : Trials c (.stopped f) (.stopped g)
  | refused {fs gs : List Failure} (failures : List.Forall₂ c.failures fs gs) :
      Trials c (.refused fs) (.refused gs)

private theorem Trials.after {f g : Failure} (failures : c.failures f g) {a b : Parser.Trial}
    (later : Trials c a b) : Trials c (a.after f) (b.after g) := by
  cases later with
  | accepted alike => exact .accepted alike
  | stopped limit => exact .stopped limit
  | refused others => exact .refused (.cons failures others)

private theorem firstOf_inStep {candidates candidates' : List (SchemaKind × Parser)}
    (inner : List.Forall₂ (fun a b => a.1 = b.1 ∧ c.InStep a.2 b.2) candidates candidates')
    {v w : Value} (alike : c.Alike v w) (index : Nat) (run : Run) :
    Trials c (Parser.firstOf index candidates v run).1 (Parser.firstOf index candidates' w run).1 ∧
      (Parser.firstOf index candidates v run).2 = (Parser.firstOf index candidates' w run).2 := by
  induction inner generalizing index run with
  | nil => exact ⟨.refused .nil, rfl⟩
  | @cons a b rest rest' head _ ih =>
    have first := head.2 alike run
    rcases first.cases with ⟨f, g, mid, left, right, failures⟩ | ⟨x, y, mid, left, right, same⟩
    · -- codes are reported, and tell whether the union goes on
      have code := c.code failures
      have limit : f.isLimit = g.isLimit := by rw [Failure.isLimit, Failure.isLimit, code]
      simp only [Parser.firstOf, left, right, ← head.1, ← code, ← limit]
      split
      · exact ⟨.stopped failures, rfl⟩
      · obtain ⟨trials, state⟩ :=
          ih (index + 1) (mid.emit (.candidateRejected index a.1 f.code))
        exact ⟨trials.after failures, state⟩
    · simp only [Parser.firstOf, left, right]
      exact ⟨.accepted same, trivial⟩

private theorem InStep.union {candidates candidates' : List (SchemaKind × Parser)}
    (inner : List.Forall₂ (fun a b => a.1 = b.1 ∧ c.InStep a.2 b.2) candidates candidates') :
    c.InStep (.union detail candidates) (.union detail' candidates') := by
  intro v w alike run
  obtain ⟨trials, state⟩ := firstOf_inStep inner alike 0 run
  rw [Parser.union_eq, Parser.union_eq, ← state]
  generalize (Parser.firstOf 0 candidates v run).1 = trial at trials
  generalize (Parser.firstOf 0 candidates' w run).1 = trial' at trials
  cases trials with
  | accepted same => exact .ok same
  | stopped failures => exact .error failures
  | refused failures => exact .error (c.exhausted failures)

/-- Object schemas whose policy and declared names the correspondence admits. -/
def Admits (c : Correspondence detail detail') (o : Options) : Schema → Prop
  | .object _ unknownKeys fields =>
    c.admits (o.unknownKeys?.getD unknownKeys) (Entries.names fields)
  | _ => True

variable {o : Options}

theorem admits_everywhere (always : ∀ policy names, c.admits policy names) (s : Schema) :
    s.Everywhere (c.Admits o) := by
  refine .of_forall (fun t => ?_) s
  cases t with
  | object m unknownKeys fields => exact always _ _
  | _ => trivial

private theorem InStep.entering {s t : Schema} (resized : s.Resized c.SameSizes t)
    (inner : c.InStep (s.check { o with unionFailures := detail })
      (t.check { o with unionFailures := detail' })) :
    c.InStep (s.enter { o with unionFailures := detail })
      (t.enter { o with unionFailures := detail' }) := by
  rw [Schema.enter_eq, Schema.enter_eq, ← resized.modifiers_eq, ← resized.handlesUndefined_eq]
  exact (inner.resolved s.modifiers s.handlesUndefined).guarded o.maxDepth

private theorem enter_inStep_resized {s t : Schema} (resized : s.Resized c.SameSizes t)
    (admits : s.Everywhere (c.Admits o)) :
    c.InStep (s.enter { o with unionFailures := detail })
      (t.enter { o with unionFailures := detail' }) := by
  induction resized with
  | primitive m p =>
    apply InStep.entering (.primitive m p)
    exact inStep_primitive p
  | string sizes =>
    apply InStep.entering (.string sizes)
    exact inStep_string sizes
  | array sizes below ih =>
    apply InStep.entering (.array sizes below)
    rw [Schema.check_array, Schema.check_array]
    exact (ih admits.element).array sizes
  | tuple length each ih =>
    apply InStep.entering (.tuple length each)
    rw [Schema.check_tuple, Schema.check_tuple]
    apply InStep.tuple
    rw [List.forall₂_map_left_iff, List.forall₂_map_right_iff]
    exact List.forall₂_iff_zip.2 ⟨length, fun member =>
      ih _ member (admits.item (List.of_mem_zip member).1)⟩
  | object names each ih =>
    apply InStep.entering (.object names each)
    rw [Schema.check_object, Schema.check_object]
    apply InStep.object
    · rw [List.forall₂_map_left_iff, List.forall₂_map_right_iff]
      exact related_fields names fun x member =>
        ih x member (admits.field (List.of_mem_zip member).1)
    · rw [Entries.names_map]
      exact admits.self
  | union length each ih =>
    apply InStep.entering (.union length each)
    rw [Schema.check_union, Schema.check_union]
    apply InStep.union
    rw [List.forall₂_map_left_iff, List.forall₂_map_right_iff]
    exact List.forall₂_iff_zip.2 ⟨length, fun member =>
      ⟨(each _ member).kind_eq, ih _ member (admits.candidate (List.of_mem_zip member).1)⟩⟩

theorem parse_agree_resized (c : Correspondence detail detail') {s t : Schema}
    (resized : s.Resized c.SameSizes t) (admits : s.Everywhere (c.Admits o)) {v w : Value}
    (alike : c.Alike v w) (session : Session) :
    Agree c.Alike c.failures (s.parse { o with unionFailures := detail } v session)
      (t.parse { o with unionFailures := detail' } w session) := by
  have entered := enter_inStep_resized resized admits alike ⟨session, 0⟩
  rcases entered.cases with ⟨f, g, mid, left, right, failures⟩ | ⟨x, y, mid, left, right, same⟩
  · simp only [Schema.parse, left, right, c.path failures, c.code failures]
    exact .error failures
  · simp only [Schema.parse, left, right]
    exact .ok same

/-- Whole parses of alike values agree: what they report, what they call, and what comes of them. -/
theorem parse_agree (c : Correspondence detail detail') (s : Schema)
    (admits : s.Everywhere (c.Admits o)) {v w : Value} (alike : c.Alike v w) (session : Session) :
    Agree c.Alike c.failures (s.parse { o with unionFailures := detail } v session)
      (s.parse { o with unionFailures := detail' } w session) :=
  c.parse_agree_resized (.refl SameSizes.refl s) admits alike session

end Correspondence

end ValueSchema
