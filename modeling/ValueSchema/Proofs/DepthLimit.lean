import ValueSchema.Proofs.Parser.Lawful
import ValueSchema.Proofs.Schema.Nodes

/-!
Two runs side by side. The limit on nested schemas only cuts parses off: one that does not end at
the limit comes out the same under every higher limit.
-/

set_option autoImplicit false
set_option relaxedAutoImplicit false

namespace ValueSchema

section Refinement

variable {α β : Type} {R : Session → Session → Prop}

/-- Two steps with the same result, in related sessions, each at the depth it started from. -/
structure Step.Matches (R : Session → Session → Prop) (run run' : Run) (a b : Step α) : Prop where
  result : a.1 = b.1
  session : R a.2.toSession b.2.toSession
  depth : a.2.depth = run.depth
  depth' : b.2.depth = run'.depth

/-- The first step trips over the limit, or the second one matches it. -/
def Step.Refines (R : Session → Session → Prop) (run run' : Run) (a b : Step α) : Prop :=
  tripped a.1 = true ∨ Step.Matches R run run' a b

/-- A default puts the same value in place of an absent one in related sessions. -/
def Default.Respects (R : Session → Session → Prop) (d : Default) : Prop :=
  ∀ a b, R a b → (a.produce d).1 = (b.produce d).1 ∧ R (a.produce d).2 (b.produce d).2

private theorem Step.Refines.cases {run run' : Run} {a b : Step α}
    (step : Step.Refines R run run' a b) :
    (∃ failure mid, a = (.error failure, mid) ∧ failure.isLimit = true) ∨
    (∃ failure mid mid', a = (.error failure, mid) ∧ b = (.error failure, mid') ∧
      Step.Matches R run run' ((.error failure, mid) : Step α) (.error failure, mid')) ∨
    ∃ value mid mid', a = (.ok value, mid) ∧ b = (.ok value, mid') ∧
      Step.Matches R run run' ((.ok value, mid) : Step α) (.ok value, mid') := by
  obtain ⟨result, mid⟩ := a
  obtain ⟨result', mid'⟩ := b
  rcases step with trips | same
  · cases result with
    | ok value => cases trips
    | error failure => exact .inl ⟨failure, mid, rfl, trips⟩
  · obtain rfl : result = result' := same.result
    cases result with
    | error failure => exact .inr (.inl ⟨failure, mid, mid', rfl, rfl, same⟩)
    | ok value => exact .inr (.inr ⟨value, mid, mid', rfl, rfl, same⟩)

namespace Step.Matches

variable {run run' mid mid' after after' : Run}

theorem refl_result (related : R run.toSession run'.toSession) (result : Except Failure α) :
    Matches R run run' (result, run) (result, run') := ⟨rfl, related, rfl, rfl⟩

private theorem replace {x y : Except Failure α} (step : Matches R run run' (x, after) (y, after'))
    (z : Except Failure β) : Matches R run run' (z, after) (z, after') :=
  ⟨rfl, step.session, step.depth, step.depth'⟩

private theorem trans {x y : Except Failure α} {a b : Step β}
    (first : Matches R run run' (x, mid) (y, mid')) (second : Matches R mid mid' a b) :
    Matches R run run' a b where
  result := second.result
  session := second.session
  depth := second.depth.trans first.depth
  depth' := second.depth'.trans first.depth'

end Step.Matches

namespace Parser

def Refines (R : Session → Session → Prop) (limit limit' : Nat) (p q : Parser) : Prop :=
  ∀ input run run', R run.toSession run'.toSession → limit + run'.depth ≤ limit' + run.depth →
    Step.Refines R run run' (p input run) (q input run')

namespace Refines

variable {limit limit' : Nat} {p q : Parser}

theorem guarded (inner : Refines R limit limit' p q) :
    Refines R limit limit' (Parser.guarded limit p) (Parser.guarded limit' q) := by
  intro input run run' related room
  by_cases below : run.depth < limit
  · -- `room` is kept on both sides of the step into the schema
    have below' : run'.depth < limit' := by omega
    have step := inner input { run with depth := run.depth + 1 }
      { run' with depth := run'.depth + 1 } related (by simp only; omega)
    rcases entered : p input { run with depth := run.depth + 1 } with ⟨result, after⟩
    rcases entered' : q input { run' with depth := run'.depth + 1 } with ⟨result', after'⟩
    rw [entered, entered'] at step
    simp only [Parser.guarded, below, below', if_true, entered, entered']
    rcases step with trips | same
    · exact .inl trips
    · have left : after.depth = run.depth + 1 := same.depth
      have left' : after'.depth = run'.depth + 1 := same.depth'
      exact .inr ⟨same.result, same.session, by simp only; omega, by simp only; omega⟩
  · simp only [Parser.guarded, below, if_false]
    exact .inl rfl

theorem settled (inner : Refines R limit limit' p q) (m : Modifiers) (handles : Bool) :
    Refines R limit limit' (Parser.settled m handles p) (Parser.settled m handles q) := by
  intro input run run' related room
  cases input with
  | undefined =>
    simp only [Parser.settled]
    split
    · exact .inr (.refl_result related _)
    · split
      · exact inner .undefined run run' related room
      · exact .inr (.refl_result related _)
  | null =>
    simp only [Parser.settled]
    split
    · exact .inr (.refl_result related _)
    · exact inner .null run run' related room
  | bool b => exact inner _ run run' related room
  | number x => exact inner _ run run' related room
  | string s => exact inner _ run run' related room
  | array items => exact inner _ run run' related room
  | object entries => exact inner _ run run' related room

private theorem resolved (inner : Refines R limit limit' p q) {m : Modifiers}
    (respects : ∀ d, m.default? = some d → d.Respects R) (handles : Bool) :
    Refines R limit limit' (Parser.resolved m handles p) (Parser.resolved m handles q) := by
  intro input run run' related room
  have plain := inner.settled m handles
  by_cases absent : input = .undefined
  · subst absent
    cases standing : m.default? with
    | none =>
      simp only [Parser.resolved, standing]
      exact plain .undefined run run' related room
    | some d =>
      obtain ⟨same, still⟩ := respects d standing run.toSession run'.toSession related
      have step := plain (run.produce d).1 (run.produce d).2 (run'.produce d).2 still room
      have same' : (run.produce d).1 = (run'.produce d).1 := same
      simp only [Parser.resolved, standing]
      rw [← same']
      rcases step with trips | matched
      · exact .inl trips
      · exact .inr ⟨matched.result, matched.session, matched.depth, matched.depth'⟩
  · have asIs : Parser.resolved m handles p input run = Parser.settled m handles p input run := by
      cases input <;> first | exact (absent rfl).elim | rfl
    have asIs' : Parser.resolved m handles q input run' =
        Parser.settled m handles q input run' := by
      cases input <;> first | exact (absent rfl).elim | rfl
    rw [asIs, asIs']
    exact plain input run run' related room

private theorem inOrder {items items' : List (Parser × Value)}
    (inner : List.Forall₂ (fun a b => Refines R limit limit' a.1 b.1 ∧ a.2 = b.2) items items')
    (position : Nat) {run run' : Run} (related : R run.toSession run'.toSession)
    (room : limit + run'.depth ≤ limit' + run.depth) :
    Step.Refines R run run' (Parser.inOrder position items run)
      (Parser.inOrder position items' run') := by
  induction inner generalizing position run run' with
  | nil => exact .inr (.refl_result related _)
  | @cons a b rest rest' head tail ih =>
    have step := head.1 a.2 run run' related room
    rw [head.2] at step
    rcases step.cases with ⟨failure, mid, trips, limit⟩ |
      ⟨failure, mid, mid', fails, fails', same⟩ | ⟨value, mid, mid', returns, returns', same⟩
    · simp only [Parser.inOrder, head.2, trips]
      exact .inl (by simpa using limit)
    · simp only [Parser.inOrder, head.2, fails, fails']
      exact .inr (same.replace _)
    · have later := ih (position + 1) same.session (by rw [same.depth, same.depth']; exact room)
      simp only [Parser.inOrder, head.2, returns, returns']
      rcases later.cases with ⟨failure, after, trips, limit⟩ |
        ⟨failure, after, after', fails, fails', others⟩ |
        ⟨values, after, after', returns, returns', others⟩
      · simp only [trips]
        exact .inl limit
      · simp only [fails, fails']
        exact .inr ((same.trans others).replace _)
      · simp only [returns, returns']
        exact .inr ((same.trans others).replace _)

private theorem asArray {run run' : Run} {a b : Step (List Value)}
    (step : Step.Refines R run run' a b) :
    Step.Refines R run run' (Parser.asArray a) (Parser.asArray b) := by
  rcases step.cases with ⟨failure, mid, rfl, limit⟩ | ⟨failure, mid, mid', rfl, rfl, same⟩ |
    ⟨values, mid, mid', rfl, rfl, same⟩
  · exact .inl limit
  · exact .inr (same.replace _)
  · exact .inr (same.replace _)

private theorem array (inner : Refines R limit limit' p q) (size : Bounds Nat) :
    Refines R limit limit' (Parser.array size p) (Parser.array size q) := by
  intro input run run' related room
  cases input with
  | array items =>
    simp only [Parser.array]
    cases size.violation? .arrayLength items.length with
    | some failure => exact .inr (.refl_result related _)
    | none =>
      refine asArray (inOrder ?_ 0 related room)
      induction items with
      | nil => exact .nil
      | cons item rest ih => exact .cons ⟨inner, rfl⟩ ih
  | _ => exact .inr (.refl_result related _)

theorem tuple {parsers parsers' : List Parser}
    (inner : List.Forall₂ (Refines R limit limit') parsers parsers') :
    Refines R limit limit' (Parser.tuple parsers) (Parser.tuple parsers') := by
  intro input run run' related room
  cases input with
  | array items =>
    simp only [Parser.tuple, inner.length_eq]
    split
    · refine asArray (inOrder ?_ 0 related room)
      induction inner generalizing items with
      | nil => exact .nil
      | cons head _ ih =>
        cases items with
        | nil => exact .nil
        | cons item rest => exact .cons ⟨head, rfl⟩ (ih rest (by simp_all))
    · exact .inr (.refl_result related _)
  | _ =>
    simp only [Parser.tuple]
    exact .inr (.refl_result related _)

private theorem fieldsInOrder {fields fields' : List (String × Parser)}
    (inner : List.Forall₂ (fun f g => f.1 = g.1 ∧ Refines R limit limit' f.2 g.2) fields fields')
    (entries : Entries Value) {run run' : Run} (related : R run.toSession run'.toSession)
    (room : limit + run'.depth ≤ limit' + run.depth) :
    Step.Refines R run run' (Parser.fieldsInOrder entries fields run)
      (Parser.fieldsInOrder entries fields' run') := by
  induction inner generalizing run run' with
  | nil => exact .inr (.refl_result related _)
  | @cons f g rest rest' head tail ih =>
    have step := head.2 (fieldValue entries f.1) run run' related room
    rw [fieldsInOrder_cons, fieldsInOrder_cons, ← head.1]
    rcases step.cases with ⟨failure, mid, trips, limit⟩ |
      ⟨failure, mid, mid', fails, fails', same⟩ | ⟨value, mid, mid', returns, returns', same⟩
    · rw [trips]
      exact .inl (by simpa using limit)
    · rw [fails, fails']
      exact .inr (same.replace _)
    · have later := ih same.session (by rw [same.depth, same.depth']; exact room)
      rw [returns, returns']
      rcases later.cases with ⟨failure, after, trips, limit⟩ |
        ⟨failure, after, after', fails, fails', others⟩ |
        ⟨values, after, after', returns, returns', others⟩
      · simp only [trips]
        exact .inl limit
      · simp only [fails, fails']
        exact .inr ((same.trans others).replace _)
      · simp only [returns, returns']
        split
        · exact .inr ((same.trans others).replace _)
        · exact .inr ((same.trans others).replace _)

theorem object {fields fields' : List (String × Parser)}
    (inner : List.Forall₂ (fun f g => f.1 = g.1 ∧ Refines R limit limit' f.2 g.2) fields fields')
    (policy : UnknownKeys) :
    Refines R limit limit' (Parser.object policy fields) (Parser.object policy fields') := by
  intro input run run' related room
  cases input with
  | object entries =>
    have names : Entries.names fields' = Entries.names fields := names_eq_of_forall₂ inner
    have declared := Entries.without_congr entries names
    rcases (fieldsInOrder inner entries related room).cases with ⟨failure, mid, trips, limit⟩ |
      ⟨failure, mid, mid', fails, fails', same⟩ | ⟨values, mid, mid', returns, returns', same⟩
    · simp only [Parser.object, trips]
      exact .inl limit
    · simp only [Parser.object, fails, fails']
      exact .inr (same.replace _)
    · simp only [Parser.object, returns, returns', declared]
      exact .inr (same.replace _)
  | _ => exact .inr (.refl_result related _)

private theorem firstOf (emits : ∀ a b event, R a b → R (a.emit event) (b.emit event))
    {candidates candidates' : List (SchemaKind × Parser)}
    (inner : List.Forall₂ (fun c d => c.1 = d.1 ∧ Refines R limit limit' c.2 d.2)
      candidates candidates')
    (index : Nat) (input : Value) {run run' : Run}
    (related : R run.toSession run'.toSession) (room : limit + run'.depth ≤ limit' + run.depth) :
    (∃ failure, failure.isLimit = true ∧
      (Parser.firstOf index candidates input run).1 = .stopped failure) ∨
    Step.Matches R run run'
      (.ok (Parser.firstOf index candidates input run).1,
        (Parser.firstOf index candidates input run).2)
      (.ok (Parser.firstOf index candidates' input run').1,
        (Parser.firstOf index candidates' input run').2) := by
  induction inner generalizing index run run' with
  | nil => exact .inr (.refl_result related _)
  | @cons c d rest rest' head tail ih =>
    have step := head.2 input run run' related room
    rcases step.cases with ⟨failure, mid, trips, limit⟩ |
      ⟨failure, mid, mid', fails, fails', same⟩ | ⟨value, mid, mid', returns, returns', same⟩
    · refine .inl ⟨failure, limit, ?_⟩
      simp only [Parser.firstOf, trips, limit, if_true]
    · have told := emits _ _ (.candidateRejected index d.1 failure.code) same.session
      by_cases limit : failure.isLimit = true
      · refine .inl ⟨failure, limit, ?_⟩
        simp only [Parser.firstOf, fails, limit, if_true]
      have later := @ih (index + 1) (mid.emit (.candidateRejected index d.1 failure.code))
        (mid'.emit (.candidateRejected index d.1 failure.code)) told
        (by rw [Run.emit_depth, Run.emit_depth, same.depth, same.depth']; exact room)
      simp only [Parser.firstOf, head.1, fails, fails', limit]
      rcases later with ⟨stop, limit, stops⟩ | others
      · exact .inl ⟨stop, limit, by simp [stops, Trial.after]⟩
      · refine .inr ⟨?_, others.session, others.depth.trans same.depth,
          others.depth'.trans same.depth'⟩
        have result := Except.ok.inj others.result
        simp [result]
    · simp only [Parser.firstOf, returns, returns']
      exact .inr (same.replace _)

theorem union (emits : ∀ a b event, R a b → R (a.emit event) (b.emit event))
    {candidates candidates' : List (SchemaKind × Parser)}
    (inner : List.Forall₂ (fun c d => c.1 = d.1 ∧ Refines R limit limit' c.2 d.2)
      candidates candidates')
    (detail : UnionFailures) :
    Refines R limit limit' (Parser.union detail candidates) (Parser.union detail candidates') := by
  intro input run run' related room
  rw [union_eq, union_eq]
  rcases firstOf emits inner 0 input related room with ⟨failure, limit, stops⟩ | same
  · rw [stops]
    exact .inl limit
  · rw [Except.ok.inj same.result]
    exact .inr (same.replace _)

end Refines

end Parser

end Refinement

namespace Schema

variable {R : Session → Session → Prop}

/-- A schema under one limit is refined by the same schema under another one. -/
theorem enter_refines (emits : ∀ a b event, R a b → R (a.emit event) (b.emit event))
    (o : Options) (limit : Nat) (s : Schema)
    (respects : s.Everywhere fun t => ∀ d, t.modifiers.default? = some d → d.Respects R) :
    Parser.Refines R o.maxDepth limit (s.enter o) (s.enter { o with maxDepth := limit }) := by
  induction s using Schema.induction with
  | primitive m p =>
    have check : Parser.Refines R o.maxDepth limit (check o (.primitive m p))
        (check { o with maxDepth := limit } (.primitive m p)) :=
      fun _ _ _ related _ => .inr (.refl_result related _)
    exact (check.resolved respects.self _).guarded
  | array m size element ih =>
    exact (((ih respects.element).array size).resolved respects.self _).guarded
  | tuple m items ih =>
    have inner : List.Forall₂ (Parser.Refines R o.maxDepth limit) (items.map (enter o))
        (items.map (enter { o with maxDepth := limit })) := by
      rw [List.forall₂_map_left_iff, List.forall₂_map_right_iff, List.forall₂_same]
      exact fun s member => ih s member (respects.item member)
    have check := Parser.Refines.tuple inner
    rw [← check_tuple o m, ← check_tuple _ m] at check
    exact (check.resolved respects.self _).guarded
  | object m unknownKeys fields ih =>
    have inner : List.Forall₂
        (fun f g => f.1 = g.1 ∧ Parser.Refines R o.maxDepth limit f.2 g.2)
        (fields.map fun f => (f.1, f.2.enter o))
        (fields.map fun f => (f.1, f.2.enter { o with maxDepth := limit })) := by
      rw [List.forall₂_map_left_iff, List.forall₂_map_right_iff, List.forall₂_same]
      exact fun f member => ⟨rfl, ih f member (respects.field member)⟩
    have check := Parser.Refines.object inner (o.unknownKeys?.getD unknownKeys)
    rw [← check_object o m] at check
    have check' := check_object { o with maxDepth := limit } m unknownKeys fields
    simp only at check'
    rw [← check'] at check
    exact (check.resolved respects.self _).guarded
  | union m candidates ih =>
    have inner : List.Forall₂
        (fun c d => c.1 = d.1 ∧ Parser.Refines R o.maxDepth limit c.2 d.2)
        (candidates.map fun s => (s.kind, s.enter o))
        (candidates.map fun s => (s.kind, s.enter { o with maxDepth := limit })) := by
      rw [List.forall₂_map_left_iff, List.forall₂_map_right_iff, List.forall₂_same]
      exact fun s member => ⟨rfl, ih s member (respects.candidate member)⟩
    have check := Parser.Refines.union emits inner o.unionFailures
    rw [← check_union o m] at check
    have check' := check_union { o with maxDepth := limit } m candidates
    simp only at check'
    rw [← check'] at check
    exact (check.resolved respects.self _).guarded

private theorem respects_eq (s : Schema) :
    s.Everywhere fun t => ∀ d, t.modifiers.default? = some d → d.Respects Eq := by
  have every : ∀ d : Default, d.Respects Eq := by
    rintro d a b rfl
    exact ⟨rfl, rfl⟩
  exact Everywhere.of_forall (fun t d _ => every d) s

end Schema

/-- A parser that never trips when it starts at a depth. -/
def Parser.Quiet (depth : Nat) (p : Parser) : Prop :=
  ∀ input run, run.depth = depth → tripped (p input run).1 = false

namespace Parser.Quiet

variable {depth : Nat}

theorem not_isLimit {p : Parser} (quiet : p.Quiet depth) {input : Value} {failure : Failure}
    (returned : Returns (fun run => run.depth = depth) p input (.error failure)) :
    failure.isLimit = false := by
  obtain ⟨run, start, result⟩ := returned
  have untripped := quiet input run start
  rwa [result, tripped_error] at untripped

private theorem guarded {p : Parser} (quiet : p.Quiet (depth + 1)) {limit : Nat}
    (room : depth < limit) : (Parser.guarded limit p).Quiet depth := by
  intro input run start
  simp only [Parser.guarded, start, room, if_true]
  exact quiet input _ rfl

private theorem settled {check : Parser} (quiet : check.Quiet depth) (m : Modifiers)
    (handles : Bool) : (Parser.settled m handles check).Quiet depth := by
  intro input run start
  rcases settled_cases m handles check input run with ⟨eq, -⟩ | ⟨eq, -⟩ | ⟨eq, -⟩
  · rw [eq]
    rfl
  · rw [eq]
    rfl
  · rw [eq]
    exact quiet input run start

private theorem resolved {check : Parser} (quiet : check.Quiet depth) (m : Modifiers)
    (handles : Bool) : (Parser.resolved m handles check).Quiet depth := by
  intro input run start
  simp only [Parser.resolved]
  split
  · exact quiet.settled m handles _ _ start
  · exact quiet.settled m handles _ _ start

private theorem inOrder {items : List (Parser × Value)} (lawful : ∀ x ∈ items, x.1.Lawful)
    (quiet : ∀ x ∈ items, x.1.Quiet depth) (run : Run) (start : run.depth = depth) :
    tripped (Parser.asArray (Parser.inOrder 0 items run)).1 = false := by
  rcases returned : Parser.inOrder 0 items run with ⟨failure | values, after⟩
  · obtain ⟨i, x, inner, found, fails, rfl⟩ :=
      inOrder_error (fun x member => (lawful x member).keeps_depth depth) start
        (by rw [returned])
    have untripped := (quiet x (List.mem_of_getElem? found)).not_isLimit fails
    simpa [Parser.asArray] using untripped
  · rfl

private theorem array {element : Parser} (lawful : element.Lawful) (quiet : element.Quiet depth)
    (size : Bounds Nat) : (Parser.array size element).Quiet depth := by
  intro input run start
  cases input with
  | array items =>
    simp only [Parser.array]
    cases violated : size.violation? .arrayLength items.length with
    | some failure =>
      obtain ⟨b, -, -, rfl⟩ := Bounds.of_violation?_eq_some violated
      rfl
    | none =>
      refine inOrder ?_ ?_ run start
      · intro x member
        obtain ⟨item, -, rfl⟩ := List.mem_map.1 member
        exact lawful
      · intro x member
        obtain ⟨item, -, rfl⟩ := List.mem_map.1 member
        exact quiet
  | _ => rfl

private theorem tuple {parsers : List Parser} (lawful : ∀ p ∈ parsers, p.Lawful)
    (quiet : ∀ p ∈ parsers, p.Quiet depth) : (Parser.tuple parsers).Quiet depth := by
  intro input run start
  cases input with
  | array items =>
    simp only [Parser.tuple]
    split
    · exact inOrder (fun x member => lawful x.1 (List.of_mem_zip member).1)
        (fun x member => quiet x.1 (List.of_mem_zip member).1) run start
    · rfl
  | _ => rfl

private theorem object {fields : List (String × Parser)} (lawful : ∀ f ∈ fields, f.2.Lawful)
    (quiet : ∀ f ∈ fields, f.2.Quiet depth) (policy : UnknownKeys) :
    (Parser.object policy fields).Quiet depth := by
  intro input run start
  cases input with
  | object entries =>
    rcases returned : Parser.fieldsInOrder entries fields run with ⟨failure | values, after⟩
    · obtain ⟨f, member, inner, fails, rfl⟩ :=
        fieldsInOrder_error (fun f member => (lawful f member).keeps_depth depth) start
          (by rw [returned])
      have untripped := (quiet f member).not_isLimit fails
      simpa [Parser.object, returned] using untripped
    · simp only [Parser.object, returned, withUndeclared]
      cases policy with
      | passthrough => rfl
      | strip => rfl
      | strict =>
        by_cases none : (Entries.without entries fields).isEmpty = true
        · simp only [none, if_true]
          rfl
        · simp only [none]
          rfl
  | _ => rfl

private theorem union {candidates : List (SchemaKind × Parser)}
    (lawful : ∀ c ∈ candidates, c.2.Lawful)
    (quiet : ∀ c ∈ candidates, c.2.Quiet depth) (detail : UnionFailures) :
    (Parser.union detail candidates).Quiet depth := by
  intro input run start
  have known := firstOf_explained (fun c member => (lawful c member).keeps_depth depth)
    (fun _ _ kept => kept) input 0 start
  rw [union_eq]
  cases tried : (Parser.firstOf 0 candidates input run).1 with
  | accepted value => rfl
  | refused failures => rfl
  | stopped failure =>
    rw [tried] at known
    obtain ⟨limit, c, member, fails⟩ := known
    have untripped := (quiet c member).not_isLimit fails
    rw [limit] at untripped
    cases untripped

end Parser.Quiet

namespace Schema

/-- A schema that is no higher than the depth left never trips over the limit. -/
theorem enter_quiet (o : Options) (s : Schema) (depth : Nat)
    (room : depth + s.height ≤ o.maxDepth) : (s.enter o).Quiet depth := by
  have lawful : ∀ t : Schema, (t.enter o).Lawful := fun t => t.enter_lawful o
  induction s using Schema.induction generalizing depth with
  | primitive m p =>
    have check : (check o (.primitive m p)).Quiet (depth + 1) := by
      intro input run _
      rcases p.check_cases input with accepted | ⟨mismatch, -⟩ | ⟨cause, refused, violates⟩
      · simp [Schema.check, accepted]
      · simp only [Schema.check, mismatch]
        rfl
      · simp only [Schema.check, refused]
        cases violates <;> rfl
    exact (check.resolved _ _).guarded (by simp only [height] at room; omega)
  | array m size element ih =>
    have inner := ih (depth + 1) (by simp only [height] at room; omega)
    have check := Parser.Quiet.array (lawful element) inner size
    exact (check.resolved _ _).guarded (by simp only [height] at room; omega)
  | tuple m items ih =>
    have inner : ∀ s ∈ items, (s.enter o).Quiet (depth + 1) := by
      intro s member
      have least := height_le_greatestHeight member
      exact ih s member (depth + 1) (by simp only [height] at room; omega)
    have check : (Parser.tuple (items.map (enter o))).Quiet (depth + 1) :=
      .tuple (List.forall_mem_map.2 fun s _ => lawful s) (List.forall_mem_map.2 inner)
    rw [← check_tuple o m] at check
    exact (check.resolved _ _).guarded (by simp only [height] at room; omega)
  | object m unknownKeys fields ih =>
    have inner : ∀ f ∈ fields, (f.2.enter o).Quiet (depth + 1) := by
      intro f member
      have least := height_le_greatestFieldHeight member
      exact ih f member (depth + 1) (by simp only [height] at room; omega)
    have check : (Parser.object (o.unknownKeys?.getD unknownKeys)
        (fields.map fun f => (f.1, f.2.enter o))).Quiet (depth + 1) :=
      .object (List.forall_mem_map.2 fun f _ => lawful f.2) (List.forall_mem_map.2 inner) _
    rw [← check_object o m] at check
    exact (check.resolved _ _).guarded (by simp only [height] at room; omega)
  | union m candidates ih =>
    have inner : ∀ s ∈ candidates, (s.enter o).Quiet (depth + 1) := by
      intro s member
      have least := height_le_greatestHeight member
      exact ih s member (depth + 1) (by simp only [height] at room; omega)
    have check : (Parser.union o.unionFailures
        (candidates.map fun s => (s.kind, s.enter o))).Quiet (depth + 1) :=
      .union (List.forall_mem_map.2 fun s _ => lawful s) (List.forall_mem_map.2 inner) _
    rw [← check_union o m] at check
    exact (check.resolved _ _).guarded (by simp only [height] at room; omega)

/-- A parse that does not end at the limit comes out the same under every higher one, the limit is
never below an exhausted union, and a parse that reports the limit fails by it. -/
theorem parse_under_higher_limit (s : Schema) (o : Options) (input : Value) (session : Session) :
    (∀ limit, o.maxDepth ≤ limit → tripped (s.parse o input session).1 = false →
      s.parse { o with maxDepth := limit } input session = s.parse o input session) ∧
    (∀ path candidates, (s.parse o input session).1 = .error (.exhausted path candidates) →
      ∀ f ∈ (Failure.exhausted path candidates).nodes, f.isLimit = false) ∧
    ∃ new, (s.parse o input session).2.events = session.events ++ new ∧
      ((∃ limit, Event.limitReached limit ∈ new) → tripped (s.parse o input session).1 = true) := by
  have step := s.enter_lawful o input ⟨session, 0⟩
  refine ⟨?_, ?_, ?_⟩
  · intro limit higher finished
    have both := enter_refines (R := Eq) (fun a b event same => by rw [same]) o limit s
      s.respects_eq input ⟨session, 0⟩ ⟨session, 0⟩ rfl (by simpa using higher)
    rw [parse_result] at finished
    rcases both with trips | same
    · rw [trips] at finished
      cases finished
    · exact (parse_eq_of_enter same.result same.session).symm
  · intro path candidates failed
    rw [parse_result] at failed
    exact step.clean _ failed rfl
  · obtain ⟨new, later, -, trips⟩ := step.events
    simp only [parse]
    rcases entered : s.enter o input ⟨session, 0⟩ with ⟨failure | value, run⟩
    · rw [entered] at later trips
      refine ⟨new ++ [.parseFailed failure.path failure.code], ?_, ?_⟩
      · simp [Session.emit, show run.events = session.events ++ new from later]
      · simpa using trips.1
    · rw [entered] at later trips
      exact ⟨new, later, trips.1⟩

/-- A limit of three levels cuts off the first candidate, and with it the second one; under four
levels both refuse the value, and under every higher limit they do so alike. -/
theorem parse_exhausted_under_higher_limit :
    let s : Schema := .unionOf [.arrayOf (.arrayOf .boolean), .arrayOf .null]
    let input : Value := .array [.array [.null]]
    tripped (s.parse { maxDepth := 3 } input {}).1 = true ∧
      ∀ limit, 4 ≤ limit →
        s.parse { maxDepth := limit } input {} = s.parse { maxDepth := 4 } input {} :=
  ⟨rfl, fun limit higher =>
    (parse_under_higher_limit _ { maxDepth := 4 } _ {}).1 limit higher rfl⟩

end Schema

end ValueSchema
