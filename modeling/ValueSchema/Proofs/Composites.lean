import Mathlib.Algebra.Ring.Nat
import ValueSchema.Proofs.Preservation
import ValueSchema.Proofs.Schema.Visits

/-!
What the parts of sequences, unions and objects come to. They are entered one after the other, each
in the run that the part before it left, up to the first one that decides.
-/

set_option autoImplicit false
set_option relaxedAutoImplicit false

namespace ValueSchema

namespace Schema

/-- Why an array or a tuple schema refuses arrays of a size: the first bound in declared order that
the size violates, or another arity. -/
inductive Misfit : Schema → Nat → Cause → Prop
  | array {m : Modifiers} {size before after : Bounds Nat} {b : Bound Nat} {element : Schema}
      {count : Nat} (split : size = before ++ b :: after)
      (first : ∀ c ∈ before, c.violatedBy count = false) (violated : b.violatedBy count = true) :
      Misfit (.array m size element) count
        (.constraintViolation .arrayLength b.kind (.ofNat b.limit) (.ofNat count))
  | tuple {m : Modifiers} {parts : List Schema} {count : Nat} (differs : count ≠ parts.length) :
      Misfit (.tuple m parts) count (.tupleLengthMismatch parts.length count)

/-- The items of an array whose size fits, each with the schema that it is parsed against. -/
inductive Assigned : Schema → List Value → List (Schema × Value) → Prop
  | array {m : Modifiers} {size : Bounds Nat} {element : Schema} {items : List Value}
      (within : ∀ b ∈ size, b.violatedBy items.length = false) :
      Assigned (.array m size element) items (items.map fun item => (element, item))
  | tuple {m : Modifiers} {parts : List Schema} {items : List Value}
      (same : items.length = parts.length) : Assigned (.tuple m parts) items (parts.zip items)

/-- Items that are parsed one after the other: each schema is entered at the depth, on its item, in
the run that the item before it left. -/
inductive ItemsParsed (o : Options) (depth : Nat) :
    List (Schema × Value) → Run → List Value → Run → Prop
  | nil {run : Run} : ItemsParsed o depth [] run [] run
  | cons {s : Schema} {item value : Value} {rest : List (Schema × Value)} {run mid after : Run}
      {values : List Value} (level : run.depth = depth)
      (parsed : s.enter o item run = (.ok value, mid))
      (later : ItemsParsed o depth rest mid values after) :
      ItemsParsed o depth ((s, item) :: rest) run (value :: values) after

/-- What comes of the items of an array, and the run after the last item that is entered. -/
inductive SequenceOutcome (o : Options) (s : Schema) (depth : Nat) (items : List Value)
    (run : Run) : Except Failure Value → Run → Prop
  /-- The size does not fit, and no item is entered. -/
  | misfit {cause : Cause} (refuses : s.Misfit items.length cause) :
      SequenceOutcome o s depth items run (.error (.here cause)) run
  /-- An item fails after all items before it are parsed. -/
  | failed {all done rest : List (Schema × Value)} {t : Schema} {item : Value}
      {values : List Value} {mid after : Run} {failure : Failure} (fits : s.Assigned items all)
      (split : all = done ++ (t, item) :: rest)
      (before : ItemsParsed o depth done run values mid) (level : mid.depth = depth)
      (fails : t.enter o item mid = (.error failure, after)) :
      SequenceOutcome o s depth items run (.error (failure.prefixed (.index done.length))) after
  /-- All items are parsed. -/
  | made {all : List (Schema × Value)} {values : List Value} {after : Run}
      (fits : s.Assigned items all) (parsed : ItemsParsed o depth all run values after) :
      SequenceOutcome o s depth items run (.ok (.array values)) after

variable {o : Options} {s : Schema} {depth : Nat} {items : List Value}
  {all : List (Schema × Value)} {run after : Run} {values : List Value}

theorem Assigned.length_eq (fits : s.Assigned items all) : all.length = items.length := by
  cases fits with
  | array within => exact List.length_map _
  | tuple same => rw [List.length_zip, same, Nat.min_self]

namespace ItemsParsed

theorem length_eq (parsed : ItemsParsed o depth all run values after) :
    values.length = all.length := by
  induction parsed with
  | nil => rfl
  | cons _ _ _ ih => exact congrArg (· + 1) ih

private theorem depth_eq (parsed : ItemsParsed o depth all run values after)
    (start : run.depth = depth) : after.depth = depth := by
  induction parsed with
  | nil => exact start
  | @cons s item value rest run mid after values level parsed _ ih =>
    have kept := s.enter_depth o item run
    rw [parsed] at kept
    exact ih (kept.trans level)

private theorem inOrder_eq (parsed : ItemsParsed o depth all run values after) (position : Nat) :
    Parser.inOrder position (all.map fun d => (d.1.enter o, d.2)) run = (.ok values, after) := by
  induction parsed generalizing position with
  | nil => rfl
  | @cons s item value rest _ _ _ _ _ parsed _ ih =>
    rw [List.map_cons, Parser.inOrder_cons_ok (x := (s.enter o, item)) parsed, ih]
    rfl

end ItemsParsed

private theorem items_cases (o : Options) (all : List (Schema × Value)) (run : Run) :
    (∃ values after, ItemsParsed o run.depth all run values after) ∨
      ∃ done t item rest values mid failure after, all = done ++ (t, item) :: rest ∧
        ItemsParsed o run.depth done run values mid ∧
        t.enter o item mid = (.error failure, after) := by
  induction all generalizing run with
  | nil => exact .inl ⟨[], run, .nil⟩
  | cons d rest ih =>
    obtain ⟨s, item⟩ := d
    have kept := s.enter_depth o item run
    rcases entered : s.enter o item run with ⟨failure | value, mid⟩
    · exact .inr ⟨[], s, item, rest, [], run, failure, mid, rfl, .nil, entered⟩
    rw [entered] at kept
    have later := ih mid
    rw [kept] at later
    rcases later with ⟨values, after, parsed⟩ |
      ⟨done, t, other, others, values, last, failure, after, rfl, before, fails⟩
    · exact .inl ⟨value :: values, after, .cons rfl entered parsed⟩
    · exact .inr ⟨(s, item) :: done, t, other, others, value :: values, last, failure, after, rfl,
        .cons rfl entered before, fails⟩

private theorem misfit_or_assigned (sequence : s.kind = .array ∨ s.kind = .tuple)
    (items : List Value) :
    (∃ cause, s.Misfit items.length cause) ∨ ∃ all, s.Assigned items all := by
  cases s with
  | array m size element =>
    rcases size.within_or_violated items.length with within |
      ⟨before, b, after, split, first, violated⟩
    · exact .inr ⟨_, .array within⟩
    · exact .inl ⟨_, .array split first violated⟩
  | tuple m parts =>
    by_cases same : items.length = parts.length
    · exact .inr ⟨_, .tuple same⟩
    · exact .inl ⟨_, .tuple same⟩
  | primitive m p => cases p <;> simp [kind, Primitive.kind] at sequence
  | object m unknownKeys fields => simp [kind] at sequence
  | union m candidates => simp [kind] at sequence

theorem Misfit.check_eq {cause : Cause} (refuses : s.Misfit items.length cause) (run : Run) :
    s.check o (.array items) run = (.error (.here cause), run) := by
  cases refuses with
  | @array m size before after b element _ split first violated =>
    have refused : size.violation? .arrayLength items.length = some (.here
        (.constraintViolation .arrayLength b.kind (.ofNat b.limit) (.ofNat items.length))) :=
      Bounds.violation?_of_split split first violated
    simp only [check_array, Parser.array, refused]
  | tuple differs =>
    simp only [check_tuple, Parser.tuple, List.length_map, differs, if_false]

private theorem Assigned.check_eq (fits : s.Assigned items all) (run : Run) :
    s.check o (.array items) run =
      Parser.asArray (Parser.inOrder 0 (all.map fun d => (d.1.enter o, d.2)) run) := by
  cases fits with
  | @array m size element _ within =>
    have none : size.violation? .arrayLength items.length = none :=
      Bounds.violation?_eq_none.2 within
    rw [check_array, Parser.array_of_within none, List.map_map]
    rfl
  | @tuple m parts _ same =>
    have paired : parts.length = items.length := same.symm
    rw [check_tuple, Parser.tuple_of_same (by rw [List.length_map, paired]), List.zip_map_left]
    rfl

namespace SequenceOutcome

variable {result : Except Failure Value}

private theorem exists_outcome (sequence : s.kind = .array ∨ s.kind = .tuple) (o : Options)
    (items : List Value) (run : Run) :
    ∃ result after, SequenceOutcome o s run.depth items run result after := by
  rcases misfit_or_assigned sequence items with ⟨cause, refuses⟩ | ⟨all, fits⟩
  · exact ⟨_, _, .misfit refuses⟩
  rcases items_cases o all run with ⟨values, after, parsed⟩ |
    ⟨done, t, item, rest, values, mid, failure, after, split, before, fails⟩
  · exact ⟨_, _, .made fits parsed⟩
  · exact ⟨_, _, .failed fits split before (before.depth_eq rfl) fails⟩

private theorem check_eq (outcome : SequenceOutcome o s depth items run result after) :
    s.check o (.array items) run = (result, after) := by
  cases outcome with
  | misfit refuses => exact refuses.check_eq run
  | @failed all done rest t item values mid _ failure fits split before _ fails =>
    have parsed := before.inOrder_eq 0
    rw [fits.check_eq, split, List.map_append, List.map_cons,
      Parser.inOrder_stops (x := (t.enter o, item)) parsed fails, Nat.zero_add, List.length_map]
    rfl
  | made fits parsed =>
    rw [fits.check_eq, parsed.inOrder_eq]
    rfl

private theorem error_cases {failure : Failure}
    (outcome : SequenceOutcome o s depth items run (.error failure) after) :
    (after = run ∧ ∃ cause, s.Misfit items.length cause ∧ failure = .here cause) ∨
      ∃ i < items.length, ∀ f ∈ failure.nodes, [.index i] <+: f.path := by
  cases outcome with
  | misfit refuses => exact .inl ⟨rfl, _, refuses, rfl⟩
  | @failed all done rest t item values mid _ inner fits split before _ fails =>
    have inside : done.length < items.length := by
      have counted := fits.length_eq
      rw [split, List.length_append, List.length_cons] at counted
      omega
    refine .inr ⟨done.length, inside, fun f member => ?_⟩
    rw [Failure.nodes_prefixed] at member
    obtain ⟨g, -, rfl⟩ := List.mem_map.1 member
    rw [Failure.path_prefixed]
    exact ⟨g.path, rfl⟩

private theorem length_eq {out : List Value}
    (outcome : SequenceOutcome o s depth items run (.ok (.array out)) after) :
    out.length = items.length := by
  cases outcome with
  | made fits parsed => rw [parsed.length_eq, fits.length_eq]

end SequenceOutcome

theorem check_sequence_iff (sequence : s.kind = .array ∨ s.kind = .tuple)
    {result : Except Failure Value} :
    s.check o (.array items) run = (result, after) ↔
      SequenceOutcome o s run.depth items run result after := by
  constructor
  · intro returned
    obtain ⟨result', after', outcome⟩ := SequenceOutcome.exists_outcome sequence o items run
    obtain ⟨rfl, rfl⟩ := Prod.mk.inj (returned.symm.trans outcome.check_eq)
    exact outcome
  · intro outcome
    exact outcome.check_eq

end Schema

namespace Visit

variable {o : Options} {s : Schema} {v : Value} {run inner : Run} {items : List Value}

/-- An array or tuple schema that gets to its check with an array comes to the one outcome that the
items have, which are entered one level deeper. An output has as many items as the input, and a
failure is about the size or lies below one item, with all failures in its tree. -/
theorem step_sequence_iff (sequence : s.kind = .array ∨ s.kind = .tuple)
    (checks : Checks o ⟨s, v, run⟩ (.array items) inner) :
    (∀ result after, step o ⟨s, v, run⟩ = (result, after) ↔
      ∃ last, Schema.SequenceOutcome o s (run.depth + 1) items inner result last ∧
        after = { last with depth := run.depth }) ∧
    (∀ out, (step o ⟨s, v, run⟩).1 = .ok (.array out) → out.length = items.length) ∧
    ∀ failure, (step o ⟨s, v, run⟩).1 = .error failure →
      (∃ cause, s.Misfit items.length cause ∧ failure = .here cause) ∨
        ∃ i < items.length, ∀ f ∈ failure.nodes, [.index i] <+: f.path := by
  have outcomes : ∀ result after, step o ⟨s, v, run⟩ = (result, after) ↔
      ∃ last, Schema.SequenceOutcome o s (run.depth + 1) items inner result last ∧
        after = { last with depth := run.depth } := by
    intro result after
    have level : inner.depth = run.depth + 1 := checks.depth
    rw [checks.step_eq_iff, ← level]
    exact exists_congr fun last => and_congr_left fun _ => Schema.check_sequence_iff sequence
  refine ⟨outcomes, fun out accepted => ?_, fun failure refused => ?_⟩
  · obtain ⟨last, outcome, -⟩ := (outcomes (.ok (.array out)) _).1 (Prod.ext accepted rfl)
    exact outcome.length_eq
  · obtain ⟨last, outcome, -⟩ := (outcomes (.error failure) _).1 (Prod.ext refused rfl)
    exact outcome.error_cases.imp_left And.right

/-- With an item too few, the bound that was declared first is reported, although an item would
fail. Else the second item fails in a union, before the third one, which would fail as well. -/
theorem step_sequence_of_flags :
    let s : Schema := .array {} [⟨.min, 3⟩, ⟨.length, 3⟩] (.unionOf [.boolean, .null])
    let few : List Value := [.number 0, .null]
    let bad : List Value := [.null, .number 0, .undefined]
    let good : List Value := [.null, .bool true, .null]
    let mismatch (kind : SchemaKind) : Failure := .plain [.index 1] (.typeMismatch kind .number)
    (∃ last, Schema.SequenceOutcome {} s 1 few ⟨{}, 1⟩
      (.error (.here (.constraintViolation .arrayLength .min (.ofNat 3) (.ofNat 2)))) last) ∧
    (∃ last, Schema.SequenceOutcome {} s 1 bad ⟨{}, 1⟩
      (.error (.exhausted [.index 1] [mismatch .boolean, mismatch .null])) last) ∧
    ∃ last, Schema.SequenceOutcome {} s 1 good ⟨{}, 1⟩ (.ok (.array good)) last := by
  intro s few bad good mismatch
  have checks : ∀ items, Checks {} ⟨s, .array items, ⟨{}, 0⟩⟩ (.array items) ⟨{}, 1⟩ :=
    fun items => ⟨show 0 < 100 by omega, rfl, rfl, nofun⟩
  have outcomes := fun items => (step_sequence_iff (.inl rfl) (checks items)).1
  obtain ⟨few_last, refused, -⟩ := (outcomes few _ _).1 rfl
  obtain ⟨bad_last, failed, -⟩ := (outcomes bad _ _).1 rfl
  obtain ⟨good_last, made, -⟩ := (outcomes good _ _).1 rfl
  exact ⟨⟨few_last, refused⟩, ⟨bad_last, failed⟩, good_last, made⟩

end Visit

private theorem Failure.isLimit_eq_true_iff {failure : Failure} :
    failure.isLimit = true ↔ failure.code = .recursionLimitExceeded := beq_iff_eq

theorem Failure.isLimit_eq_false_iff {failure : Failure} :
    failure.isLimit = false ↔ failure.code ≠ .recursionLimitExceeded := beq_eq_false_iff_ne

theorem Parser.reported_eq (detail : UnionFailures) (failures : List Failure) :
    reported detail failures = match detail with
      | .all => failures
      | .first => failures.head?.toList := by
  cases detail with
  | all => rfl
  | first => cases failures <;> rfl

namespace Schema

/-- Candidates that refuse a value one after the other, for other reasons than the limit. Each is
entered at the depth, in the run that the one before it left, and is reported by its index. -/
inductive CandidatesRefuse (o : Options) (depth : Nat) (v : Value) :
    Nat → List Schema → Run → List Failure → Run → Prop
  | nil {index : Nat} {run : Run} : CandidatesRefuse o depth v index [] run [] run
  | cons {index : Nat} {s : Schema} {rest : List Schema} {run mid after : Run} {failure : Failure}
      {failures : List Failure} (level : run.depth = depth)
      (fails : s.enter o v run = (.error failure, mid))
      (other : failure.code ≠ .recursionLimitExceeded)
      (later : CandidatesRefuse o depth v (index + 1) rest
        (mid.emit (.candidateRejected index s.kind failure.code)) failures after) :
      CandidatesRefuse o depth v index (s :: rest) run (failure :: failures) after

/-- What comes of the candidates of a union for a value, and the run after the last one that is
entered. -/
inductive UnionOutcome (o : Options) (candidates : List Schema) (depth : Nat) (v : Value)
    (run : Run) : Except Failure Value → Run → Prop
  /-- The first candidate that does not refuse accepts the value. -/
  | accepted {done rest : List Schema} {s : Schema} {failures : List Failure} {mid after : Run}
      {w : Value} (split : candidates = done ++ s :: rest)
      (before : CandidatesRefuse o depth v 0 done run failures mid) (level : mid.depth = depth)
      (accepts : s.enter o v mid = (.ok w, after)) :
      UnionOutcome o candidates depth v run (.ok w) after
  /-- The first candidate that does not refuse trips over the limit; no later one is tried. -/
  | stopped {done rest : List Schema} {s : Schema} {failures : List Failure} {mid after : Run}
      {failure : Failure} (split : candidates = done ++ s :: rest)
      (before : CandidatesRefuse o depth v 0 done run failures mid) (level : mid.depth = depth)
      (fails : s.enter o v mid = (.error failure, after))
      (limit : failure.code = .recursionLimitExceeded) :
      UnionOutcome o candidates depth v run (.error failure)
        (after.emit (.candidateRejected done.length s.kind failure.code))
  /-- All candidates refuse. -/
  | exhausted {failures : List Failure} {after : Run}
      (all : CandidatesRefuse o depth v 0 candidates run failures after) :
      UnionOutcome o candidates depth v run
        (.error (.exhausted [] (match o.unionFailures with
          | .all => failures
          | .first => failures.head?.toList))) after

variable {o : Options} {depth index : Nat} {candidates : List Schema} {v : Value} {run after : Run}
  {failures : List Failure} {result : Except Failure Value}

namespace CandidatesRefuse

private theorem depth_eq (refuse : CandidatesRefuse o depth v index candidates run failures after)
    (start : run.depth = depth) : after.depth = depth := by
  induction refuse with
  | nil => exact start
  | @cons _ s _ run mid _ _ _ level fails _ _ ih =>
    have kept := s.enter_depth o v run
    rw [fails] at kept
    exact ih (kept.trans level)

private theorem firstOf_eq
    (refuse : CandidatesRefuse o depth v index candidates run failures after) :
    Parser.firstOf index (candidates.map fun s => (s.kind, s.enter o)) v run =
      (.refused failures, after) := by
  induction refuse with
  | nil => rfl
  | @cons _ s _ _ _ _ failure _ _ fails other _ ih =>
    have unlimited : failure.isLimit = false := Failure.isLimit_eq_false_iff.2 other
    rw [List.map_cons, Parser.firstOf_cons_refused (c := (s.kind, s.enter o)) fails unlimited, ih]
    rfl

end CandidatesRefuse

private theorem candidates_cases (o : Options) (v : Value) (index : Nat) (candidates : List Schema)
    (run : Run) :
    (∃ failures after, CandidatesRefuse o run.depth v index candidates run failures after) ∨
      ∃ done s rest failures mid, candidates = done ++ s :: rest ∧
        CandidatesRefuse o run.depth v index done run failures mid ∧
        ((∃ w after, s.enter o v mid = (.ok w, after)) ∨
          ∃ failure after, s.enter o v mid = (.error failure, after) ∧
            failure.code = .recursionLimitExceeded) := by
  induction candidates generalizing index run with
  | nil => exact .inl ⟨[], run, .nil⟩
  | cons s rest ih =>
    have kept := s.enter_depth o v run
    rcases entered : s.enter o v run with ⟨failure | w, mid⟩
    · by_cases limit : failure.code = .recursionLimitExceeded
      · exact .inr ⟨[], s, rest, [], run, rfl, .nil, .inr ⟨failure, mid, entered, limit⟩⟩
      rw [entered] at kept
      have later := ih (index + 1) (mid.emit (.candidateRejected index s.kind failure.code))
      rw [Run.emit_depth, kept] at later
      rcases later with ⟨failures, after, all⟩ |
        ⟨done, t, others, failures, last, rfl, before, ends⟩
      · exact .inl ⟨_, after, .cons rfl entered limit all⟩
      · exact .inr ⟨s :: done, t, others, _, last, rfl, .cons rfl entered limit before, ends⟩
    · exact .inr ⟨[], s, rest, [], run, rfl, .nil, .inl ⟨w, mid, entered⟩⟩

private theorem UnionOutcome.exists (o : Options) (candidates : List Schema) (v : Value)
    (run : Run) : ∃ result after, UnionOutcome o candidates run.depth v run result after := by
  rcases candidates_cases o v 0 candidates run with ⟨failures, after, all⟩ |
    ⟨done, s, rest, failures, mid, split, before,
      ⟨w, after, accepts⟩ | ⟨failure, after, fails, limit⟩⟩
  · exact ⟨_, _, .exhausted all⟩
  · exact ⟨_, _, .accepted split before (before.depth_eq rfl) accepts⟩
  · exact ⟨_, _, .stopped split before (before.depth_eq rfl) fails limit⟩

private theorem UnionOutcome.check_eq {m : Modifiers}
    (outcome : UnionOutcome o candidates depth v run result after) :
    (union m candidates).check o v run = (result, after) := by
  rw [check_union, Parser.union_eq]
  cases outcome with
  | @accepted done rest s _ _ _ _ split before _ accepts =>
    rw [split, List.map_append, List.map_cons,
      Parser.firstOf_accepts (c := (s.kind, s.enter o)) before.firstOf_eq accepts]
    rfl
  | @stopped done rest s _ _ _ _ split before _ fails limit =>
    rw [split, List.map_append, List.map_cons, Parser.firstOf_stops (c := (s.kind, s.enter o))
      before.firstOf_eq fails (Failure.isLimit_eq_true_iff.2 limit), Nat.zero_add, List.length_map]
    rfl
  | @exhausted failures _ all =>
    rw [all.firstOf_eq, ← Parser.reported_eq]
    rfl

private theorem check_union_iff {m : Modifiers} :
    (union m candidates).check o v run = (result, after) ↔
      UnionOutcome o candidates run.depth v run result after := by
  refine ⟨fun returned => ?_, UnionOutcome.check_eq⟩
  obtain ⟨result', after', outcome⟩ := UnionOutcome.exists o candidates v run
  obtain ⟨rfl, rfl⟩ := Prod.mk.inj (returned.symm.trans outcome.check_eq)
  exact outcome

end Schema

namespace Visit

variable {o : Options} {m : Modifiers} {candidates : List Schema} {v u : Value} {run inner : Run}

/-- A union schema that gets to its check comes to the one outcome that its candidates have, being
entered one level deeper. A failure with the detail of all candidates counts them all and itself. -/
theorem step_union_iff (checks : Checks o ⟨.union m candidates, v, run⟩ u inner) :
    (∀ result after, step o ⟨.union m candidates, v, run⟩ = (result, after) ↔
      ∃ last, Schema.UnionOutcome o candidates (run.depth + 1) u inner result last ∧
        after = { last with depth := run.depth }) ∧
    ∀ failures last,
      Schema.CandidatesRefuse o (run.depth + 1) u 0 candidates inner failures last →
        o.unionFailures = .all →
        ∃ failure, (step o ⟨.union m candidates, v, run⟩).1 = .error failure ∧
          failure.count = 1 + (failures.map Failure.count).sum := by
  have level : inner.depth = run.depth + 1 := checks.depth
  rw [← level]
  refine ⟨fun result after => ?_, fun failures last all detailed => ?_⟩
  · rw [checks.step_eq_iff]
    exact exists_congr fun last => and_congr_left fun _ => Schema.check_union_iff
  · have failed := (Schema.UnionOutcome.exhausted all).check_eq (m := m)
    rw [detailed] at failed
    refine ⟨.exhausted [] failures, by rw [checks.result_eq, failed], ?_⟩
    rw [Failure.count, Failure.countAll_eq]

/-- A union in a union that refuses a number counts as one failure and its own two. -/
theorem step_union_of_number :
    let candidates : List Schema := [.boolean, .unionOf [.null, .string]]
    let visit : Visit := ⟨.unionOf candidates, .number 0, ⟨{}, 0⟩⟩
    let mismatch (kind : SchemaKind) : Failure := .here (.typeMismatch kind .number)
    let failures := [mismatch .boolean, .exhausted [] [mismatch .null, mismatch .string]]
    Checks {} visit (.number 0) ⟨{}, 1⟩ ∧
      (∃ last, Schema.CandidatesRefuse {} 1 (.number 0) 0 candidates ⟨{}, 1⟩ failures last) ∧
      (∃ last, Schema.UnionOutcome {} candidates 1 (.number 0) ⟨{}, 1⟩
        (.error (.exhausted [] failures)) last) ∧
      ∃ failure, (visit.step {}).1 = .error failure ∧ failure.count = 5 := by
  intro candidates visit mismatch failures
  have checks : Checks {} visit (.number 0) ⟨{}, 1⟩ := ⟨by decide, rfl, rfl, nofun⟩
  have refuse : Schema.CandidatesRefuse {} 1 (.number 0) 0 candidates ⟨{}, 1⟩ failures _ :=
    .cons rfl rfl (by decide) (.cons rfl rfl (by decide) .nil)
  obtain ⟨outcomes, counts⟩ := step_union_iff checks
  obtain ⟨last, exhausted, -⟩ := (outcomes _ _).1 rfl
  exact ⟨checks, ⟨_, refuse⟩, ⟨last, exhausted⟩, counts failures _ refuse rfl⟩

end Visit

namespace Schema

/-- Fields that are parsed one after the other: each schema is entered at the depth, on the entry of
its name or on undefined if there is none, in the run that the field before it left. -/
inductive FieldsParsed (o : Options) (depth : Nat) (entries : Entries Value) :
    List (String × Schema) → Run → Entries Value → Run → Prop
  | nil {run : Run} : FieldsParsed o depth entries [] run [] run
  | cons {name : String} {s : Schema} {rest : List (String × Schema)} {run mid after : Run}
      {value : Value} {values : Entries Value} (level : run.depth = depth)
      (parsed : s.enter o (Parser.fieldValue entries name) run = (.ok value, mid))
      (later : FieldsParsed o depth entries rest mid values after) :
      FieldsParsed o depth entries ((name, s) :: rest) run ((name, value) :: values) after

/-- What comes of the entries of an object, and the run after the last field that is entered. -/
inductive ObjectOutcome (o : Options) (policy : UnknownKeys) (fields : List (String × Schema))
    (depth : Nat) (entries : Entries Value) (run : Run) : Except Failure Value → Run → Prop
  /-- A field fails after all fields before it are parsed, whatever else is undeclared. -/
  | failed {done rest : List (String × Schema)} {name : String} {s : Schema}
      {values : Entries Value} {mid after : Run} {failure : Failure}
      (split : fields = done ++ (name, s) :: rest)
      (before : FieldsParsed o depth entries done run values mid) (level : mid.depth = depth)
      (fails : s.enter o (Parser.fieldValue entries name) mid = (.error failure, after)) :
      ObjectOutcome o policy fields depth entries run (.error (failure.prefixed (.key name))) after
  /-- All fields are parsed, and the undeclared names are refused. -/
  | unrecognized {values : Entries Value} {after : Run}
      (all : FieldsParsed o depth entries fields run values after) (strict : policy = .strict)
      (undeclared : ∃ name ∈ Entries.names entries, name ∉ Entries.names fields) :
      ObjectOutcome o policy fields depth entries run
        (.error (.here (.unrecognizedKeys
          ((Entries.names entries).filter fun name => decide (name ∉ Entries.names fields))))) after
  /-- All fields are parsed. Those that stay come before the undeclared entries that stay. -/
  | made {values : Entries Value} {after : Run}
      (all : FieldsParsed o depth entries fields run values after)
      (closed : policy = .strict → ∀ name ∈ Entries.names entries, name ∈ Entries.names fields) :
      ObjectOutcome o policy fields depth entries run
        (.ok (.object (Parser.kept entries values ++ Parser.keptUndeclared policy
          (entries.filter fun e => decide (e.1 ∉ Entries.names fields))))) after

variable {o : Options} {entries : Entries Value} {fields : List (String × Schema)}
  {run after : Run}

theorem FieldsParsed.names_eq {depth : Nat} {values : Entries Value}
    (all : FieldsParsed o depth entries fields run values after) :
    Entries.names values = Entries.names fields := by
  induction all with
  | nil => rfl
  | cons level parsed later ih => exact congrArg (List.cons _) ih

theorem fieldsInOrder_eq_ok_iff {made : Entries Value} :
    Parser.fieldsInOrder entries (fields.map fun f => (f.1, f.2.enter o)) run = (.ok made, after) ↔
      ∃ values, FieldsParsed o run.depth entries fields run values after ∧
        made = Parser.kept entries values := by
  induction fields generalizing run made with
  | nil =>
    constructor
    · intro parsed
      obtain ⟨rfl, rfl⟩ : [] = made ∧ run = after := by simpa [Parser.fieldsInOrder] using parsed
      exact ⟨[], .nil, rfl⟩
    · rintro ⟨values, parsed, rfl⟩
      cases parsed
      rfl
  | cons f rest ih =>
    obtain ⟨name, s⟩ := f
    have level : (s.enter o (Parser.fieldValue entries name) run).2.depth = run.depth :=
      s.enter_depth o _ run
    rcases first : s.enter o (Parser.fieldValue entries name) run with ⟨failure | value, mid⟩
    · constructor
      · intro parsed
        simp [Parser.fieldsInOrder_cons, first] at parsed
      · rintro ⟨values, all, rfl⟩
        cases all with
        | cons _ parsed _ =>
          rw [first] at parsed
          cases parsed
    · rw [first] at level
      rw [List.map_cons, Parser.fieldsInOrder_cons_ok (f := (name, s.enter o)) first, ← level]
      constructor
      · intro parsed
        rcases later : Parser.fieldsInOrder entries (rest.map fun f => (f.1, f.2.enter o)) mid with
          ⟨failure | others, last⟩
        · rw [later] at parsed
          cases parsed
        obtain ⟨rfl, rfl⟩ : Parser.kept entries [(name, value)] ++ others = made ∧ last =
            after := by
          simpa [later, Step.changed, Except.map] using parsed
        obtain ⟨values, all, rfl⟩ := ih.1 later
        exact ⟨(name, value) :: values, .cons level.symm first all, (List.filter_append _ _).symm⟩
      · rintro ⟨values, all, rfl⟩
        cases all with
        | cons _ parsed later =>
          obtain ⟨rfl, rfl⟩ : value = _ ∧ mid = _ := by simpa [first] using parsed
          rw [ih.2 ⟨_, later, rfl⟩]
          exact congrArg (·, after) (congrArg Except.ok (List.filter_append _ _).symm)

private theorem fieldsInOrder_eq_error_iff {failure : Failure} :
    Parser.fieldsInOrder entries (fields.map fun f => (f.1, f.2.enter o)) run =
        (.error failure, after) ↔
      ∃ done name s rest values mid inner, fields = done ++ (name, s) :: rest ∧
        FieldsParsed o run.depth entries done run values mid ∧ mid.depth = run.depth ∧
        s.enter o (Parser.fieldValue entries name) mid = (.error inner, after) ∧
        failure = inner.prefixed (.key name) := by
  constructor
  · intro refused
    obtain ⟨before, field, others, values, mid, inner, split, parsed, fails, rfl⟩ :=
      Parser.fieldsInOrder_error_split refused
    obtain ⟨done, ⟨name, s⟩, rest, rfl, rfl, rfl⟩ := Visit.exists_split_of_map split
    obtain ⟨all, fine, rfl⟩ := fieldsInOrder_eq_ok_iff.1 parsed
    have level : mid.depth = run.depth := by
      have loop := Parser.Lawful.fieldsInOrder (Visit.fields_lawful o done) entries run
      rw [parsed] at loop
      exact loop.depth
    exact ⟨done, name, s, rest, all, mid, inner, rfl, fine, level, fails, rfl⟩
  · rintro ⟨done, name, s, rest, values, mid, inner, rfl, fine, -, fails, rfl⟩
    have parsed := fieldsInOrder_eq_ok_iff.2 ⟨values, fine, rfl⟩
    rw [List.map_append, List.map_cons]
    exact Parser.fieldsInOrder_stops (f := (name, s.enter o)) parsed fails

private theorem names_undeclared (fields : List (String × Schema)) (entries : Entries Value) :
    Entries.names (entries.filter fun e => decide (e.1 ∉ Entries.names fields)) =
      (Entries.names entries).filter fun name => decide (name ∉ Entries.names fields) := by
  rw [← Entries.without_eq_filter, Entries.names_without]

private theorem undeclared_isEmpty_iff (fields : List (String × Schema)) (entries : Entries Value) :
    (entries.filter fun e => decide (e.1 ∉ Entries.names fields)).isEmpty = true ↔
      ∀ name ∈ Entries.names entries, name ∈ Entries.names fields := by
  rw [← Entries.without_eq_filter, Entries.without_isEmpty]

private theorem undeclared_isEmpty_eq_false_iff (fields : List (String × Schema))
    (entries : Entries Value) :
    (entries.filter fun e => decide (e.1 ∉ Entries.names fields)).isEmpty = false ↔
      ∃ name ∈ Entries.names entries, name ∉ Entries.names fields := by
  rw [← Bool.not_eq_true, undeclared_isEmpty_iff]
  simp only [not_forall, exists_prop]

theorem check_object_of_ok {m : Modifiers} {unknownKeys : UnknownKeys} {made : Entries Value}
    (parsed : Parser.fieldsInOrder entries (fields.map fun f => (f.1, f.2.enter o)) run =
      (.ok made, after)) :
    (object m unknownKeys fields).check o (.object entries) run =
      (Parser.withUndeclared (o.unknownKeys?.getD unknownKeys)
        (entries.filter fun e => decide (e.1 ∉ Entries.names fields)) made, after) := by
  rw [check_object]
  simp only [Parser.object, parsed, Entries.without_eq_filter, Entries.names_map]

theorem check_object_of_error {m : Modifiers} {unknownKeys : UnknownKeys} {failure : Failure}
    (refused : Parser.fieldsInOrder entries (fields.map fun f => (f.1, f.2.enter o)) run =
      (.error failure, after)) :
    (object m unknownKeys fields).check o (.object entries) run = (.error failure, after) := by
  rw [check_object, Parser.object_of_error refused]

theorem check_object_iff {m : Modifiers} {unknownKeys : UnknownKeys}
    {result : Except Failure Value} :
    (object m unknownKeys fields).check o (.object entries) run = (result, after) ↔
      ObjectOutcome o (o.unknownKeys?.getD unknownKeys) fields run.depth entries run result
        after := by
  constructor
  · intro returned
    rcases fieldwise : Parser.fieldsInOrder entries (fields.map fun f => (f.1, f.2.enter o)) run
      with ⟨failure | made, last⟩
    · rw [check_object_of_error fieldwise] at returned
      obtain ⟨rfl, rfl⟩ := Prod.mk.inj returned
      obtain ⟨done, name, s, rest, values, mid, inner, split, before, level, fails, rfl⟩ :=
        fieldsInOrder_eq_error_iff.1 fieldwise
      exact .failed split before level fails
    · rw [check_object_of_ok fieldwise, Parser.withUndeclared_eq, names_undeclared] at returned
      obtain ⟨values, all, rfl⟩ := fieldsInOrder_eq_ok_iff.1 fieldwise
      obtain ⟨rfl, rfl⟩ := Prod.mk.inj returned
      split
      next refuses =>
        exact .unrecognized all refuses.1
          ((undeclared_isEmpty_eq_false_iff fields entries).1 refuses.2)
      next allows =>
        refine .made all fun strict => (undeclared_isEmpty_iff fields entries).1 ?_
        simpa [strict] using allows
  · intro outcome
    cases outcome with
    | failed split before level fails =>
      exact check_object_of_error
        (fieldsInOrder_eq_error_iff.2 ⟨_, _, _, _, _, _, _, split, before, level, fails, rfl⟩)
    | unrecognized all strict undeclared =>
      have refuses := (undeclared_isEmpty_eq_false_iff fields entries).2 undeclared
      rw [check_object_of_ok (fieldsInOrder_eq_ok_iff.2 ⟨_, all, rfl⟩), Parser.withUndeclared_eq,
        if_pos ⟨strict, refuses⟩, names_undeclared]
    | made all closed =>
      have allows : ¬ (o.unknownKeys?.getD unknownKeys = .strict ∧
          (entries.filter fun e => decide (e.1 ∉ Entries.names fields)).isEmpty = false) := by
        rintro ⟨strict, some_left⟩
        rw [(undeclared_isEmpty_iff fields entries).2 (closed strict)] at some_left
        cases some_left
      rw [check_object_of_ok (fieldsInOrder_eq_ok_iff.2 ⟨_, all, rfl⟩), Parser.withUndeclared_eq,
        if_neg allows]

private theorem ObjectOutcome.names_nodup {policy : UnknownKeys} {depth : Nat} {out : Entries Value}
    (outcome : ObjectOutcome o policy fields depth entries run (.ok (.object out)) after)
    (declared : (Entries.names fields).Nodup) (distinct : (Entries.names entries).Nodup) :
    (Entries.names out).Nodup := by
  cases outcome with
  | made all closed =>
    have parsed := all.names_eq
    rw [← Entries.without_eq_filter, Parser.output_eq parsed]
    exact Parser.names_output_nodup (parsed ▸ declared) distinct policy

end Schema

namespace Visit

variable {o : Options} {m : Modifiers} {unknownKeys : UnknownKeys}
  {fields : List (String × Schema)} {v : Value} {run inner : Run} {entries : Entries Value}

/-- An object schema that gets to its check with an object comes to the one outcome that the object
has, its fields being entered one level deeper. No name is twice in an output. -/
theorem step_object_iff
    (checks : Checks o ⟨.object m unknownKeys fields, v, run⟩ (.object entries) inner)
    (declared : (Entries.names fields).Nodup) (distinct : (Entries.names entries).Nodup) :
    (∀ result after, step o ⟨.object m unknownKeys fields, v, run⟩ = (result, after) ↔
      ∃ last, Schema.ObjectOutcome o (o.unknownKeys?.getD unknownKeys) fields (run.depth + 1)
          entries inner result last ∧ after = { last with depth := run.depth }) ∧
    ∀ out, (step o ⟨.object m unknownKeys fields, v, run⟩).1 = .ok (.object out) →
      (Entries.names out).Nodup := by
  have outcomes : ∀ result after, step o ⟨.object m unknownKeys fields, v, run⟩ = (result, after) ↔
      ∃ last, Schema.ObjectOutcome o (o.unknownKeys?.getD unknownKeys) fields (run.depth + 1)
          entries inner result last ∧ after = { last with depth := run.depth } := by
    intro result after
    have level : inner.depth = run.depth + 1 := checks.depth
    rw [checks.step_eq_iff, ← level]
    exact exists_congr fun last => and_congr_left fun _ => Schema.check_object_iff
  refine ⟨outcomes, fun out accepted => ?_⟩
  obtain ⟨last, outcome, -⟩ := (outcomes (.ok (.object out)) _).1 (Prod.ext accepted rfl)
  exact outcome.names_nodup declared distinct

/-- A flag that is null decides before an undeclared entry. If all flags are fine, the one that is
left out comes before the undeclared entry, and the optional one does not come at all. -/
theorem step_object_of_flags :
    let fields : List (String × Schema) := [("a", .boolean), ("b", .undefined),
      ("c", .modify .boolean (.default (.value (.bool true))))]
    let visit (entries : Entries Value) : Visit :=
      ⟨.object {} .strict fields, .object entries, ⟨{}, 0⟩⟩
    let bad : Entries Value := [("z", .null), ("a", .null)]
    let good : Entries Value := [("z", .null), ("a", .bool false)]
    let made : Entries Value := [("a", .bool false), ("c", .bool true), ("z", .null)]
    let o : Options := { unknownKeys? := some .passthrough }
    (∃ last, Schema.ObjectOutcome {} .strict fields 1 bad ⟨{}, 1⟩
      (.error (.plain [.key "a"] (.typeMismatch .boolean .null))) last) ∧
    (∃ last, Schema.ObjectOutcome o .passthrough fields 1 good ⟨{}, 1⟩ (.ok (.object made)) last) ∧
    ((visit good).step o).1 = .ok (.object made) ∧ (Entries.names made).Nodup := by
  intro fields visit bad good made o
  have checks_bad : Checks {} (visit bad) (.object bad) ⟨{}, 1⟩ := ⟨by decide, rfl, rfl, nofun⟩
  have checks_good : Checks o (visit good) (.object good) ⟨{}, 1⟩ := ⟨by decide, rfl, rfl, nofun⟩
  have refused := (step_object_iff checks_bad (by decide) (by decide)).1
  obtain ⟨outcomes, distinct⟩ := step_object_iff checks_good (by decide) (by decide)
  obtain ⟨last, failed, -⟩ := (refused _ _).1 rfl
  obtain ⟨last', parsed, -⟩ := (outcomes _ _).1 rfl
  exact ⟨⟨last, failed⟩, ⟨last', parsed⟩, rfl, distinct made rfl⟩

end Visit

end ValueSchema
