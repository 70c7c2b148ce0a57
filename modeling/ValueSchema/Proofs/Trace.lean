import ValueSchema.Proofs.Schema.Visits

set_option autoImplicit false
set_option relaxedAutoImplicit false

namespace ValueSchema

/-- The events of a whole parse, for each result that it can have. -/
inductive Trace (o : Options) (start : Visit) : Except Failure Value → List Event → Prop
  | accepted {value : Value} {events : List Event} (quiet : ∀ e ∈ events, e.isRejection = true) :
      Trace o start (.ok value) events
  | refused {failure : Failure} {events : List Event} (other : failure.isLimit = false)
      (quiet : ∀ e ∈ events, e.isRejection = true) :
      Trace o start (.error failure) (events ++ [.parseFailed failure.path failure.code])
  | stopped {way : Way} {z : Visit} {events : List Event} (enters : Visit.Enters o start way z)
      (full : z.Full o) (quiet : ∀ e ∈ events, e.isRejection = true) :
      Trace o start (.error (.plain way.path (.recursionLimitExceeded o.maxDepth)))
        (events ++ .limitReached o.maxDepth ::
          (way.rejections ++ [.parseFailed way.path .recursionLimitExceeded]))

/-- A candidate of a union that fails: its visit, its failure, and what was reported in between. -/
structure Rejection where
  visit : Visit
  failure : Failure
  during : List Event

namespace Rejection

def event (index : Nat) (r : Rejection) : Event :=
  .candidateRejected index r.visit.schema.kind r.failure.code

def log : Nat → List Rejection → List Event
  | _, [] => []
  | index, r :: rest => r.during ++ r.event index :: log (index + 1) rest

private theorem log_append (index : Nat) (old new : List Rejection) :
    log index (old ++ new) = log index old ++ log (index + old.length) new := by
  induction old generalizing index with
  | nil => rfl
  | cons r rest ih =>
    have place : index + (r :: rest).length = index + 1 + rest.length := by
      rw [List.length_cons]
      omega
    simp only [List.cons_append, log, ih, place, List.append_assoc]

/-- A union rejects the candidate with an index: it visits it once the earlier rejections are
reported, and the visit fails. -/
structure By (o : Options) (x : Visit) (index : Nat) (earlier : List Rejection) (r : Rejection) :
    Prop where
  calls : Visit.Calls o x (.candidate index r.visit.schema.kind) r.visit
  starts : r.visit.run.events = x.run.events ++ log 0 earlier
  fails : (r.visit.step o).1 = .error r.failure
  reports : (r.visit.step o).2.events = r.visit.run.events ++ r.during

def InOrder (o : Options) (x : Visit) (candidates : List Schema) (rejected : List Rejection) :
    Prop :=
  ∀ (i : Nat) (r : Rejection), rejected[i]? = some r →
    candidates[i]? = some r.visit.schema ∧ r.By o x i (rejected.take i)

private theorem InOrder.append {o : Options} {x : Visit} {candidates done rest : List Schema}
    {old : List Rejection} {r : Rejection} (each : InOrder o x candidates old)
    (split : candidates = done ++ r.visit.schema :: rest) (so_far : old.length = done.length)
    (by_union : r.By o x done.length old) : InOrder o x candidates (old ++ [r]) := by
  intro i s found
  rcases Nat.lt_or_ge i old.length with earlier | later
  · rw [List.getElem?_append_left earlier] at found
    rw [List.take_append_of_le_length (Nat.le_of_lt earlier)]
    exact each i s found
  · obtain rfl : i = old.length := by
      have bound := (List.getElem?_eq_some_iff.1 found).1
      rw [List.length_append, List.length_singleton] at bound
      omega
    obtain rfl : r = s := by simpa using found
    refine ⟨?_, ?_⟩
    · rw [split, so_far]
      simp
    · rw [List.take_left, so_far]
      exact by_union

end Rejection

/-- How the visit of a union goes: the candidates that it rejects, and what is reported by the one
that it accepts, if any. A union that fails has rejected all of its candidates, or the one that
tripped over the limit last. -/
structure Visit.Tries (o : Options) (x : Visit) (candidates : List Schema)
    (rejected : List Rejection) (accepting : List Event) : Prop where
  events : (x.step o).2.events = x.run.events ++ Rejection.log 0 rejected ++ accepting
  each : Rejection.InOrder o x candidates rejected
  accepted : ∀ w, (x.step o).1 = .ok w → ∃ y, candidates[rejected.length]? = some y.schema ∧
    Visit.Calls o x (.candidate rejected.length y.schema.kind) y ∧ (y.step o).1 = .ok w ∧
    (y.step o).2.events = y.run.events ++ accepting
  refused : ∀ failure, (x.step o).1 = .error failure → accepting = [] ∧
    if failure.isLimit = true then ∃ r, rejected.getLast? = some r ∧ r.failure = failure
    else rejected.length = candidates.length

namespace Visit

/-- How far the visit of a union has got: it has rejected its first candidates, and the others are
left. -/
structure Tried (o : Options) (m : Modifiers) (candidates : List Schema) (v : Value) (run : Run)
    (u : Value) (inner : Run) (done rest : List Schema) (old : List Rejection) (mid : Run) :
    Prop where
  checks : Checks o ⟨.union m candidates, v, run⟩ u inner
  split : candidates = done ++ rest
  so_far : old.length = done.length
  before : ∃ failures, Parser.firstOf 0 (done.map fun s => (s.kind, s.enter o)) u inner =
    (.refused failures, mid)
  reported : mid.events = run.events ++ Rejection.log 0 old
  each : Rejection.InOrder o ⟨.union m candidates, v, run⟩ candidates old

variable {o : Options} {m : Modifiers} {candidates : List Schema} {v u : Value} {run inner : Run}

namespace Tried

variable {done rest : List Schema} {t : Schema} {old : List Rejection} {mid after : Run}
  {failure : Failure} {w : Value} {during : List Event}

private theorem exhausted (tried : Tried o m candidates v run u inner done [] old mid) :
    Tries o ⟨.union m candidates, v, run⟩ candidates old [] := by
  obtain rfl : candidates = done := by rw [tried.split, List.append_nil]
  obtain ⟨failures, before⟩ := tried.before
  refine ⟨?_, tried.each, ?_, ?_⟩
  · rw [tried.checks.events_eq, Schema.check_union, Parser.union_eq, before, tried.reported,
      List.append_nil]
  · intro w accepted
    rw [tried.checks.result_eq, Schema.check_union, Parser.union_eq, before] at accepted
    cases accepted
  · intro failure refused
    rw [tried.checks.result_eq, Schema.check_union, Parser.union_eq, before] at refused
    obtain rfl := Except.error.inj refused
    exact ⟨rfl, tried.so_far⟩

section Next

variable (tried : Tried o m candidates v run u inner done (t :: rest) old mid)

include tried

private theorem calls :
    Calls o ⟨.union m candidates, v, run⟩ (.candidate done.length t.kind) ⟨t, u, mid⟩ := by
  obtain ⟨failures, before⟩ := tried.before
  exact .candidate tried.checks tried.split before

private theorem accepted (accepts : t.enter o u mid = (.ok w, after))
    (later : after.events = mid.events ++ during) :
    Tries o ⟨.union m candidates, v, run⟩ candidates old during := by
  obtain ⟨failures, before⟩ := tried.before
  have result : Visit.step o ⟨.union m candidates, v, run⟩ = _ := tried.checks.step_eq
  rw [check_union_split tried.split, Parser.union_eq,
    Parser.firstOf_accepts (c := (t.kind, t.enter o)) before accepts] at result
  refine ⟨?_, tried.each, ?_, ?_⟩
  · rw [result, ← tried.reported, ← later]
  · intro w' accepted
    rw [result] at accepted
    obtain rfl := Except.ok.inj accepted
    refine ⟨⟨t, u, mid⟩, ?_, tried.so_far ▸ tried.calls, by simp only [step, accepts],
      by simp only [step, accepts, later]⟩
    rw [tried.split, tried.so_far]
    simp
  · intro failure refused
    rw [result] at refused
    cases refused

private theorem reported_rejected (failure : Failure)
    (later : after.events = mid.events ++ during) :
    (after.emit (.candidateRejected done.length t.kind failure.code)).events =
      run.events ++ Rejection.log 0 (old ++ [⟨⟨t, u, mid⟩, failure, during⟩]) := by
  simp [Run.emit, Session.emit, later, tried.reported, Rejection.log_append, Rejection.log,
    Rejection.event, tried.so_far]

variable (fails : t.enter o u mid = (.error failure, after))
  (later : after.events = mid.events ++ during)

include fails later

private theorem rejected : Rejection.By o ⟨.union m candidates, v, run⟩ done.length old
    ⟨⟨t, u, mid⟩, failure, during⟩ :=
  { calls := tried.calls
    starts := tried.reported
    fails := by simp only [step, fails]
    reports := by simp only [step, fails, later] }

private theorem each_rejected : Rejection.InOrder o ⟨.union m candidates, v, run⟩ candidates
    (old ++ [⟨⟨t, u, mid⟩, failure, during⟩]) :=
  tried.each.append tried.split tried.so_far (tried.rejected fails later)

private theorem stopped (limit : failure.isLimit = true) :
    Tries o ⟨.union m candidates, v, run⟩ candidates
      (old ++ [⟨⟨t, u, mid⟩, failure, during⟩]) [] := by
  obtain ⟨failures, before⟩ := tried.before
  have result : Visit.step o ⟨.union m candidates, v, run⟩ = _ := tried.checks.step_eq
  rw [check_union_split tried.split, Parser.union_eq,
    Parser.firstOf_stops (c := (t.kind, t.enter o)) before fails limit] at result
  refine ⟨?_, tried.each_rejected fails later, ?_, ?_⟩
  · rw [result, List.append_nil, ← tried.reported_rejected failure later, List.length_map,
      Nat.zero_add]
  · intro w accepted
    rw [result] at accepted
    cases accepted
  · intro other refused
    rw [result] at refused
    obtain rfl := Except.error.inj refused
    exact ⟨rfl, by simp [limit]⟩

private theorem next (other : failure.isLimit = false) :
    Tried o m candidates v run u inner (done ++ [t]) rest
      (old ++ [⟨⟨t, u, mid⟩, failure, during⟩])
      (after.emit (.candidateRejected done.length t.kind failure.code)) where
  checks := tried.checks
  split := by rw [tried.split, List.append_assoc]; rfl
  so_far := by simp [tried.so_far]
  before := by
    obtain ⟨failures, before⟩ := tried.before
    refine ⟨failures ++ [failure], ?_⟩
    rw [List.map_append]
    simpa using Parser.firstOf_refuses (c := (t.kind, t.enter o)) before fails other
  reported := tried.reported_rejected failure later
  each := tried.each_rejected fails later

end Next

private theorem tries (tried : Tried o m candidates v run u inner done rest old mid) :
    ∃ rejected accepting,
      Tries o ⟨.union m candidates, v, run⟩ candidates rejected accepting := by
  induction rest generalizing done old mid with
  | nil => exact ⟨old, [], tried.exhausted⟩
  | cons t rest ih =>
    have lawful : Step.Lawful mid (t.enter o u mid) := t.enter_lawful o u mid
    obtain ⟨during, later, -⟩ := lawful.events
    rcases entered : t.enter o u mid with ⟨failure | w, after⟩
    · rw [entered] at later
      by_cases limit : failure.isLimit = true
      · exact ⟨_, [], tried.stopped entered later limit⟩
      · exact ih (tried.next entered later (by simpa using limit))
    · rw [entered] at later
      exact ⟨old, during, tried.accepted entered later⟩

end Tried

private theorem Checks.tries (checks : Checks o ⟨.union m candidates, v, run⟩ u inner) :
    ∃ rejected accepting,
      Tries o ⟨.union m candidates, v, run⟩ candidates rejected accepting := by
  have tried : Tried o m candidates v run u inner [] candidates [] inner :=
    ⟨checks, rfl, rfl, ⟨[], rfl⟩, by rw [checks.events, Rejection.log, List.append_nil],
      fun i r found => by cases found⟩
  exact tried.tries

end Visit

namespace Schema

private theorem parse_step (s : Schema) (o : Options) (input : Value) (session : Session) :
    s.parse o input session =
      (((Visit.start s input session).step o).1,
        match ((Visit.start s input session).step o).1 with
        | .error failure => ((Visit.start s input session).step o).2.toSession.emit
            (.parseFailed failure.path failure.code)
        | .ok _ => ((Visit.start s input session).step o).2.toSession) := by
  simp only [parse, Visit.step, Visit.start]
  rcases s.enter o input ⟨session, 0⟩ with ⟨failure | value, run⟩
  · rfl
  · rfl

/-- The events of a whole parse tell how it went, and so do those of every union that gets to the
check of its kind. -/
theorem parse_trace (s : Schema) (o : Options) (input : Value) (session : Session) :
    (∃ new, (s.parse o input session).2.events = session.events ++ new ∧
      Trace o (.start s input session) (s.parse o input session).1 new) ∧
    ∀ way m candidates v run u inner,
      Visit.Enters o (.start s input session) way ⟨.union m candidates, v, run⟩ →
      Visit.Checks o ⟨.union m candidates, v, run⟩ u inner →
      (Visit.step o ⟨.union m candidates, v, run⟩).2.events <+:
        (s.parse o input session).2.events ∧
      ∃ rejected accepting,
        Visit.Tries o ⟨.union m candidates, v, run⟩ candidates rejected accepting := by
  have whole := s.parse_step o input session
  refine ⟨?_, fun way m candidates v run u inner enters checks => ⟨?_, checks.tries⟩⟩
  · have lawful : Step.Lawful ⟨session, 0⟩ ((Visit.start s input session).step o) :=
      s.enter_lawful o input ⟨session, 0⟩
    rcases returned : (Visit.start s input session).step o with ⟨failure | value, after⟩
    · rw [returned] at whole lawful
      rw [whole]
      by_cases limit : failure.isLimit = true
      · obtain ⟨way, z, enters, full⟩ : ∃ way z, Visit.Enters o (.start s input session) way z ∧
            z.Full o := Visit.exists_full (by rw [returned, tripped_error, limit])
        obtain ⟨failed, events⟩ := enters.stops full
        rw [returned] at failed events
        obtain rfl := Except.error.inj failed
        obtain ⟨before, reached, quiet⟩ := enters.rejects
        refine ⟨_, ?_, .stopped enters full quiet⟩
        change after.events ++ _ = _
        rw [show after.events = _ from events, reached]
        simp [Visit.start, Failure.path, Failure.code, Cause.code]
      · have other : failure.isLimit = false := by simpa using limit
        obtain ⟨new, later, quiet⟩ := lawful.rejects other
        refine ⟨_, ?_, .refused other quiet⟩
        change after.events ++ _ = _
        rw [show after.events = session.events ++ new from later, List.append_assoc]
    · rw [returned] at whole lawful
      rw [whole]
      obtain ⟨new, later, quiet⟩ := lawful.rejects rfl
      exact ⟨new, later, .accepted quiet⟩
  · refine enters.reports.trans ?_
    rw [whole]
    split
    · exact List.prefix_append _ _
    · exact List.prefix_refl _

/-- A limit of three levels is met below the first candidate of a union, which then reports that
candidate, and the parse its failure. -/
theorem parse_trace_of_stopped_union :
    let s : Schema := .unionOf [.arrayOf (.arrayOf .boolean), .arrayOf .null]
    let input : Value := .array [.array [.null]]
    let start : Visit := .start s input {}
    Trace { maxDepth := 3 } start (s.parse { maxDepth := 3 } input {}).1
        [.limitReached 3, .candidateRejected 0 .array .recursionLimitExceeded,
          .parseFailed [.index 0, .index 0] .recursionLimitExceeded] ∧
      ∃ rejected accepting, Visit.Tries { maxDepth := 3 } start
        [.arrayOf (.arrayOf .boolean), .arrayOf .null] rejected accepting := by
  intro s input start
  obtain ⟨⟨new, events, trace⟩, unions⟩ := parse_trace s { maxDepth := 3 } input {}
  have checks : start.Checks { maxDepth := 3 } input ⟨{}, 1⟩ :=
    ⟨by decide, rfl, rfl, by simp [input]⟩
  obtain rfl : _ = new := events
  exact ⟨trace, (unions [] _ _ _ _ _ _ (.here start) checks).2⟩

end Schema

end ValueSchema
