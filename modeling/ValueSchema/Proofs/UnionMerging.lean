import ValueSchema.Proofs.Acceptance
import ValueSchema.Proofs.Composites

set_option autoImplicit false
set_option relaxedAutoImplicit false

namespace ValueSchema

def Run.deeper (run : Run) : Run := { run with depth := run.depth + 1 }

namespace Schema

variable {o : Options} {v w : Value} {run run' : Run} {candidates others : List Schema}

section Trying

def tried (o : Options) (index : Nat) (candidates : List Schema) (v : Value) (run : Run) :
    Parser.Trial × Run :=
  Parser.firstOf index (candidates.map fun s => (s.kind, s.enter o)) v run

variable {index : Nat}

private theorem tried_depth (o : Options) (index : Nat) (candidates : List Schema) (v : Value)
    (run : Run) :
    (tried o index candidates v run).2.depth = run.depth :=
  (Parser.Lawful.firstOf (Visit.candidates_lawful o candidates) .all index v run).1.depth

private theorem tried_cons_refused {s : Schema} {failure : Failure} {mid : Run}
    (fails : s.enter o v run = (.error failure, mid)) (other : failure.isLimit = false)
    (rest : List Schema) :
    tried o index (s :: rest) v run =
      ((tried o (index + 1) rest v
          (mid.emit (.candidateRejected index s.kind failure.code))).1.after failure,
        (tried o (index + 1) rest v
          (mid.emit (.candidateRejected index s.kind failure.code))).2) :=
  Parser.firstOf_cons_refused (c := (s.kind, s.enter o)) fails other _

private theorem tried_eq_or_stopped (o : Options) (index index' : Nat) (candidates : List Schema)
    (v : Value) (calls : run.calls = run'.calls) (level : run.depth = run'.depth) :
    (tried o index candidates v run).1 = (tried o index' candidates v run').1 ∨
      ∃ failure failure', (tried o index candidates v run).1 = .stopped failure ∧
        (tried o index' candidates v run').1 = .stopped failure' := by
  induction candidates generalizing index index' run run' with
  | nil => exact .inl rfl
  | cons s rest ih =>
    have echoes : Step.Echoes Session.SameCalls run run' (s.enter o v run) (s.enter o v run') :=
      enter_echoes_calls o o.maxDepth s v calls (by rw [level])
    rcases echoes.cases with ⟨failure, failure', mid, mid', fails, fails', limit, limit'⟩ |
      ⟨failure, mid, mid', fails, fails', other, same⟩ | ⟨value, mid, mid', made, made', -⟩
    · exact .inr ⟨failure, failure', by simp [tried, Parser.firstOf, fails, limit],
        by simp [tried, Parser.firstOf, fails', limit']⟩
    · have calls : (mid.emit (.candidateRejected index s.kind failure.code)).calls =
          (mid'.emit (.candidateRejected index' s.kind failure.code)).calls := same.session
      have later := ih (index + 1) (index' + 1) calls
        (same.depth.trans (level.trans same.depth'.symm))
      rw [tried_cons_refused fails other, tried_cons_refused fails' other]
      rcases later with same | ⟨stop, stop', stops, stops'⟩
      · exact .inl (congrArg (Parser.Trial.after failure) same)
      · exact .inr ⟨stop, stop', congrArg (Parser.Trial.after failure) stops,
          congrArg (Parser.Trial.after failure) stops'⟩
    · exact .inl (by simp [tried, Parser.firstOf, made, made'])

theorem tried_iff {index' : Nat} (calls : run.calls = run'.calls) (level : run.depth = run'.depth)
    {trial : Parser.Trial} (unstopped : ∀ failure, trial ≠ .stopped failure) :
    (tried o index candidates v run).1 = trial ↔ (tried o index' candidates v run').1 = trial := by
  rcases tried_eq_or_stopped o index index' candidates v calls level with
    same | ⟨failure, failure', stops, stops'⟩
  · rw [same]
  · rw [stops, stops']
    exact iff_of_false (unstopped failure).symm (unstopped failure').symm

theorem tried_cons_accepted_iff {s : Schema} {rest : List Schema} :
    (tried o index (s :: rest) v run).1 = .accepted w ↔ (s.enter o v run).1 = .ok w ∨
      ∃ failure mid, s.enter o v run = (.error failure, mid) ∧ failure.isLimit = false ∧
        (tried o (index + 1) rest v
          (mid.emit (.candidateRejected index s.kind failure.code))).1 = .accepted w := by
  rcases entered : s.enter o v run with ⟨failure | value, mid⟩
  · cases limit : failure.isLimit with
    | true => simp [tried, Parser.firstOf, entered, limit]
    | false =>
      rw [tried_cons_refused entered limit]
      cases later : (tried o (index + 1) rest v
        (mid.emit (.candidateRejected index s.kind failure.code))).1 <;>
        simp [Parser.Trial.after, limit, later]
  · simp [tried, Parser.firstOf, entered]

theorem tried_singleton_accepted_iff {s : Schema} :
    (tried o index [s] v run).1 = .accepted w ↔ (s.enter o v run).1 = .ok w := by
  rw [tried_cons_accepted_iff]
  exact or_iff_left fun ⟨_, _, _, _, later⟩ => nomatch later

private theorem tried_append_of_ended
    (ended : ∀ failures, (tried o index candidates v run).1 ≠ .refused failures) :
    tried o index (candidates ++ others) v run = tried o index candidates v run := by
  rw [tried, List.map_append]
  exact Parser.firstOf_append_of_ended ended _

private theorem tried_append_of_refused {failures : List Failure} {mid : Run}
    (refused : tried o index candidates v run = (.refused failures, mid)) :
    (tried o index (candidates ++ others) v run).1 =
      match (tried o (index + candidates.length) others v mid).1 with
      | .refused later => .refused (failures ++ later)
      | trial => trial := by
  rw [tried, List.map_append, Parser.firstOf_append refused, Parser.Trial.foldr_after,
    List.length_map]
  rfl

private theorem tried_append_accepted_iff :
    (tried o index (candidates ++ others) v run).1 = .accepted w ↔
      (tried o index candidates v run).1 = .accepted w ∨
        ∃ failures mid, tried o index candidates v run = (.refused failures, mid) ∧
          (tried o (index + candidates.length) others v mid).1 = .accepted w := by
  rcases first : tried o index candidates v run with ⟨value | failure | failures, mid⟩
  · rw [tried_append_of_ended (by simp [first]), first]
    simp
  · rw [tried_append_of_ended (by simp [first]), first]
    simp
  · rw [tried_append_of_refused first]
    cases later : (tried o (index + candidates.length) others v mid).1 <;> simp [later]

private theorem isLimit_of_stopped {failure : Failure}
    (stopped : (tried o index candidates v run).1 = .stopped failure) : failure.isLimit = true := by
  have returned : Parser.firstOf index (candidates.map fun s => (s.kind, s.enter o)) v run =
      (.stopped failure, (tried o index candidates v run).2) := Prod.ext stopped rfl
  obtain ⟨-, -, -, -, -, -, -, -, -, limit, -⟩ := Parser.firstOf_stopped_split returned
  exact limit

private theorem tried_cons_of_full (full : o.maxDepth ≤ run.depth) (s : Schema)
    (rest : List Schema) :
    (tried o index (s :: rest) v run).1 =
        .stopped (.here (.recursionLimitExceeded o.maxDepth)) := by
  simp [tried, Parser.firstOf, enter_of_full o full, Failure.isLimit, Failure.here, Failure.code,
    Cause.code]

theorem tried_of_full (full : o.maxDepth ≤ run.depth) :
    (tried o index candidates v run).1 ≠ .accepted w := by
  cases candidates with
  | nil => exact nofun
  | cons s rest =>
    rw [tried_cons_of_full full]
    exact nofun

theorem enter_missing {s : Schema} (closed : s.admitsUndefined = false)
    (room : run.depth < o.maxDepth) :
    s.enter o .undefined run = (.error (.here .missing), run) := by
  obtain ⟨⟨required, none⟩, unhandled⟩ :
      (s.modifiers.optional = false ∧ s.modifiers.default? = none) ∧ s.handlesUndefined =
          false := by
    simpa [admitsUndefined, Modifiers.admitUndefined] using closed
  simp [enter_eq, Parser.guarded, room, Parser.resolved, none, Parser.settled, required, unhandled]

private theorem tried_of_closed (o : Options) (index : Nat) (run : Run)
    (closed : anyAdmitsUndefined candidates = false) :
    o.maxDepth ≤ run.depth ∧ (∀ failures, (tried o index candidates .undefined run).1 ≠
        .refused failures) ∨
      ∃ failures mid, tried o index candidates .undefined run = (.refused failures, mid) ∧
        mid.calls = run.calls := by
  induction candidates generalizing index run with
  | nil => exact .inr ⟨[], run, rfl, rfl⟩
  | cons s rest ih =>
    have shut : s.admitsUndefined = false ∧ anyAdmitsUndefined rest = false := by
      simpa [anyAdmitsUndefined, admitsUndefined] using closed
    by_cases room : run.depth < o.maxDepth
    · have misses := enter_missing shut.1 room
      rcases ih (index + 1) (run.emit (.candidateRejected index s.kind .missing)) shut.2 with
        ⟨full, -⟩ | ⟨failures, mid, refused, calls⟩
      · exact absurd room (Nat.not_lt.2 full)
      · refine .inr ⟨.here .missing :: failures, mid, ?_, calls⟩
        rw [tried_cons_refused misses rfl]
        exact congrArg (fun later => (later.1.after (.here .missing), later.2)) refused
    · have full : o.maxDepth ≤ run.depth := Nat.le_of_not_lt room
      exact .inl ⟨full, by simp [tried_cons_of_full full]⟩

end Trying

section Union

private theorem looks_or_misses (v : Value) (candidates : List Schema) :
    (v = .undefined → anyAdmitsUndefined candidates = true) ∨
      v = .undefined ∧ anyAdmitsUndefined candidates = false := by
  by_cases absent : v = .undefined
  · exact (Bool.eq_false_or_eq_true _).imp (fun admits _ => admits) fun closed => ⟨absent, closed⟩
  · exact .inl fun same => (absent same).elim

private theorem enter_union_open (room : run.depth < o.maxDepth)
    (looks : v = .undefined → anyAdmitsUndefined candidates = true) :
    (unionOf candidates).enter o v run =
      ((tried o 0 candidates v run.deeper).1.outcome o.unionFailures,
        { (tried o 0 candidates v run.deeper).2 with depth := run.depth }) := by
  have checks : Visit.Checks o ⟨unionOf candidates, v, run⟩ v run.deeper := by
    refine ⟨room, ?_, ?_, looks⟩
    · cases v <;> rfl
    · cases v <;> rfl
  refine checks.step_eq_iff.2 ⟨(tried o 0 candidates v run.deeper).2, ?_, rfl⟩
  rw [unionOf, check_union, Parser.union_eq]
  rfl

private theorem enter_union_closed (room : run.depth < o.maxDepth)
    (closed : anyAdmitsUndefined candidates = false) :
    (unionOf candidates).enter o .undefined run = (.error (.here .missing), run) :=
  enter_missing (s := unionOf candidates) closed room

private theorem enter_union_cases (room : run.depth < o.maxDepth) :
    (∃ failures mid, tried o 0 candidates v run.deeper = (.refused failures, mid) ∧
      (∃ failure, ((unionOf candidates).enter o v run).1 = .error failure ∧
        failure.isLimit = false) ∧
      ((unionOf candidates).enter o v run).2.calls = mid.calls) ∨
    ((∀ failures, (tried o 0 candidates v run.deeper).1 ≠ .refused failures) ∧
      ∀ failure, ((unionOf candidates).enter o v run).1 = .error failure → failure.isLimit = false →
        o.maxDepth ≤ run.deeper.depth) := by
  rcases looks_or_misses v candidates with looks | ⟨rfl, closed⟩
  · rw [enter_union_open room looks]
    rcases trial : tried o 0 candidates v run.deeper with ⟨value | stop | failures, mid⟩
    · exact .inr ⟨nofun, nofun⟩
    · refine .inr ⟨nofun, fun failure failed other => ?_⟩
      obtain rfl : stop = failure := Except.error.inj failed
      rw [isLimit_of_stopped (congrArg Prod.fst trial)] at other
      cases other
    · exact .inl ⟨failures, mid, rfl, ⟨_, rfl, rfl⟩, rfl⟩
  · rw [enter_union_closed room closed]
    rcases tried_of_closed o 0 run.deeper closed with
      ⟨full, ended⟩ | ⟨failures, mid, refused, calls⟩
    · exact .inr ⟨ended, fun _ _ _ => full⟩
    · exact .inl ⟨failures, mid, refused, ⟨_, rfl, rfl⟩, calls.symm⟩

theorem enter_union_ok_iff :
    ((unionOf candidates).enter o v run).1 = .ok w ↔
      run.depth < o.maxDepth ∧ (tried o 0 candidates v run.deeper).1 = .accepted w := by
  by_cases room : run.depth < o.maxDepth
  · rw [and_iff_right room]
    rcases looks_or_misses v candidates with looks | ⟨rfl, closed⟩
    · rw [enter_union_open room looks]
      cases (tried o 0 candidates v run.deeper).1 <;> simp [Parser.Trial.outcome]
    · rw [enter_union_closed room closed]
      rcases tried_of_closed o 0 run.deeper closed with ⟨full, -⟩ | ⟨failures, mid, refused, -⟩
      · exact iff_of_false (by simp) (tried_of_full full)
      · rw [refused]
        exact iff_of_false (by simp) (by simp)
  · rw [enter_of_full o (Nat.le_of_not_lt room)]
    exact iff_of_false (by simp) fun accepted => room accepted.1

private theorem enter_union_exhausted_iff {path : Path} {detail : List Failure} :
    ((unionOf candidates).enter o v run).1 = .error (.exhausted path detail) ↔
      run.depth < o.maxDepth ∧ (v = .undefined → anyAdmitsUndefined candidates = true) ∧ path = [] ∧
        ∃ failures, (tried o 0 candidates v run.deeper).1 = .refused failures ∧
          detail = Parser.reported o.unionFailures failures := by
  by_cases room : run.depth < o.maxDepth
  · rcases looks_or_misses v candidates with looks | ⟨rfl, closed⟩
    · rw [enter_union_open room looks, and_iff_right room, and_iff_right looks]
      cases trial : (tried o 0 candidates v run.deeper).1 with
      | accepted value => exact iff_of_false nofun nofun
      | stopped stop =>
        refine iff_of_false (fun failed => ?_) nofun
        obtain rfl : stop = .exhausted path detail := Except.error.inj failed
        cases isLimit_of_stopped trial
      | refused failures =>
        constructor
        · rintro ⟨⟩
          exact ⟨rfl, failures, rfl, rfl⟩
        · rintro ⟨rfl, failures, ⟨⟩, rfl⟩
          rfl
    · rw [enter_union_closed room closed]
      refine iff_of_false nofun fun exhausted => ?_
      rw [closed] at exhausted
      cases exhausted.2.1 rfl
  · rw [enter_of_full o (Nat.le_of_not_lt room)]
    exact iff_of_false nofun fun exhausted => room exhausted.1

private theorem reported_append (detail : UnionFailures) (failures later : List Failure) :
    Parser.reported detail (failures ++ later) =
      Parser.reported detail (Parser.reported detail failures ++ Parser.reported detail later) := by
  cases detail with
  | all => rfl
  | first => cases failures <;> cases later <;> simp [Parser.reported]

variable {next : Run}

private theorem tried_after_refused {failures : List Failure} {mid : Run}
    (room : run.depth < o.maxDepth)
    (calls : next.calls = ((unionOf candidates).enter o v run).2.calls)
    (level : next.depth = run.depth)
    (refused : tried o 0 candidates v run.deeper = (.refused failures, mid))
    {trial : Parser.Trial} (unstopped : ∀ failure, trial ≠ .stopped failure) :
    (tried o 0 others v next.deeper).1 = trial ↔
      (tried o (0 + candidates.length) others v mid).1 = trial := by
  rcases enter_union_cases (o := o) (v := v) room with
    ⟨failures', mid', refused', -, after⟩ | ⟨ended, -⟩
  · obtain ⟨-, rfl⟩ := Prod.mk.inj (refused'.symm.trans refused)
    have calls' : next.deeper.calls = mid'.calls := calls.trans after
    have level' : next.deeper.depth = mid'.depth := by
      have kept := tried_depth o 0 candidates v run.deeper
      rw [refused] at kept
      exact (congrArg (· + 1) level).trans kept.symm
    exact tried_iff calls' level' unstopped
  · exact (ended failures (congrArg Prod.fst refused)).elim

private theorem refused_then_accepted_iff (room : run.depth < o.maxDepth)
    (calls : next.calls = ((unionOf candidates).enter o v run).2.calls)
    (level : next.depth = run.depth) :
    (∃ failure, ((unionOf candidates).enter o v run).1 = .error failure ∧ failure.isLimit = false) ∧
        ((unionOf others).enter o v next).1 = .ok w ↔
      ∃ failures mid, tried o 0 candidates v run.deeper = (.refused failures, mid) ∧
        (tried o (0 + candidates.length) others v mid).1 = .accepted w := by
  rw [enter_union_ok_iff, level, and_iff_right room]
  constructor
  · rintro ⟨⟨failure, failed, other⟩, accepted⟩
    rcases enter_union_cases (o := o) (v := v) room with ⟨failures, mid, refused, -⟩ | ⟨-, fails⟩
    · exact ⟨failures, mid, refused,
        (tried_after_refused room calls level refused (by simp)).1 accepted⟩
    · have full : o.maxDepth ≤ next.deeper.depth := by
        have deeper : next.deeper.depth = run.deeper.depth := congrArg (· + 1) level
        exact deeper ▸ fails failure failed other
      exact (tried_of_full full accepted).elim
  · rintro ⟨failures, mid, refused, accepted⟩
    rcases enter_union_cases (o := o) (v := v) room with ⟨-, -, -, failed, -⟩ | ⟨ended, -⟩
    · exact ⟨failed, (tried_after_refused room calls level refused (by simp)).2 accepted⟩
    · exact (ended failures (congrArg Prod.fst refused)).elim

private theorem enter_merged_ok_iff
    (calls : next.calls = ((unionOf candidates).enter o v run).2.calls)
    (level : next.depth = run.depth) :
    ((unionOf (candidates ++ others)).enter o v run).1 = .ok w ↔
      ((unionOf candidates).enter o v run).1 = .ok w ∨
        (∃ failure, ((unionOf candidates).enter o v run).1 = .error failure ∧
            failure.isLimit = false) ∧
          ((unionOf others).enter o v next).1 = .ok w := by
  by_cases room : run.depth < o.maxDepth
  · rw [refused_then_accepted_iff room calls level, enter_union_ok_iff, enter_union_ok_iff,
      tried_append_accepted_iff, and_iff_right room, and_iff_right room]
  · rw [enter_union_ok_iff, enter_union_ok_iff, enter_union_ok_iff, level]
    simp [room]

private theorem enter_merged_exhausted {path path' : Path} {detail later : List Failure}
    (calls : next.calls = ((unionOf candidates).enter o v run).2.calls)
    (level : next.depth = run.depth)
    (first : ((unionOf candidates).enter o v run).1 = .error (.exhausted path detail))
    (second : ((unionOf others).enter o v next).1 = .error (.exhausted path' later)) :
    ((unionOf (candidates ++ others)).enter o v run).1 =
      .error (.exhausted [] (Parser.reported o.unionFailures (detail ++ later))) := by
  obtain ⟨room, looks, rfl, failures, refused, rfl⟩ := enter_union_exhausted_iff.1 first
  obtain ⟨-, -, -, failures', refused', rfl⟩ := enter_union_exhausted_iff.1 second
  have all : tried o 0 candidates v run.deeper = (.refused failures, _) := Prod.ext refused rfl
  refine enter_union_exhausted_iff.2 ⟨room, fun absent => ?_, rfl, failures ++ failures', ?_, ?_⟩
  · obtain ⟨s, member, admits⟩ := (anyAdmitsUndefined_iff candidates).1 (looks absent)
    exact (anyAdmitsUndefined_iff _).2 ⟨s, List.mem_append_left others member, admits⟩
  · rw [tried_append_of_refused all]
    rw [(tried_after_refused room calls level all (by simp)).1 refused']
  · exact (reported_append o.unionFailures failures failures').symm

private theorem enter_nested_ok_iff :
    ((unionOf [unionOf candidates, unionOf others]).enter
        { o with maxDepth := o.maxDepth + 1 } v run).1 = .ok w ↔
      ((unionOf (candidates ++ others)).enter o v run).1 = .ok w := by
  have left : o.maxDepth + run.deeper.depth = o.maxDepth + 1 + run.depth := by
    simp only [Run.deeper]
    omega
  have kept := (unionOf candidates).enter_depth o v run
  have calls : run.calls = run.deeper.calls := rfl
  have echoes := enter_echoes_calls o (o.maxDepth + 1) (unionOf candidates) v calls left
  have shallow : ((unionOf (candidates ++ others)).enter o v run).1 = .ok w →
      run.depth < o.maxDepth + 1 :=
    fun accepted => Nat.lt_succ_of_lt (enter_union_ok_iff.1 accepted).1
  have inside : (tried { o with maxDepth := o.maxDepth + 1 } 0
        [unionOf candidates, unionOf others] v run.deeper).1 = .accepted w ↔
      ((unionOf (candidates ++ others)).enter o v run).1 = .ok w := by
    rw [tried_cons_accepted_iff, enter_merged_ok_iff rfl kept]
    rcases echoes.cases with ⟨failure, failure', mid, mid', fails, fails', limit, limit'⟩ |
      ⟨failure, mid, mid', fails, fails', other, same⟩ | ⟨value, mid, mid', made, made', -⟩
    · simp [fails, fails', limit, limit']
    · -- the first union refuses at both depths, and the second one is entered after it
      have calls' : mid.calls =
          (mid'.emit (.candidateRejected 0 (unionOf candidates).kind failure.code)).calls :=
        same.session
      have left' : o.maxDepth +
          (mid'.emit (.candidateRejected 0 (unionOf candidates).kind failure.code)).depth =
            o.maxDepth + 1 + mid.depth := by
        rw [Run.emit_depth, same.depth, same.depth', left]
      have second := enter_echoes_calls o (o.maxDepth + 1) (unionOf others) v calls' left'
      rw [fails, fails', second.result_iff rfl]
      simp [other, tried_singleton_accepted_iff]
    · simp [made, made']
  rw [enter_union_ok_iff]
  exact ⟨fun both => inside.1 both.2, fun accepted => ⟨shallow accepted, inside.2 accepted⟩⟩

end Union

/-- Merging unions is trying one and then the other: after the calls of producers that the first
union has made, or after any calls if the second one makes none. Two exhausted unions make the
merged one exhausted, with the candidates of both, and a union of the two unions takes one level
more. -/
theorem parse_merged_unions (candidates others : List Schema) (o : Options) (v : Value)
    (session other : Session)
    (calls : other.calls = ((unionOf candidates).parse o v session).2.calls ∨
      (unionOf others).WithoutProducers) :
    ∃ merged, (unionOf candidates).merge? (unionOf others) = some merged ∧
      (∀ w, (merged.parse o v session).1 = .ok w ↔
        ((unionOf candidates).parse o v session).1 = .ok w ∨
          (∃ failure, ((unionOf candidates).parse o v session).1 = .error failure ∧
              failure.code ≠ .recursionLimitExceeded) ∧
            ((unionOf others).parse o v other).1 = .ok w) ∧
      (∀ path path' failures later,
        ((unionOf candidates).parse o v session).1 = .error (.exhausted path failures) →
        ((unionOf others).parse o v other).1 = .error (.exhausted path' later) →
        (merged.parse o v session).1 = .error (.exhausted [] (match o.unionFailures with
          | .all => failures ++ later
          | .first => (failures ++ later).head?.toList))) ∧
      ∀ w, ((unionOf [unionOf candidates, unionOf others]).parse
          { o with maxDepth := o.maxDepth + 1 } v session).1 = .ok w ↔
        (merged.parse o v session).1 = .ok w := by
  obtain ⟨next, left⟩ : ∃ next, ((unionOf candidates).enter o v ⟨session, 0⟩).2 = next := ⟨_, rfl⟩
  have level : next.depth = 0 := left ▸ (unionOf candidates).enter_depth o v ⟨session, 0⟩
  have after : next.calls = ((unionOf candidates).enter o v ⟨session, 0⟩).2.calls := by rw [left]
  -- it does not matter whether the second union is entered in that run or in the other session
  have alike : ∀ result, tripped result = false →
      (((unionOf others).enter o v ⟨other, 0⟩).1 = result ↔
        ((unionOf others).enter o v next).1 = result) := by
    intro result untripped
    rcases calls with same | fixed
    · have calls : (⟨other, 0⟩ : Run).calls = next.calls := by
        rw [after, ← parse_calls_eq, ← same]
      have room : o.maxDepth + next.depth = o.maxDepth + 0 := by rw [level]
      exact (enter_echoes_calls o o.maxDepth (unionOf others) v calls room).result_iff untripped
    · exact (fixed.enter_echoes o v level.symm).result_iff untripped
  refine ⟨unionOf (candidates ++ others), rfl, fun w => ?_, ?_, fun w => ?_⟩
  · have merges : ((unionOf (candidates ++ others)).enter o v ⟨session, 0⟩).1 = .ok w ↔ _ :=
      enter_merged_ok_iff after level
    simp only [parse_result, merges, alike (.ok w) rfl, ← Failure.isLimit_eq_false_iff]
  · intro path path' failures later first second
    rw [parse_result] at first second ⊢
    have exhausted := enter_merged_exhausted after level first ((alike _ rfl).1 second)
    rw [Parser.reported_eq] at exhausted
    exact exhausted
  · rw [parse_result, parse_result]
    exact enter_nested_ok_iff

/-- A union of a flag misses an absent value that the merged union finds a number for. -/
theorem parse_merged_unions_of_absent :
    let flag : Schema := .unionOf [.boolean]
    let port : Schema := .unionOf
      [.modify .number (.default (.producer (.cycle 0 [.number 0])))]
    (flag.parse {} .undefined {}).1 = .error (.here .missing) ∧
      ∃ merged, flag.merge? port = some merged ∧
        (merged.parse {} .undefined {}).1 = .ok (.number 0) ∧
        ((unionOf [flag, port]).parse { maxDepth := 101 } .undefined {}).1 = .ok (.number 0) := by
  intro flag port
  obtain ⟨merged, made, successes, -, nested⟩ := parse_merged_unions [.boolean]
    [.modify .number (.default (.producer (.cycle 0 [.number 0])))] {} .undefined {}
    (flag.parse {} .undefined {}).2 (.inl rfl)
  have accepted := (successes (.number 0)).2 (.inr ⟨⟨.here .missing, rfl, by decide⟩, rfl⟩)
  exact ⟨rfl, merged, made, accepted, (nested _).2 accepted⟩

end Schema

end ValueSchema
