import Mathlib.Data.List.Induction
import Mathlib.Data.List.Nodup
import ValueSchema.Proofs.Acceptance

/-!
Of each kind of bound there is one, with the limit of the last call, at the place of the first one.
-/

set_option autoImplicit false
set_option relaxedAutoImplicit false

namespace ValueSchema

namespace Bounds

variable {α : Type}

/-- What comes of setting bounds one after the other, from none at all. -/
def declared (calls : List (Bound α)) : Bounds α :=
  calls.foldl (fun bounds c => bounds.set c.kind c.limit) []

def IsLast (calls : List (Bound α)) (b : Bound α) : Prop :=
  ∃ before after, calls = before ++ b :: after ∧ ∀ c ∈ after, c.kind ≠ b.kind

theorem declared_append_single (calls : List (Bound α)) (c : Bound α) :
    declared (calls ++ [c]) = (declared calls).set c.kind c.limit := by
  simp only [declared, List.foldl_append, List.foldl_cons, List.foldl_nil]

private theorem kinds_set (bounds : Bounds α) (kind : ConstraintKind) (limit : α) :
    (bounds.set kind limit).map Bound.kind =
      if kind ∈ bounds.map Bound.kind then bounds.map Bound.kind
      else bounds.map Bound.kind ++ [kind] := by
  induction bounds with
  | nil => rfl
  | cons b rest ih =>
    rw [set]
    by_cases here : b.kind = kind
    · simp [here]
    · have other : kind ≠ b.kind := fun same => here same.symm
      rw [if_neg here, List.map_cons, ih, List.map_cons]
      by_cases later : kind ∈ rest.map Bound.kind
      · rw [if_pos later, if_pos (List.mem_cons_of_mem _ later)]
      · have fresh : kind ∉ b.kind :: rest.map Bound.kind := fun found =>
          (List.mem_cons.1 found).elim other later
        rw [if_neg later, if_neg fresh, List.cons_append]

private theorem mem_set_iff {bounds : Bounds α} (distinct : (bounds.map Bound.kind).Nodup)
    {kind : ConstraintKind} {limit : α} {b : Bound α} :
    b ∈ bounds.set kind limit ↔ b = ⟨kind, limit⟩ ∨ (b ∈ bounds ∧ b.kind ≠ kind) := by
  induction bounds with
  | nil => simp [set]
  | cons c rest ih =>
    rw [List.map_cons, List.nodup_cons] at distinct
    obtain ⟨fresh, below⟩ := distinct
    rw [set]
    by_cases here : c.kind = kind
    · have others : ∀ d ∈ rest, d.kind ≠ kind := fun d member same =>
        fresh (here.trans same.symm ▸ List.mem_map_of_mem member)
      rw [if_pos here, List.mem_cons]
      refine or_congr_right ⟨fun member => ?_, ?_⟩
      · exact ⟨List.mem_cons_of_mem c member, others b member⟩
      · rintro ⟨member, differs⟩
        rcases List.mem_cons.1 member with rfl | later
        · exact (differs here).elim
        · exact later
    · rw [if_neg here, List.mem_cons, ih below, List.mem_cons]
      constructor
      · rintro (rfl | rfl | ⟨later, differs⟩)
        · exact .inr ⟨.inl rfl, here⟩
        · exact .inl rfl
        · exact .inr ⟨.inr later, differs⟩
      · rintro (rfl | ⟨rfl | later, differs⟩)
        · exact .inr (.inl rfl)
        · exact .inl rfl
        · exact .inr (.inr ⟨later, differs⟩)

theorem kinds_declared (calls : List (Bound α)) :
    (declared calls).map Bound.kind = (calls.map Bound.kind).eraseDups := by
  induction calls using List.reverseRec with
  | nil => rfl
  | append_singleton calls c ih =>
    rw [declared_append_single, kinds_set, ih, List.map_append, List.eraseDups_append]
    by_cases known : c.kind ∈ calls.map Bound.kind
    · have none : [c.kind].removeAll (calls.map Bound.kind) = [] := by
        simpa [List.removeAll] using known
      rw [if_pos (List.mem_eraseDups.2 known), List.map_singleton, none, List.eraseDups_nil,
        List.append_nil]
    · have one : [c.kind].removeAll (calls.map Bound.kind) = [c.kind] := by
        simpa [List.removeAll] using known
      rw [if_neg fun found => known (List.mem_eraseDups.1 found), List.map_singleton, one,
        List.eraseDups_cons, List.filter_nil, List.eraseDups_nil]

private theorem kinds_declared_nodup (calls : List (Bound α)) :
    ((declared calls).map Bound.kind).Nodup := by
  induction calls using List.reverseRec with
  | nil => exact List.nodup_nil
  | append_singleton calls c ih =>
    rw [declared_append_single, kinds_set]
    split
    · exact ih
    next fresh => exact List.nodup_append.2 ⟨ih, List.nodup_singleton _, by simpa using fresh⟩

private theorem isLast_append_single_iff {calls : List (Bound α)} {c b : Bound α} :
    IsLast (calls ++ [c]) b ↔ b = c ∨ (IsLast calls b ∧ b.kind ≠ c.kind) := by
  constructor
  · rintro ⟨before, after, split, later⟩
    rcases List.eq_nil_or_concat after with rfl | ⟨rest, d, rfl⟩
    · obtain ⟨-, same⟩ := List.append_inj' split rfl
      exact .inl (List.cons.inj same).1.symm
    · rw [List.concat_eq_append] at split later
      have moved : calls ++ [c] = (before ++ b :: rest) ++ [d] := by
        rw [split, List.append_assoc, List.cons_append]
      obtain ⟨rfl, same⟩ := List.append_inj' moved rfl
      obtain rfl := (List.cons.inj same).1
      refine .inr ⟨⟨before, rest, rfl, fun d member => ?_⟩, ?_⟩
      · exact later d (List.mem_append_left _ member)
      · exact fun same => later c (List.mem_append_right _ List.mem_cons_self) same.symm
  · rintro (rfl | ⟨⟨before, after, rfl, later⟩, differs⟩)
    · exact ⟨calls, [], rfl, nofun⟩
    · refine ⟨before, after ++ [c], by rw [List.append_assoc, List.cons_append], ?_⟩
      intro d member
      rcases List.mem_append.1 member with inside | last
      · exact later d inside
      · obtain rfl := List.mem_singleton.1 last
        exact fun same => differs same.symm

theorem mem_declared_iff {calls : List (Bound α)} {b : Bound α} :
    b ∈ declared calls ↔ IsLast calls b := by
  induction calls using List.reverseRec with
  | nil =>
    constructor
    · intro member
      cases member
    · rintro ⟨before, after, split, -⟩
      cases before <;> cases split
  | append_singleton calls c ih =>
    rw [declared_append_single, mem_set_iff (kinds_declared_nodup calls), ih,
      isLast_append_single_iff]

end Bounds

private theorem Bound.not_holds_iff {α : Type} [Measure α] (b : Bound α) (actual : α) :
    ¬b.Holds actual ↔ b.violatedBy actual = true := by
  rw [holds_iff, Bool.not_eq_false]

namespace Bounds

variable {α : Type}

private theorem get?_eq_some_iff {bounds : Bounds α} (distinct : (bounds.map Bound.kind).Nodup)
    {kind : ConstraintKind} {limit : α} :
    bounds.get? kind = some limit ↔ (⟨kind, limit⟩ : Bound α) ∈ bounds := by
  induction bounds with
  | nil => simp [get?]
  | cons b rest ih =>
    obtain ⟨fresh, below⟩ := List.nodup_cons.1 distinct
    rw [List.mem_cons]
    by_cases here : b.kind = kind
    · subst here
      have found : get? (b :: rest) b.kind = some b.limit := by simp [get?]
      have others : (⟨b.kind, limit⟩ : Bound α) ∉ rest := fun later =>
        fresh (List.mem_map.2 ⟨_, later, rfl⟩)
      rw [found, or_iff_left others]
      constructor
      · intro same
        rw [← Option.some.inj same]
      · intro same
        rw [← same]
    · have skipped : get? (b :: rest) kind = get? rest kind := by simp [get?, here]
      have other : (⟨kind, limit⟩ : Bound α) ≠ b := fun same => here (same ▸ rfl)
      rw [skipped, ih below, or_iff_right other]

section Checks

variable [Measure α]

private theorem check_eq_ok_iff (bounds : Bounds α) (subject : Subject) (actual : α) :
    bounds.check subject actual = .ok () ↔ ∀ b ∈ bounds, b.Holds actual := by
  rw [← violation?_eq_none_iff_holds bounds subject, check]
  cases bounds.violation? subject actual <;> simp

private theorem check_eq_error_iff (bounds : Bounds α) (subject : Subject) (actual : α)
    (failure : Failure) :
    bounds.check subject actual = .error failure ↔
      bounds.violation? subject actual = some failure := by
  rw [check]
  cases bounds.violation? subject actual <;> simp

private theorem exists_error_iff (bounds : Bounds α) (subject : Subject) (actual : α) :
    (∃ failure, bounds.check subject actual = .error failure) ↔
      ∃ b ∈ bounds, ¬b.Holds actual := by
  have failed : (∃ failure, bounds.check subject actual = .error failure) ↔
      ¬bounds.check subject actual = .ok () := by
    cases bounds.check subject actual <;> simp
  rw [failed, check_eq_ok_iff]
  simp only [not_forall, exists_prop]

private theorem check_eq_error_iff_first (bounds : Bounds α) (subject : Subject) (actual : α)
    (failure : Failure) :
    bounds.check subject actual = .error failure ↔
      ∃ before b after, bounds = before ++ b :: after ∧ (∀ c ∈ before, c.Holds actual) ∧
        ¬b.Holds actual ∧ failure = .here (.constraintViolation subject b.kind
          (Measure.toDouble b.limit) (Measure.toDouble actual)) := by
  rw [check_eq_error_iff]
  constructor
  · intro found
    rcases bounds.within_or_violated actual with within | ⟨before, b, after, split, first, violated⟩
    · rw [violation?_eq_none.2 within] at found
      cases found
    · rw [violation?_of_split split first violated] at found
      exact ⟨before, b, after, split, fun c member => (c.holds_iff actual).2 (first c member),
        (b.not_holds_iff actual).2 violated, (Option.some.inj found).symm⟩
  · rintro ⟨before, b, after, split, first, violated, rfl⟩
    exact violation?_of_split split (fun c member => (c.holds_iff actual).1 (first c member))
      ((b.not_holds_iff actual).1 violated)

/-- The list of bounds that a sequence of calls leaves: one for each kind that was set, in the order
of their first calls and with the limits of their last ones. A quantity is refused where it does not
meet a bound, and the first one that it does not meet is reported. -/
structure Canonical (calls : List (Bound α)) (bounds : Bounds α) : Prop where
  distinct : (bounds.map Bound.kind).Nodup
  order : bounds.map Bound.kind = (calls.map Bound.kind).eraseDups
  limits (b : Bound α) : b ∈ bounds ↔ IsLast calls b
  get (kind : ConstraintKind) (limit : α) :
    bounds.get? kind = some limit ↔ IsLast calls ⟨kind, limit⟩
  refused (subject : Subject) (actual : α) :
    (∃ failure, bounds.check subject actual = .error failure) ↔ ∃ b ∈ bounds, ¬b.Holds actual
  reported (subject : Subject) (actual : α) (failure : Failure) :
    bounds.check subject actual = .error failure ↔
      ∃ before b after, bounds = before ++ b :: after ∧ (∀ c ∈ before, c.Holds actual) ∧
        ¬b.Holds actual ∧ failure = .here (.constraintViolation subject b.kind
          (Measure.toDouble b.limit) (Measure.toDouble actual))

private theorem canonical_declared (calls : List (Bound α)) : Canonical calls (declared calls) where
  distinct := kinds_declared_nodup calls
  order := kinds_declared calls
  limits _ := mem_declared_iff
  get _ _ := (get?_eq_some_iff (kinds_declared_nodup calls)).trans mem_declared_iff
  refused := exists_error_iff _
  reported := check_eq_error_iff_first _

private theorem Canonical.check_iff {calls calls' : List (Bound α)} {bounds bounds' : Bounds α}
    (one : Canonical calls bounds) (other : Canonical calls' bounds')
    (same : ∀ b, IsLast calls b ↔ IsLast calls' b) (subject : Subject) (actual : α) :
    bounds.check subject actual = .ok () ↔ bounds'.check subject actual = .ok () := by
  have members : ∀ b, b ∈ bounds ↔ b ∈ bounds' := fun b =>
    (one.limits b).trans ((same b).trans (other.limits b).symm)
  rw [check_eq_ok_iff, check_eq_ok_iff]
  exact forall_congr' fun b => imp_congr (members b) Iff.rfl

end Checks

end Bounds

inductive NumberCall where
  | min (limit : Double)
  | max (limit : Double)
  | positive
  | negative

namespace NumberCall

def step? : NumberCall → Schema → Option Schema
  | .min limit => Schema.boundNumber? .min limit
  | .max limit => Schema.boundNumber? .max limit
  | .positive => Schema.positive?
  | .negative => Schema.negative?

def bound : NumberCall → Bound Double
  | .min limit => ⟨.min, limit⟩
  | .max limit => ⟨.max, limit⟩
  | .positive => ⟨.min, 0⟩
  | .negative => ⟨.max, 0⟩

private theorem step?_number (call : NumberCall) (m : Modifiers) (bounds : Bounds Double) :
    call.step? (.primitive m (.number bounds)) =
      some (.primitive m (.number (bounds.set call.bound.kind call.bound.limit))) := by
  cases call <;> rfl

end NumberCall

namespace Schema

/-- Calls one after the other, each on the schema that the one before made. -/
def refined? {C : Type} (step? : C → Schema → Option Schema) (s : Schema) (calls : List C) :
    Option Schema :=
  calls.foldlM (fun s call => step? call s) s

/-- Calls that set bounds of a kind of schema. From a fresh schema they always lead to one with
canonical bounds, and which quantities it takes is decided by the last limits. -/
structure SetsBounds {C α : Type} [Measure α] (step? : C → Schema → Option Schema)
    (bound : C → Bound α) (fresh : Schema) (node : Bounds α → Schema) : Prop where
  canonical (calls : List C) : ∃ bounds, refined? step? fresh calls = some (node bounds) ∧
    Bounds.Canonical (calls.map bound) bounds
  decided (calls calls' : List C) (bounds bounds' : Bounds α)
    (made : refined? step? fresh calls = some (node bounds))
    (made' : refined? step? fresh calls' = some (node bounds'))
    (same : ∀ b, Bounds.IsLast (calls.map bound) b ↔ Bounds.IsLast (calls'.map bound) b)
    (subject : Subject) (actual : α) :
    bounds.check subject actual = .ok () ↔ bounds'.check subject actual = .ok ()

section Calls

variable {C α : Type} {step? : C → Schema → Option Schema} {bound : C → Bound α}
  {node : Bounds α → Schema}

private theorem refined?_eq (sets : ∀ call bounds, step? call (node bounds) =
      some (node (bounds.set (bound call).kind (bound call).limit)))
    (calls : List C) (bounds : Bounds α) :
    refined? step? (node bounds) calls =
      some (node ((calls.map bound).foldl (fun bounds c => bounds.set c.kind c.limit) bounds)) := by
  induction calls generalizing bounds with
  | nil => rfl
  | cons call rest ih =>
    have later := ih (bounds.set (bound call).kind (bound call).limit)
    rw [refined?, List.foldlM_cons, sets]
    exact later

private theorem setsBounds [Measure α] {fresh : Schema} (start : fresh = node [])
    (sets : ∀ call bounds, step? call (node bounds) =
      some (node (bounds.set (bound call).kind (bound call).limit)))
    (injective : ∀ bounds bounds', node bounds = node bounds' → bounds = bounds') :
    SetsBounds step? bound fresh node where
  canonical calls := by
    rw [start, refined?_eq sets]
    exact ⟨_, rfl, Bounds.canonical_declared (calls.map bound)⟩
  decided calls calls' bounds bounds' made made' same := by
    rw [start, refined?_eq sets] at made made'
    obtain rfl := injective _ _ (Option.some.inj made)
    obtain rfl := injective _ _ (Option.some.inj made')
    exact (Bounds.canonical_declared _).check_iff (Bounds.canonical_declared _) same

end Calls

/-- Whatever calls refine a fresh number, string or array schema, its bounds are canonical and
decide by the last limits. -/
theorem bounds_decide_by_last_limits :
    SetsBounds NumberCall.step? NumberCall.bound number
        (fun bounds => .primitive {} (.number bounds)) ∧
      SetsBounds (fun b => boundSize? b.kind b.limit) id string
        (fun bounds => .primitive {} (.string bounds)) ∧
      ∀ element, SetsBounds (fun b => boundSize? b.kind b.limit) id (arrayOf element)
        (fun bounds => .array {} bounds element) := by
  refine ⟨setsBounds rfl (fun call => call.step?_number {}) ?_,
    setsBounds rfl (fun _ _ => rfl) ?_, fun element => setsBounds rfl (fun _ _ => rfl) ?_⟩
  · rintro bounds bounds' ⟨⟩
    rfl
  · rintro bounds bounds' ⟨⟩
    rfl
  · rintro bounds bounds' ⟨⟩
    rfl

/-- Five calls and three, with the same last limits in another order: both schemas take the same
numbers, but they report another bound first. -/
theorem bounds_decide_by_last_limits_reordered :
    let calls := [NumberCall.min 3, .max 9, .negative, .positive, .max 5]
    let calls' := [NumberCall.max 1, .min 0, .max 5]
    ∃ bounds bounds',
      refined? NumberCall.step? number calls = some (.primitive {} (.number bounds)) ∧
      refined? NumberCall.step? number calls' = some (.primitive {} (.number bounds')) ∧
      bounds = [⟨.min, 0⟩, ⟨.max, 5⟩] ∧ bounds' = [⟨.max, 5⟩, ⟨.min, 0⟩] ∧
      ∀ actual, bounds.check .number actual = .ok () ↔ bounds'.check .number actual = .ok () := by
  intro calls calls'
  obtain ⟨⟨-, decided⟩, -, -⟩ := bounds_decide_by_last_limits
  refine ⟨_, _, rfl, rfl, rfl, rfl, fun actual => ?_⟩
  refine decided calls calls' _ _ rfl rfl (fun b => ?_) .number actual
  rw [← Bounds.mem_declared_iff, ← Bounds.mem_declared_iff]
  exact (List.Perm.swap (⟨.max, 5⟩ : Bound Double) ⟨.min, 0⟩ []).mem_iff

end Schema

end ValueSchema
