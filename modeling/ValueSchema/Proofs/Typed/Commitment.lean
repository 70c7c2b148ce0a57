import ValueSchema.Proofs.Schema.FixedDefaults
import ValueSchema.Typed.Parse

set_option autoImplicit false
set_option relaxedAutoImplicit false

namespace ValueSchema

mutual

/-- A value that is there, and so are the items of its arrays. -/
def Value.Present : Value → Prop
  | .undefined => False
  | .array items => AllPresent items
  | _ => True

def Value.AllPresent : List Value → Prop
  | [] => True
  | v :: rest => v.Present ∧ AllPresent rest

end

private theorem Value.allPresent_iff (items : List Value) :
    AllPresent items ↔ ∀ v ∈ items, v.Present := by
  induction items with
  | nil => simp [AllPresent]
  | cons v rest ih => rw [AllPresent, ih, List.forall_mem_cons]

theorem Value.Present.ne_undefined {v : Value} (present : v.Present) : v ≠ .undefined := by
  rintro rfl
  exact present

theorem Value.Present.isUndefined {v : Value} (present : v.Present) : v.isUndefined = false := by
  cases v with
  | undefined => exact present.elim
  | _ => rfl

/-- A change that accepts no further values as they are, and has no default that a producer
makes. -/
def Modifier.Fixed : Modifier → Prop
  | .required => True
  | .nonNullable => True
  | .default (.value _) => True
  | _ => False

namespace Typed

theorem induction {P : Typed → Prop} (leaf : ∀ s convert, P (.leaf s convert))
    (option : ∀ absence inner, P inner → P (.option absence inner))
    (array : ∀ element, P element → P (.array element))
    (tuple : ∀ items, (∀ t ∈ items, P t) → P (.tuple items))
    (union : ∀ candidates, (∀ t ∈ candidates, P t) → P (.union candidates))
    (modified : ∀ change inner, P inner → P (.modified change inner))
    (bounded : ∀ kind limit inner, P inner → P (.bounded kind limit inner)) : ∀ t, P t := by
  intro t
  refine @Typed.rec P (fun items => ∀ t ∈ items, P t) leaf option array tuple union modified bounded
    ?_ ?_ t
  · exact fun _ h => absurd h List.not_mem_nil
  · exact fun _ _ head tail _ h => (List.mem_cons.1 h).elim (fun e => e ▸ head) (tail _)

mutual

/-- A typed schema whose defaults are all fixed. Absent and empty values are accepted as they are
only with an option around the typed schema, or by a leaf. -/
def Fixed : Typed → Prop
  | .leaf s _ => s.WithoutProducers
  | .option _ inner => inner.Fixed
  | .array element => element.Fixed
  | .tuple items => FixedAll items
  | .union candidates => FixedAll candidates
  | .modified change inner => change.Fixed ∧ inner.Fixed
  | .bounded _ _ inner => inner.Fixed

def FixedAll : List Typed → Prop
  | [] => True
  | t :: rest => t.Fixed ∧ FixedAll rest

end

theorem fixedAll_iff (items : List Typed) : FixedAll items ↔ ∀ t ∈ items, t.Fixed := by
  induction items with
  | nil => simp [FixedAll]
  | cons t rest ih => rw [FixedAll, ih, List.forall_mem_cons]

mutual

/-- Every choice in an output is the candidate that the union at its place commits to: the first
one that accepts the value that reaches the union. The value `r` has reached the kind of the typed
schema, below which schemas are entered at a depth. -/
def Committed (o : Options) : Typed → Nat → Value → Output → Prop
  | .leaf _ _, _, _, _ => True
  | .option _ inner, depth, r, output =>
    output = .absent ∨ ∃ below, output = .present below ∧ inner.Committed o depth r below
  | .array element, depth, r, output =>
    ∃ items outputs, r = .array items ∧ output = .list outputs ∧
      List.Forall₂ (fun item output =>
        element.Committed o (depth + 1) (element.schema.modifiers.reached item) output)
        items outputs
  | .tuple parts, depth, r, output =>
    ∃ items outputs, r = .array items ∧ output = .tuple outputs ∧
      CommittedEach o parts depth items outputs
  | .union candidates, depth, r, output =>
    ∃ index below value, output = .choice index below ∧
      Schema.firstAccepting o depth r (schemas candidates) = some (index, value) ∧
      CommittedAt o candidates index depth r below
  | .modified _ inner, depth, r, output => inner.Committed o depth r output
  | .bounded _ _ inner, depth, r, output => inner.Committed o depth r output

def CommittedEach (o : Options) : List Typed → Nat → List Value → List Output → Prop
  | [], _, [], [] => True
  | t :: rest, depth, item :: items, output :: outputs =>
    t.Committed o (depth + 1) (t.schema.modifiers.reached item) output ∧
      CommittedEach o rest depth items outputs
  | _, _, _, _ => False

def CommittedAt (o : Options) : List Typed → Nat → Nat → Value → Output → Prop
  | [], _, _, _, _ => False
  | t :: _, 0, depth, r, output =>
    t.Committed o (depth + 1) (t.schema.modifiers.reached r) output
  | _ :: rest, index + 1, depth, r, output => CommittedAt o rest index depth r output

end

mutual

/-- Wherever an absent value was met at a union or above it, the first candidate that accepts what
the union made is the candidate that made it. The schema made `w` of the value `r` that has reached
its kind. -/
def Stable (o : Options) : Typed → Nat → Bool → Value → Value → Prop
  | .leaf _ _, _, _, _, _ => True
  | .option absence inner, depth, absent, r, w =>
    absence.holds w = true ∨ inner.Stable o depth absent r w
  | .array element, depth, absent, r, w =>
    ∀ items values, r = .array items → w = .array values → ∀ x ∈ items.zip values,
      element.Stable o (depth + 1) (absent || x.1.isUndefined)
        (element.schema.modifiers.reached x.1) x.2
  | .tuple parts, depth, absent, r, w =>
    ∀ items values, r = .array items → w = .array values →
      StableEach o parts depth absent items values
  | .union candidates, depth, absent, r, w =>
    ∀ index value, Schema.firstAccepting o depth r (schemas candidates) = some (index, value) →
      (absent = true →
        ∃ again, Schema.firstAccepting o 0 w (schemas candidates) = some (index, again)) ∧
      StableAt o candidates index depth absent r w
  | .modified _ inner, depth, absent, r, w => inner.Stable o depth absent r w
  | .bounded _ _ inner, depth, absent, r, w => inner.Stable o depth absent r w

def StableEach (o : Options) : List Typed → Nat → Bool → List Value → List Value → Prop
  | t :: rest, depth, absent, item :: items, value :: values =>
    t.Stable o (depth + 1) (absent || item.isUndefined) (t.schema.modifiers.reached item) value ∧
      StableEach o rest depth absent items values
  | _, _, _, _, _ => True

def StableAt (o : Options) : List Typed → Nat → Nat → Bool → Value → Value → Prop
  | [], _, _, _, _, _ => True
  | t :: _, 0, depth, absent, r, w =>
    t.Stable o (depth + 1) absent (t.schema.modifiers.reached r) w
  | _ :: rest, index + 1, depth, absent, r, w => StableAt o rest index depth absent r w

end

variable {o : Options}

private theorem committedAt_iff {candidates : List Typed} {index depth : Nat} {r : Value}
    {output : Output} {t : Typed} (place : candidates[index]? = some t) :
    CommittedAt o candidates index depth r output ↔
      t.Committed o (depth + 1) (t.schema.modifiers.reached r) output := by
  induction candidates generalizing index with
  | nil => cases place
  | cons c rest ih =>
    cases index with
    | zero =>
      obtain rfl : c = t := Option.some.inj place
      rfl
    | succ index => exact ih place

private theorem stableAt_iff {candidates : List Typed} {index depth : Nat} {absent : Bool}
    {r w : Value} {t : Typed} (place : candidates[index]? = some t) :
    StableAt o candidates index depth absent r w ↔
      t.Stable o (depth + 1) absent (t.schema.modifiers.reached r) w := by
  induction candidates generalizing index with
  | nil => cases place
  | cons c rest ih =>
    cases index with
    | zero =>
      obtain rfl : c = t := Option.some.inj place
      rfl
    | succ index => exact ih place

theorem committedEach_replicate {element : Typed} {depth : Nat}
    (items : List Value) (outputs : List Output) :
    CommittedEach o (List.replicate items.length element) depth items outputs ↔
      List.Forall₂ (fun item output =>
        element.Committed o (depth + 1) (element.schema.modifiers.reached item) output)
        items outputs := by
  induction items generalizing outputs with
  | nil => cases outputs <;> simp [CommittedEach]
  | cons item rest ih =>
    cases outputs with
    | nil => simp [CommittedEach, List.replicate_succ]
    | cons output outputs =>
      simp only [List.length_cons, List.replicate_succ, CommittedEach, ih, List.forall₂_cons]

theorem stableEach_replicate {element : Typed} {depth : Nat} {absent : Bool}
    (items values : List Value) :
    StableEach o (List.replicate items.length element) depth absent items values ↔
      ∀ x ∈ items.zip values, element.Stable o (depth + 1) (absent || x.1.isUndefined)
        (element.schema.modifiers.reached x.1) x.2 := by
  induction items generalizing values with
  | nil => simp [StableEach]
  | cons item rest ih =>
    cases values with
    | nil => simp [StableEach, List.replicate_succ]
    | cons value values =>
      simp only [List.length_cons, List.replicate_succ, StableEach, ih, List.zip_cons_cons,
        List.forall_mem_cons]

theorem committed_union_iff {candidates : List Typed} {depth index choice : Nat} {r value : Value}
    {below : Output} {t : Typed}
    (found : Schema.firstAccepting o depth r (candidates.map schema) = some (index, value))
    (place : candidates[index]? = some t) :
    (union candidates).Committed o depth r (.choice choice below) ↔
      choice = index ∧ t.Committed o (depth + 1) (t.schema.modifiers.reached r) below := by
  constructor
  · rintro ⟨other, inner, made, same, again, inside⟩
    rw [schemas_eq_map, found] at again
    obtain ⟨rfl, rfl⟩ := Prod.mk.inj (Option.some.inj again)
    obtain ⟨rfl, rfl⟩ := Output.choice.inj same
    exact ⟨rfl, (committedAt_iff place).1 inside⟩
  · rintro ⟨rfl, inside⟩
    refine ⟨choice, below, value, rfl, ?_, (committedAt_iff place).2 inside⟩
    rw [schemas_eq_map, found]

theorem stable_union_iff {candidates : List Typed} {depth index : Nat} {absent : Bool}
    {r w value : Value} {t : Typed}
    (found : Schema.firstAccepting o depth r (candidates.map schema) = some (index, value))
    (place : candidates[index]? = some t) :
    (union candidates).Stable o depth absent r w ↔
      (absent = true →
        ∃ again, Schema.firstAccepting o 0 w (candidates.map schema) = some (index, again)) ∧
      t.Stable o (depth + 1) absent (t.schema.modifiers.reached r) w := by
  constructor
  · intro stable
    have chosen := stable index value (by rw [schemas_eq_map, found])
    rw [schemas_eq_map] at chosen
    exact ⟨chosen.1, (stableAt_iff place).1 chosen.2⟩
  · rintro ⟨again, inside⟩ other made same
    rw [schemas_eq_map] at same ⊢
    obtain ⟨rfl, rfl⟩ := Prod.mk.inj (Option.some.inj (found.symm.trans same))
    exact ⟨again, (stableAt_iff place).2 inside⟩

private theorem stableEach_of_present {parts : List Typed} {depth : Nat}
    (each : ∀ t ∈ parts, ∀ item value, item.Present → t.Stable o (depth + 1) false item value)
    {items values : List Value} (present : Value.AllPresent items) :
    StableEach o parts depth false items values := by
  induction parts generalizing items values with
  | nil => trivial
  | cons t rest ih =>
    cases items with
    | nil => trivial
    | cons item items =>
      cases values with
      | nil => trivial
      | cons value values =>
        obtain ⟨here, later⟩ := present
        refine ⟨?_, ih (fun t member => each t (List.mem_cons_of_mem _ member)) later⟩
        rw [here.isUndefined, Modifiers.reached_of_present _ here.ne_undefined]
        exact each t List.mem_cons_self item value here

theorem stable_of_present (t : Typed) {depth : Nat} {r w : Value} (present : r.Present) :
    t.Stable o depth false r w := by
  induction t using Typed.induction generalizing depth r w with
  | leaf s convert => trivial
  | option absence inner ih => exact .inr (ih present)
  | array element ih =>
    rintro items values rfl rfl x member
    have here : x.1.Present := (Value.allPresent_iff items).1 present x.1 (List.of_mem_zip member).1
    rw [here.isUndefined, Modifiers.reached_of_present _ here.ne_undefined]
    exact ih here
  | tuple parts ih =>
    rintro items values rfl rfl
    exact stableEach_of_present (fun t member _ _ here => ih t member here) present
  | union candidates ih =>
    intro index value found
    rw [schemas_eq_map] at found
    obtain ⟨s, place, -⟩ := Schema.firstAccepting_eq_some found
    rw [List.getElem?_map] at place
    obtain ⟨t, here, -⟩ := Option.map_eq_some_iff.1 place
    refine ⟨nofun, (stableAt_iff here).2 ?_⟩
    rw [Modifiers.reached_of_present _ present.ne_undefined]
    exact ih t (List.mem_of_getElem? here) present
  | modified change inner ih => exact ih present
  | bounded kind limit inner ih => exact ih present

end Typed

end ValueSchema
