import Mathlib.Algebra.Ring.Nat
import Mathlib.Data.List.Basic
import ValueSchema.Outcome

set_option autoImplicit false
set_option relaxedAutoImplicit false

namespace ValueSchema

namespace Failure

theorem induction {P : Failure → Prop} (plain : ∀ path cause, P (.plain path cause))
    (exhausted : ∀ path candidates, (∀ f ∈ candidates, P f) → P (.exhausted path candidates)) :
    ∀ f, P f := by
  intro f
  refine @Failure.rec P (fun candidates => ∀ f ∈ candidates, P f) plain exhausted ?_ ?_ f
  · exact fun _ h => absurd h List.not_mem_nil
  · exact fun _ _ head tail _ h => (List.mem_cons.1 h).elim (fun e => e ▸ head) (tail _)

mutual

/-- The failures of a tree, the outermost first. -/
def nodes : Failure → List Failure
  | .plain path cause => [.plain path cause]
  | .exhausted path candidates => .exhausted path candidates :: nodesAll candidates

def nodesAll : List Failure → List Failure
  | [] => []
  | failure :: rest => failure.nodes ++ nodesAll rest

end

private theorem nodesAll_eq (failures : List Failure) :
    nodesAll failures = failures.flatMap nodes := by
  induction failures with
  | nil => rfl
  | cons failure rest ih => rw [nodesAll, ih, List.flatMap_cons]

theorem prefixedAll_eq (segment : Segment) (failures : List Failure) :
    prefixedAll segment failures = failures.map (prefixed segment) := by
  induction failures with
  | nil => rfl
  | cons failure rest ih => rw [prefixedAll, ih, List.map_cons]

theorem countAll_eq (failures : List Failure) :
    countAll failures = (failures.map count).sum := by
  induction failures with
  | nil => rfl
  | cons failure rest ih => rw [countAll, ih, List.map_cons, List.sum_cons]

private theorem length_nodes (failure : Failure) : failure.nodes.length = failure.count := by
  induction failure using Failure.induction with
  | plain path cause => rfl
  | exhausted path candidates ih =>
    have below : candidates.map (fun c => c.nodes.length) = candidates.map count :=
      List.map_congr_left ih
    rw [nodes, nodesAll_eq, List.length_cons, List.length_flatMap, below, count, countAll_eq,
      Nat.add_comm]

theorem mem_nodes_exhausted {path : Path} {candidates : List Failure} {failure : Failure} :
    failure ∈ (exhausted path candidates).nodes ↔
      failure = exhausted path candidates ∨ ∃ c ∈ candidates, failure ∈ c.nodes := by
  rw [nodes, nodesAll_eq, List.mem_cons, List.mem_flatMap]

theorem nodes_prefixed (segment : Segment) (failure : Failure) :
    (failure.prefixed segment).nodes = failure.nodes.map (prefixed segment) := by
  induction failure using Failure.induction with
  | plain path cause => rfl
  | exhausted path candidates ih =>
    have below : (candidates.map (prefixed segment)).flatMap nodes =
        (candidates.flatMap nodes).map (prefixed segment) := by
      rw [List.map_flatMap, List.flatMap_map]
      exact List.flatMap_congr fun c member => ih c member
    simp only [prefixed, prefixedAll_eq, nodes, nodesAll_eq, below, List.map_cons]

mutual

/-- The tree of the same shape and with the same paths in which every cause is changed. -/
def mapCauses (change : Cause → Cause) : Failure → Failure
  | .plain path cause => .plain path (change cause)
  | .exhausted path candidates => .exhausted path (mapCausesAll change candidates)

def mapCausesAll (change : Cause → Cause) : List Failure → List Failure
  | [] => []
  | failure :: rest => failure.mapCauses change :: mapCausesAll change rest

end

theorem mapCausesAll_eq (change : Cause → Cause) (failures : List Failure) :
    mapCausesAll change failures = failures.map (mapCauses change) := by
  induction failures with
  | nil => rfl
  | cons failure rest ih => rw [mapCausesAll, ih, List.map_cons]

@[simp] theorem path_mapCauses (change : Cause → Cause) (failure : Failure) :
    (failure.mapCauses change).path = failure.path := by
  cases failure <;> rfl

theorem code_mapCauses {change : Cause → Cause} (keeps : ∀ cause, (change cause).code = cause.code)
    (failure : Failure) : (failure.mapCauses change).code = failure.code := by
  cases failure with
  | plain path cause => exact keeps cause
  | exhausted path candidates => rfl

theorem mapCauses_prefixed (change : Cause → Cause) (segment : Segment) (failure : Failure) :
    (failure.prefixed segment).mapCauses change = (failure.mapCauses change).prefixed segment := by
  induction failure using Failure.induction with
  | plain path cause => rfl
  | exhausted path candidates ih =>
    have below : (candidates.map (prefixed segment)).map (mapCauses change) =
        (candidates.map (mapCauses change)).map (prefixed segment) := by
      rw [List.map_map, List.map_map]
      exact List.map_congr_left ih
    simp only [prefixed, prefixedAll_eq, mapCauses, mapCausesAll_eq, below]

@[simp] theorem path_prefixed (segment : Segment) (failure : Failure) :
    (failure.prefixed segment).path = segment :: failure.path := by
  cases failure <;> rfl

@[simp] private theorem code_prefixed (segment : Segment) (failure : Failure) :
    (failure.prefixed segment).code = failure.code := by
  cases failure <;> rfl

@[simp] private theorem count_prefixed (segment : Segment) (failure : Failure) :
    (failure.prefixed segment).count = failure.count := by
  rw [← length_nodes, nodes_prefixed, List.length_map, length_nodes]

@[simp] theorem isLimit_prefixed (segment : Segment) (failure : Failure) :
    (failure.prefixed segment).isLimit = failure.isLimit := by
  rw [isLimit, isLimit, code_prefixed]

def candidates : Failure → List Failure
  | .plain .. => []
  | .exhausted _ candidates => candidates

def cause? : Failure → Option Cause
  | .plain _ cause => some cause
  | .exhausted .. => none

/-- The failure at a place. Each number leads to the candidate that has it. -/
def at? (failure : Failure) : List Nat → Option Failure
  | [] => some failure
  | number :: place => failure.candidates[number]?.bind fun c => c.at? place

/-- One failure is another one seen from further out: it has the same kind, the same facts and as
many candidates, and the outer path comes before its own. -/
structure Shifted (outer : Path) (failure moved : Failure) : Prop where
  code : moved.code = failure.code
  cause : moved.cause? = failure.cause?
  width : moved.candidates.length = failure.candidates.length
  path : moved.path = outer ++ failure.path

/-- One tree is another one seen from further out: it has the same places, and the failure at each
of them is shifted. -/
def Relocates (outer : Path) (failure moved : Failure) : Prop :=
  ∀ place, Option.Rel (Shifted outer) (failure.at? place) (moved.at? place)

private theorem induction_candidates {P : Failure → Prop}
    (step : ∀ f, (∀ c ∈ f.candidates, P c) → P f) (failure : Failure) : P failure := by
  induction failure using Failure.induction with
  | plain path cause => exact step _ (List.forall_mem_nil _)
  | exhausted path candidates ih => exact step _ ih

private theorem eq_of_parts {f g : Failure} (path : f.path = g.path) (cause : f.cause? = g.cause?)
    (below : f.candidates = g.candidates) : f = g := by
  cases f with
  | plain path₁ cause₁ =>
    cases g with
    | plain path₂ cause₂ => rw [show path₁ = path₂ from path, Option.some.inj cause]
    | exhausted path₂ candidates₂ => cases cause
  | exhausted path₁ candidates₁ =>
    cases g with
    | plain path₂ cause₂ => cases cause
    | exhausted path₂ candidates₂ =>
      rw [show path₁ = path₂ from path, show candidates₁ = candidates₂ from below]

variable {outer : Path} {failure moved other : Failure}

@[simp] private theorem candidates_prefixed (segment : Segment) (failure : Failure) :
    (failure.prefixed segment).candidates = failure.candidates.map (prefixed segment) := by
  cases failure with
  | plain path cause => rfl
  | exhausted path candidates => exact prefixedAll_eq segment candidates

@[simp] private theorem cause?_prefixed (segment : Segment) (failure : Failure) :
    (failure.prefixed segment).cause? = failure.cause? := by
  cases failure <;> rfl

private theorem at?_prefixed (segment : Segment) (failure : Failure) (place : List Nat) :
    (failure.prefixed segment).at? place = (failure.at? place).map (prefixed segment) := by
  induction place generalizing failure with
  | nil => rfl
  | cons number place ih =>
    rw [at?, at?, candidates_prefixed, List.getElem?_map]
    cases failure.candidates[number]? with
    | none => rfl
    | some c => exact ih c

private theorem Shifted.refl (failure : Failure) : failure.Shifted [] failure where
  code := rfl
  cause := rfl
  width := rfl
  path := rfl

private theorem Shifted.prefixed (segment : Segment) (shifted : failure.Shifted outer moved) :
    failure.Shifted (segment :: outer) (moved.prefixed segment) where
  code := (code_prefixed segment moved).trans shifted.code
  cause := (cause?_prefixed segment moved).trans shifted.cause
  width := by rw [candidates_prefixed, List.length_map, shifted.width]
  path := by rw [path_prefixed, shifted.path, List.cons_append]

private theorem Relocates.refl (failure : Failure) : failure.Relocates [] failure := by
  intro place
  cases failure.at? place with
  | none => exact .none
  | some f => exact .some (.refl f)

private theorem Relocates.prefixed (segment : Segment) (relocates : failure.Relocates outer moved) :
    failure.Relocates (segment :: outer) (moved.prefixed segment) := by
  intro place
  have here := relocates place
  rw [at?_prefixed]
  generalize failure.at? place = f?, moved.at? place = g? at here
  cases here with
  | none => exact .none
  | some shifted => exact .some (shifted.prefixed segment)

private theorem Relocates.shifted (relocates : failure.Relocates outer moved) :
    failure.Shifted outer moved := by
  cases relocates [] with
  | some shifted => exact shifted

private theorem Relocates.candidate (relocates : failure.Relocates outer moved) {number : Nat}
    {c d : Failure} (place : failure.candidates[number]? = some c)
    (place' : moved.candidates[number]? = some d) : c.Relocates outer d := by
  intro inside
  have here := relocates (number :: inside)
  rwa [at?, at?, place, place'] at here

private theorem Relocates.unique (relocates : failure.Relocates outer moved)
    (relocates' : failure.Relocates outer other) : other = moved := by
  induction failure using induction_candidates generalizing moved other with
  | step failure ih =>
    have here := relocates.shifted
    have here' := relocates'.shifted
    refine eq_of_parts (here'.path.trans here.path.symm) (here'.cause.trans here.cause.symm) ?_
    refine List.ext_getElem (here'.width.trans here.width.symm) fun number bound' bound => ?_
    have place := List.getElem?_eq_getElem (here.width ▸ bound)
    exact ih _ (List.mem_of_getElem? place)
      (relocates.candidate place (List.getElem?_eq_getElem bound))
      (relocates'.candidate place (List.getElem?_eq_getElem bound'))

private theorem Relocates.prefixed_each (relocates : failure.Relocates outer moved)
    (segments : List Segment) :
    failure.Relocates (segments.reverse ++ outer)
      (segments.foldl (fun inner segment => inner.prefixed segment) moved) := by
  induction segments generalizing outer moved with
  | nil => exact relocates
  | cons segment rest ih =>
    rw [List.reverse_cons, List.append_assoc, List.singleton_append, List.foldl_cons]
    exact ih (relocates.prefixed segment)

private theorem count_prefixed_each (failure : Failure) (segments : List Segment) :
    (segments.foldl (fun inner segment => inner.prefixed segment) failure).count =
      failure.count := by
  induction segments generalizing failure with
  | nil => rfl
  | cons segment rest ih => rw [List.foldl_cons, ih, count_prefixed]

/-- Prefixing a failure with segments, one after the other, relocates its tree and does nothing
else: it gives the one tree that has the same places, at each of them the same kind and the same
facts, and the segments, the last one first, before the path. The number of failures stays. -/
theorem prefixed_each_relocates (failure : Failure) (segments : List Segment) :
    let moved := segments.foldl (fun inner segment => inner.prefixed segment) failure
    (∀ other, failure.Relocates segments.reverse other ↔ other = moved) ∧
      moved.count = failure.count := by
  intro moved
  have relocates : failure.Relocates segments.reverse moved := by
    have run := (Relocates.refl failure).prefixed_each segments
    rwa [List.append_nil] at run
  refine ⟨fun other => ⟨relocates.unique, ?_⟩, count_prefixed_each failure segments⟩
  rintro rfl
  exact relocates

/-- A candidate of a union in a union is prefixed once with each segment. -/
example :
    let inner : Failure := .exhausted [.index 0] [.plain [.index 0] .missing]
    let failure : Failure := .exhausted [] [inner, .here .missing]
    let moved := [Segment.key "b", .key "a"].foldl (fun inner segment => inner.prefixed segment)
      failure
    (moved.at? [0, 0]).map Failure.path = some [.key "a", .key "b", .index 0] := rfl

end Failure

namespace Segment

private def isMark (c : Char) : Bool := c == '.' || c == '['

/-- A position, or a name that has characters, none of which is a mark. -/
def Plain : Segment → Prop
  | .key name => name ≠ "" ∧ '.' ∉ name.toList ∧ '[' ∉ name.toList
  | .index _ => True

instance : DecidablePred Plain
  | .key name => inferInstanceAs (Decidable (name ≠ "" ∧ '.' ∉ name.toList ∧ '[' ∉ name.toList))
  | .index _ => inferInstanceAs (Decidable True)

private def mark : Segment → Char
  | .key _ => '.'
  | .index _ => '['

private def body : Segment → List Char
  | .key name => name.toList
  | .index position => (toString position).toList ++ [']']

private theorem toList_text (s : Segment) : s.text.toList = s.mark :: s.body := by
  cases s with
  | key name => simp [text, mark, body]
  | index position => simp [text, mark, body]

private theorem isMark_mark (s : Segment) : isMark s.mark = true := by
  cases s <;> rfl

private theorem isMark_eq_false_iff {c : Char} : isMark c = false ↔ c ≠ '.' ∧ c ≠ '[' := by
  simp [isMark]

private theorem Plain.isMark_of_mem_body {s : Segment} (plain : s.Plain) {c : Char}
    (member : c ∈ s.body) : isMark c = false := by
  rw [isMark_eq_false_iff]
  cases s with
  | key name =>
    obtain ⟨-, point, bracket⟩ := plain
    exact ⟨fun same => point (same ▸ member), fun same => bracket (same ▸ member)⟩
  | index position =>
    rcases List.mem_append.1 member with digit | closing
    · rw [Nat.toString_eq_repr, Nat.toList_repr] at digit
      have isDigit := Nat.isDigit_of_mem_toDigits (by decide) (by decide) digit
      constructor <;> rintro rfl <;> cases isDigit
    · obtain rfl := List.mem_singleton.1 closing
      decide

private theorem eq_of_mark_body {s t : Segment} (marks : s.mark = t.mark)
    (bodies : s.body = t.body) : s = t := by
  cases s with
  | key name =>
    cases t with
    | key other => rw [String.ext bodies]
    | index other => cases marks
  | index position =>
    cases t with
    | key other => cases marks
    | index other =>
      have digits : (toString position).toList = (toString other).toList :=
        List.append_cancel_right bodies
      rw [Nat.toString_eq_repr, Nat.toString_eq_repr, Nat.toList_repr, Nat.toList_repr] at digits
      have same : position = other := calc
        position = Nat.ofDigitChars 10 (Nat.toDigits 10 position) 0 :=
          Nat.ofDigitChars_ten_toDigits.symm
        _ = Nat.ofDigitChars 10 (Nat.toDigits 10 other) 0 := by rw [digits]
        _ = other := Nat.ofDigitChars_ten_toDigits
      rw [same]

end Segment

namespace Path

def Plain (path : Path) : Prop := ∀ s ∈ path, s.Plain

instance : DecidablePred Plain := fun path => inferInstanceAs (Decidable (∀ s ∈ path, s.Plain))

private def marked (path : Path) : List Char := path.flatMap fun s => s.mark :: s.body

private theorem toList_join (path : Path) :
    (String.join (path.map Segment.text)).toList = marked path := by
  rw [String.toList_join, List.flatMap_map]
  exact List.flatMap_congr fun s _ => s.toList_text

private theorem text_cases (path : Path) :
    (∃ name rest, path = .key name :: rest ∧ path.text.toList = name.toList ++ marked rest) ∨
      path.text.toList = path.marked := by
  match path with
  | [] => exact .inr rfl
  | .key name :: rest =>
    refine .inl ⟨name, rest, rfl, ?_⟩
    rw [text, String.toList_append, toList_join]
  | .index _ :: _ => exact .inr (toList_join _)

private theorem takeWhile_marked (path : Path) :
    path.marked.takeWhile (fun c => !Segment.isMark c) = [] := by
  cases path with
  | nil => rfl
  | cons s rest => simp [marked, s.isMark_mark]

private theorem eq_of_append_marked {before before' : List Char} {p q : Path}
    (free : ∀ c ∈ before, Segment.isMark c = false)
    (free' : ∀ c ∈ before', Segment.isMark c = false)
    (same : before ++ p.marked = before' ++ q.marked) : before = before' ∧ p.marked = q.marked := by
  have cut : ∀ {chars : List Char} (path : Path), (∀ c ∈ chars, Segment.isMark c = false) →
      (chars ++ path.marked).takeWhile (fun c => !Segment.isMark c) = chars := by
    intro chars path free
    rw [List.takeWhile_append_of_pos fun c member => by rw [free c member]; rfl, takeWhile_marked,
      List.append_nil]
  obtain rfl : before = before' := by rw [← cut p free, same, cut q free']
  exact ⟨rfl, List.append_cancel_left same⟩

private theorem marked_injective {p q : Path} (plain : p.Plain) (plain' : q.Plain)
    (same : p.marked = q.marked) : p = q := by
  induction p generalizing q with
  | nil =>
    cases q with
    | nil => rfl
    | cons t rest => cases same
  | cons s rest ih =>
    cases q with
    | nil => cases same
    | cons t rest' =>
      rw [Plain, List.forall_mem_cons] at plain plain'
      -- The first characters are marks, and the first step goes on to the next mark.
      obtain ⟨marks, later⟩ := List.cons.inj same
      obtain ⟨bodies, later⟩ := eq_of_append_marked (fun _ => plain.1.isMark_of_mem_body)
        (fun _ => plain'.1.isMark_of_mem_body) later
      rw [Segment.eq_of_mark_body marks bodies, ih plain.2 plain'.2 later]

private theorem append_marked_ne {name : String} {rest q : Path}
    (plain : (Segment.key name).Plain) : name.toList ++ rest.marked ≠ q.marked := by
  intro same
  have free : ∀ c ∈ name.toList, Segment.isMark c = false := fun _ => plain.isMark_of_mem_body
  have apart : name.toList ++ rest.marked = [] ++ q.marked := same
  obtain ⟨empty, -⟩ := eq_of_append_marked free (List.forall_mem_nil _) apart
  exact plain.1 (String.toList_eq_nil_iff.1 empty)

private theorem eq_of_text_eq {p q : Path} (plain : p.Plain) (plain' : q.Plain)
    (same : p.text = q.text) : p = q := by
  rcases p.text_cases with ⟨name, rest, rfl, left⟩ | left <;>
    rcases q.text_cases with ⟨other, rest', rfl, right⟩ | right <;>
    rw [same, right] at left
  · -- Two names in front get the same mark.
    exact marked_injective plain plain' (congrArg ('.' :: ·) left.symm)
  · exact absurd left.symm (append_marked_ne (plain _ List.mem_cons_self))
  · exact absurd left (append_marked_ne (plain' _ List.mem_cons_self))
  · exact marked_injective plain plain' left.symm

/-- Where no name is empty or has a point or an opening bracket in it, paths with the same text are
the same, step by step, and only the root path has no text. -/
theorem text_unambiguous {p q : Path} (plain : p.Plain) (plain' : q.Plain) :
    (p.text = q.text ↔ p = q) ∧ (p.text = "" ↔ p = []) := by
  have root : Plain [] := fun _ member => nomatch member
  constructor
  · exact ⟨eq_of_text_eq plain plain', fun same => same ▸ rfl⟩
  · exact ⟨eq_of_text_eq plain root, fun same => same ▸ rfl⟩

/-- A name of digits is told from a position. -/
theorem text_unambiguous_of_digits :
    let named : Path := [.key "rows", .key "12", .index 7]
    let placed : Path := [.key "rows", .index 12, .key "7"]
    named.Plain ∧ placed.Plain ∧ named.text ≠ placed.text ∧ named.text ≠ "" := by
  intro named placed
  have plain : named.Plain := by decide +kernel
  have plain' : placed.Plain := by decide +kernel
  have tells := text_unambiguous plain plain'
  exact ⟨plain, plain', fun same => absurd (tells.1.1 same) (by decide),
    fun none => absurd (tells.2.1 none) (by decide)⟩

/-- Names that are empty or have marks in them share their text with other paths. -/
example : text [.key ""] = text [] ∧ text [.key "a.b"] = text [.key "a", .key "b"] ∧
    text [.key "a[0]"] = text [.key "a", .index 0] := by decide +kernel

end Path

end ValueSchema
