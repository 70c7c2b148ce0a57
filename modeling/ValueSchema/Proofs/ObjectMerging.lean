import Mathlib.Data.List.Perm.Basic
import ValueSchema.Proofs.Composites

set_option autoImplicit false
set_option relaxedAutoImplicit false

namespace ValueSchema

namespace Schema

def addFields? (s : Schema) (fields : List (String × Schema)) : Option Schema :=
  fields.foldlM (fun s field => s.field? field.1 field.2) s

private theorem addFields?_object (m : Modifiers) (unknownKeys : UnknownKeys)
    (fields extra : List (String × Schema)) :
    (object m unknownKeys fields).addFields? extra =
      some (object m unknownKeys (Entries.putAll fields extra)) := by
  induction extra generalizing fields with
  | nil => rfl
  | cons field rest ih => exact ih (Entries.put fields field.1 field.2)

private theorem merge?_object (m m' : Modifiers) (unknownKeys unknownKeys' : UnknownKeys)
    (fields others : List (String × Schema)) :
    (object m unknownKeys fields).merge? (object m' unknownKeys' others) =
      some (object {} unknownKeys (Entries.putAll fields others)) := rfl

private theorem merge?_union (m m' : Modifiers) (candidates others : List Schema) :
    (union m candidates).merge? (union m' others) = some (union m (candidates ++ others)) := rfl

/-- Merging is associative: for object schemas, with the policy of the first one and no modifiers,
where the second one declares no field twice; and for unions, with the modifiers of the first one.
A list of fields gives the schema that they give one by one, in which each name has its first place
and its last schema; and merging adds the fields of the second schema to the first one by one. -/
theorem merge_assoc_by_fields :
    (∀ (m m' m'' : Modifiers) (unknownKeys unknownKeys' unknownKeys'' : UnknownKeys)
        (a b c : List (String × Schema)), (Entries.names b).Nodup →
      ∃ ab bc fields,
        (object m unknownKeys a).merge? (object m' unknownKeys' b) = some ab ∧
        (object m' unknownKeys' b).merge? (object m'' unknownKeys'' c) = some bc ∧
        ab.merge? (object m'' unknownKeys'' c) = some (object {} unknownKeys fields) ∧
        (object m unknownKeys a).merge? bc = some (object {} unknownKeys fields)) ∧
    (∀ (m m' m'' : Modifiers) (a b c : List Schema), ∃ ab bc,
        (union m a).merge? (union m' b) = some ab ∧
        (union m' b).merge? (union m'' c) = some bc ∧
        ab.merge? (union m'' c) = some (union m (a ++ b ++ c)) ∧
        (union m a).merge? bc = some (union m (a ++ b ++ c))) ∧
    (∀ pairs : List (String × Schema), (objectOf []).addFields? pairs = some (objectOf pairs) ∧
      ∃ fields, objectOf pairs = object {} .passthrough fields ∧
        (Entries.names fields).Nodup ∧
        Entries.names fields = (Entries.names pairs).eraseDups ∧
        ∀ name, Entries.find? fields name = Entries.find? pairs.reverse name) ∧
    ∀ (m m' : Modifiers) (unknownKeys unknownKeys' : UnknownKeys) (a b : List (String × Schema)),
      ∃ fields, (object m unknownKeys a).addFields? b = some (object m unknownKeys fields) ∧
        (object m unknownKeys a).merge? (object m' unknownKeys' b) =
          some (object {} unknownKeys fields) := by
  refine ⟨?_, ?_, ?_, ?_⟩
  · intro m m' m'' unknownKeys unknownKeys' unknownKeys'' a b c distinct
    refine ⟨_, _, _, merge?_object .., merge?_object .., merge?_object .., ?_⟩
    rw [merge?_object, Entries.putAll_putAll distinct]
  · intro m m' m'' a b c
    refine ⟨_, _, merge?_union .., merge?_union .., merge?_union .., ?_⟩
    rw [merge?_union, List.append_assoc]
  · intro pairs
    exact ⟨addFields?_object {} .passthrough [] pairs, Entries.ofList pairs, rfl,
      Entries.names_ofList_nodup pairs, Entries.names_ofList pairs, Entries.find?_ofList pairs⟩
  · intro m m' unknownKeys unknownKeys' a b
    exact ⟨Entries.putAll a b, addFields?_object m unknownKeys a b, merge?_object ..⟩

/-- Three schemas that share names: each name stands where it came up first, with the schema that
came last. -/
theorem merge_assoc_of_shared_names :
    let a : Schema := .object {} .strict [("x", .null), ("y", .boolean)]
    let b : Schema := .object { nullable := true } .strip [("z", .number), ("x", .string)]
    let c : Schema := .objectOf [("y", .null), ("w", .boolean), ("z", .string)]
    let all : Schema :=
      .object {} .strict [("x", .string), ("y", .null), ("z", .string), ("w", .boolean)]
    b.DistinctFields ∧ ∃ ab bc, a.merge? b = some ab ∧ b.merge? c = some bc ∧
      ab.merge? c = some all ∧ a.merge? bc = some all := by
  intro a b c all
  have distinct : b.DistinctFields := by decide
  obtain ⟨ab, bc, fields, first, second, left, right⟩ := merge_assoc_by_fields.1 {}
    { nullable := true } {} .strict .strip .passthrough [("x", .null), ("y", .boolean)] _
    [("y", .null), ("w", .boolean), ("z", .string)] distinct
  obtain rfl := Option.some.inj first
  have whole : some (object {} .strict fields) = some all := left.symm
  exact ⟨distinct, _, bc, rfl, second, rfl, right.trans whole⟩

end Schema

private theorem exists_append_of_forall₂ {α β : Type} {R : α → β → Prop} {as others : List α}
    {bs : List β} (related : List.Forall₂ R (as ++ others) bs) :
    ∃ first second, bs = first ++ second ∧ List.Forall₂ R as first ∧
      List.Forall₂ R others second := by
  induction as generalizing bs with
  | nil => exact ⟨[], bs, rfl, .nil, related⟩
  | cons a rest ih =>
    cases related with
    | cons head tail =>
      obtain ⟨first, second, rfl, here, there⟩ := ih tail
      exact ⟨_ :: first, second, rfl, .cons head here, there⟩

namespace Schema

/-- What a field makes of the entry of its name, entered first at a depth. -/
private def FieldMakes (o : Options) (depth : Nat) (entries : Entries Value) (f : String × Schema)
    (made : String × Value) : Prop :=
  f.1 = made.1 ∧ (f.2.enter o (Parser.fieldValue entries f.1) ⟨{}, depth⟩).1 = .ok made.2

variable {o : Options} {depth : Nat} {entries values : Entries Value}
  {fields others : List (String × Schema)} {run after : Run}

private theorem FieldsParsed.each (parsed : FieldsParsed o depth entries fields run values after)
    (fixed : ∀ f ∈ fields, f.2.WithoutProducers) :
    List.Forall₂ (FieldMakes o depth entries) fields values := by
  induction parsed with
  | nil => exact .nil
  | @cons name s rest run mid after value values level parsed later ih =>
    obtain ⟨here, there⟩ := List.forall_mem_cons.1 fixed
    have accepted : (s.enter o (Parser.fieldValue entries name) run).1 = .ok value := by rw [parsed]
    exact .cons ⟨rfl, enter_ok_shallower here accepted (Nat.le_of_eq level.symm)⟩ (ih there)

private theorem exists_fieldsParsed (each : List.Forall₂ (FieldMakes o depth entries) fields values)
    (fixed : ∀ f ∈ fields, f.2.WithoutProducers) (level : run.depth = depth) :
    ∃ after, FieldsParsed o depth entries fields run values after := by
  induction each generalizing run with
  | nil => exact ⟨run, .nil⟩
  | @cons f made rest values head tail ih =>
    obtain ⟨name, s⟩ := f
    obtain ⟨name', value⟩ := made
    obtain ⟨rfl, accepted⟩ := head
    obtain ⟨here, there⟩ := List.forall_mem_cons.1 fixed
    have entered : s.enter o (Parser.fieldValue entries name) run = (.ok value, _) :=
      Prod.ext (enter_ok_shallower here accepted (Nat.le_of_eq level)) rfl
    obtain ⟨after, later⟩ := ih there ((s.enter_depth o _ run).trans level)
    exact ⟨after, .cons level entered later⟩

private theorem parse_stripped_ok_iff {m : Modifiers} {unknownKeys : UnknownKeys}
    (strips : o.unknownKeys? = some .strip) (fixed : ∀ f ∈ fields, f.2.WithoutProducers)
    (session : Session) {w : Value} :
    ((object m unknownKeys fields).parse o (.object entries) session).1 = .ok w ↔
      0 < o.maxDepth ∧ ∃ values, List.Forall₂ (FieldMakes o 1 entries) fields values ∧
        w = .object (Parser.kept entries values) := by
  rw [parse_result]
  by_cases room : 0 < o.maxDepth
  · have checks : Visit.Checks o ⟨object m unknownKeys fields, .object entries, ⟨session, 0⟩⟩
        (.object entries) ⟨session, 1⟩ := ⟨room, rfl, rfl, nofun⟩
    have result : ((object m unknownKeys fields).enter o (.object entries) ⟨session, 0⟩).1 =
        ((object m unknownKeys fields).check o (.object entries) ⟨session, 1⟩).1 := checks.result_eq
    rw [result, and_iff_right room]
    constructor
    · intro accepted
      rcases fieldwise : Parser.fieldsInOrder entries (fields.map fun f => (f.1, f.2.enter o))
        ⟨session, 1⟩ with ⟨failure | made, last⟩
      · rw [check_object_of_error fieldwise] at accepted
        cases accepted
      · obtain ⟨values, parsed, rfl⟩ := fieldsInOrder_eq_ok_iff.1 fieldwise
        rw [check_object_of_ok fieldwise, strips] at accepted
        exact ⟨values, parsed.each fixed, (Except.ok.inj accepted).symm⟩
    · rintro ⟨values, each, rfl⟩
      have level : (⟨session, 1⟩ : Run).depth = 1 := rfl
      obtain ⟨after, parsed⟩ := exists_fieldsParsed each fixed level
      rw [check_object_of_ok (fieldsInOrder_eq_ok_iff.2 ⟨values, parsed, rfl⟩), strips]
      rfl
  · have full : o.maxDepth ≤ (⟨session, 0⟩ : Run).depth := Nat.le_of_not_lt room
    rw [enter_of_full o full]
    exact iff_of_false nofun fun accepted => room accepted.1

section Merged

variable {α : Type} {R : String × Schema → α → Prop} {made : List α}

private theorem putAll_moved (declared : (Entries.names fields).Nodup)
    (declared' : (Entries.names others).Nodup) : (Entries.putAll fields others).Perm
      (fields.filter (fun f => decide (f.1 ∉ Entries.names others)) ++ others) := by
  rw [← Entries.without_eq_filter]
  exact Entries.putAll_perm declared declared'

private theorem each_of_putAll (declared : (Entries.names fields).Nodup)
    (declared' : (Entries.names others).Nodup)
    (each : List.Forall₂ R (Entries.putAll fields others) made) :
    ∃ first second,
      List.Forall₂ R (fields.filter fun f => decide (f.1 ∉ Entries.names others)) first ∧
      List.Forall₂ R others second ∧ made.Perm (first ++ second) := by
  obtain ⟨both, here, moved⟩ := List.perm_comp_forall₂ (putAll_moved declared declared').symm each
  obtain ⟨first, second, rfl, left, right⟩ := exists_append_of_forall₂ here
  exact ⟨first, second, left, right, moved.symm⟩

private theorem exists_each_putAll {first second : List α} (declared : (Entries.names fields).Nodup)
    (declared' : (Entries.names others).Nodup)
    (here : List.Forall₂ R (fields.filter fun f => decide (f.1 ∉ Entries.names others)) first)
    (there : List.Forall₂ R others second) :
    ∃ made, List.Forall₂ R (Entries.putAll fields others) made := by
  obtain ⟨made, each, -⟩ := List.perm_comp_forall₂ (putAll_moved declared declared')
    (List.rel_append here there)
  exact ⟨made, each⟩

end Merged

/-- Merging objects means that both sides hold and the second one wins. Where undeclared entries are
dropped, the merged schema accepts an object if the second schema does, without its modifiers, and
the first one does with the fields that the second does not declare. Its output has the entries of
both outputs, at the places of the first schema's names and then of the second one's own. -/
theorem parse_merged_objects {m m' : Modifiers} {unknownKeys unknownKeys' : UnknownKeys}
    {fields others : List (String × Schema)} (declared : (Entries.names fields).Nodup)
    (declared' : (Entries.names others).Nodup)
    (fixed : (object m unknownKeys fields).WithoutProducers)
    (fixed' : (object m' unknownKeys' others).WithoutProducers) {o : Options}
    (strips : o.unknownKeys? = some .strip) (entries : Entries Value) (session : Session) :
    let result := fun s : Schema => (s.parse o (.object entries) session).1
    let reduced := object m unknownKeys
      (fields.filter fun f => decide (f.1 ∉ Entries.names others))
    let bare := object {} unknownKeys' others
    ∃ merged, (object m unknownKeys fields).merge? (object m' unknownKeys' others) = some merged ∧
      ((∃ w, result merged = .ok w) ↔ (∃ w, result bare = .ok w) ∧ ∃ w, result reduced = .ok w) ∧
      ∀ w, result merged = .ok w → ∃ out first second, w = .object out ∧
        result reduced = .ok (.object first) ∧ result bare = .ok (.object second) ∧
        out.Perm (first ++ second) ∧
        (Entries.names out).Sublist (Entries.names fields ++
          (Entries.names others).filter fun name => decide (name ∉ Entries.names fields)) := by
  intro result reduced bare
  have fixed_reduced : ∀ f ∈ fields.filter (fun f => decide (f.1 ∉ Entries.names others)),
      f.2.WithoutProducers := fun f member => fixed.field (List.mem_of_mem_filter member)
  have fixed_bare : ∀ f ∈ others, f.2.WithoutProducers := fun f => fixed'.field
  have fixed_merged : ∀ f ∈ Entries.putAll fields others, f.2.WithoutProducers := fun f member =>
    (Entries.mem_putAll member).elim (fun inside => fixed.field inside) fun inside =>
      fixed'.field inside
  have parts : ∀ w, result (object {} unknownKeys (Entries.putAll fields others)) = .ok w →
      ∃ out first second, w = .object out ∧
        result reduced = .ok (.object first) ∧ result bare = .ok (.object second) ∧
        out.Perm (first ++ second) ∧
        (Entries.names out).Sublist (Entries.names fields ++
          (Entries.names others).filter fun name => decide (name ∉ Entries.names fields)) := by
    intro w accepted
    obtain ⟨room, values, each, rfl⟩ :=
      (parse_stripped_ok_iff strips fixed_merged session).1 accepted
    obtain ⟨first, second, here, there, moved⟩ := each_of_putAll declared declared' each
    refine ⟨_, _, _, rfl,
      (parse_stripped_ok_iff strips fixed_reduced session).2 ⟨room, first, here, rfl⟩,
      (parse_stripped_ok_iff strips fixed_bare session).2 ⟨room, second, there, rfl⟩, ?_, ?_⟩
    · rw [Parser.kept, Parser.kept, Parser.kept, ← List.filter_append]
      exact moved.filter _
    · rw [← Entries.names_putAll fields declared', ← Parser.names_eq_of_forall₂ each]
      exact Parser.names_kept_sublist entries values
  refine ⟨object {} unknownKeys (Entries.putAll fields others), rfl, ⟨?_, ?_⟩, parts⟩
  · rintro ⟨w, accepted⟩
    obtain ⟨-, first, second, -, here, there, -⟩ := parts w accepted
    exact ⟨⟨_, there⟩, ⟨_, here⟩⟩
  · rintro ⟨⟨w, accepted⟩, ⟨w', accepted'⟩⟩
    obtain ⟨room, second, there, -⟩ := (parse_stripped_ok_iff strips fixed_bare session).1 accepted
    obtain ⟨-, first, here, -⟩ := (parse_stripped_ok_iff strips fixed_reduced session).1 accepted'
    obtain ⟨values, each⟩ := exists_each_putAll declared declared' here there
    exact ⟨_, (parse_stripped_ok_iff strips fixed_merged session).2 ⟨room, values, each, rfl⟩⟩

/-- A shared flag is parsed by the second schema at its place in the first one, and a flag that only
the second one declares comes last, by its default. -/
theorem parse_merged_objects_of_flags :
    let flag : Schema := .modify .boolean (.default (.value (.bool true)))
    let left : Schema := .object {} .strict [("a", .null), ("b", .boolean)]
    let right : Schema := .object { nullable := true } .strict [("c", flag), ("a", .boolean)]
    let entries : Entries Value := [("z", .null), ("b", .bool false), ("a", .bool false)]
    let out : Entries Value := [("a", .bool false), ("b", .bool false), ("c", .bool true)]
    let result := fun s : Schema =>
      (s.parse { unknownKeys? := some .strip } (.object entries) {}).1
    ∃ merged first second, left.merge? right = some merged ∧ result merged = .ok (.object out) ∧
      result (.object {} .strict [("b", .boolean)]) = .ok (.object first) ∧
      result (.object {} .strict [("c", flag), ("a", .boolean)]) = .ok (.object second) ∧
      out.Perm (first ++ second) := by
  intro flag left right entries out result
  have fixed : left.WithoutProducers := ⟨nofun, nofun, nofun, trivial⟩
  have fixed' : right.WithoutProducers := ⟨nofun, nofun, nofun, trivial⟩
  obtain ⟨merged, made, -, parts⟩ := parse_merged_objects (o := { unknownKeys? := some .strip })
    (by decide) (by decide) fixed fixed' rfl entries {}
  obtain rfl := Option.some.inj made
  obtain ⟨_, first, second, same, here, there, moved, -⟩ := parts (.object out) rfl
  obtain rfl := Value.object.inj same
  exact ⟨_, first, second, rfl, rfl, here, there, moved⟩

end Schema

end ValueSchema
