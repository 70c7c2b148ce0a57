import ValueSchema.Proofs.Parser.Outputs
import ValueSchema.Proofs.Schema.FixedDefaults

set_option autoImplicit false
set_option relaxedAutoImplicit false

namespace ValueSchema

namespace Parser

variable {entries all : Entries Value} {policy : UnknownKeys} {name : String}

private theorem keptUndeclared_sublist (policy : UnknownKeys) (entries all : Entries Value) :
    (keptUndeclared policy (Entries.without entries all)).Sublist entries := by
  cases policy with
  | passthrough => exact List.filter_sublist
  | strict => exact List.nil_sublist entries
  | strip => exact List.nil_sublist entries

theorem names_output_nodup (nodup : (Entries.names all).Nodup)
    (distinct : (Entries.names entries).Nodup) (policy : UnknownKeys) :
    (Entries.names (output policy entries all)).Nodup := by
  have stay := nodup.sublist (names_kept_sublist entries all)
  have extra := distinct.sublist ((keptUndeclared_sublist policy entries all).map Prod.fst)
  rw [Entries.names, output, List.map_append]
  refine List.nodup_append.2 ⟨stay, extra, ?_⟩
  rintro name declared _ undeclared rfl
  exact names_keptUndeclared undeclared ((names_kept_sublist entries all).subset declared)

private theorem names_output_subset
    (absent : ∀ a ∈ all, a.1 ∉ Entries.names entries → a.2 = .undefined) :
    ∀ name ∈ Entries.names (output policy entries all), name ∈ Entries.names entries := by
  intro name found
  rw [Entries.names, output, List.map_append] at found
  rcases List.mem_append.1 found with stays | extra
  · obtain ⟨a, inside, rfl⟩ := List.mem_map.1 stays
    obtain ⟨parsed, reason⟩ := List.mem_filter.1 inside
    by_contra missing
    rw [Entries.find?_eq_none missing, absent a parsed missing] at reason
    cases reason
  · exact ((keptUndeclared_sublist policy entries all).map Prod.fst).subset extra

private theorem mem_names_kept (declared : name ∈ Entries.names all)
    (present : name ∈ Entries.names entries) : name ∈ Entries.names (kept entries all) := by
  obtain ⟨a, member, rfl⟩ := List.mem_map.1 declared
  have found : (Entries.find? entries a.1).isSome = true := (Entries.has_iff entries a.1).2 present
  apply List.mem_map_of_mem
  rw [kept, List.mem_filter, found]
  exact ⟨member, rfl⟩

private theorem missing_output (closed : policy = .strict → Entries.without entries all = [])
    (present : name ∈ Entries.names entries)
    (missing : name ∉ Entries.names (output policy entries all)) :
    name ∉ Entries.names all ∧ policy = .strip := by
  rw [Entries.names, output, List.map_append, List.mem_append, not_or] at missing
  have undeclared : name ∉ Entries.names all := fun declared =>
    missing.1 (mem_names_kept declared present)
  have left : name ∈ Entries.names (Entries.without entries all) := by
    rw [Entries.names_without, List.mem_filter]
    exact ⟨present, by simpa using undeclared⟩
  refine ⟨undeclared, ?_⟩
  cases policy with
  | strip => rfl
  | passthrough => exact (missing.2 left).elim
  | strict =>
    rw [closed rfl] at left
    cases left

end Parser

namespace Schema

/-- What a schema may make of a value that it accepts. A declared entry is followed into the schema
of its field, an undeclared one stays as it is, and an entry can be missing only where it is
undeclared and the policy is to strip. -/
inductive Preserves (o : Options) : Schema → Value → Value → Prop
  | passes {s : Schema} {v : Value} (passes : s.modifiers.passes v = true) : Preserves o s v v
  | primitive {m : Modifiers} {p : Primitive} {v : Value} : Preserves o (.primitive m p) v v
  | array {m : Modifiers} {size : Bounds Nat} {element : Schema} {items made : List Value}
      (length : items.length = made.length)
      (each : ∀ x ∈ items.zip made, Preserves o element x.1 x.2) :
      Preserves o (.array m size element) (.array items) (.array made)
  | tuple {m : Modifiers} {schemas : List Schema} {items made : List Value}
      (arity : items.length = schemas.length) (length : items.length = made.length)
      (each : ∀ x ∈ (schemas.zip items).zip made, Preserves o x.1.1 x.1.2 x.2) :
      Preserves o (.tuple m schemas) (.array items) (.array made)
  | object {m : Modifiers} {unknownKeys : UnknownKeys} {fields : List (String × Schema)}
      {entries made : Entries Value}
      (distinct : (Entries.names made).Nodup)
      (origin : ∀ name ∈ Entries.names made, name ∈ Entries.names entries)
      (declared : ∀ f ∈ fields, ∀ v w, (f.1, v) ∈ entries → (f.1, w) ∈ made → Preserves o f.2 v w)
      (undeclared : ∀ name ∉ Entries.names fields, ∀ w, (name, w) ∈ made → (name, w) ∈ entries)
      (missing : ∀ name ∈ Entries.names entries, name ∉ Entries.names made →
        name ∉ Entries.names fields ∧ o.unknownKeys?.getD unknownKeys = .strip) :
      Preserves o (.object m unknownKeys fields) (.object entries) (.object made)
  | union {m : Modifiers} {candidates : List Schema} {s : Schema} {v w : Value}
      (member : s ∈ candidates) (inside : Preserves o s v w) : Preserves o (.union m candidates) v w

variable {o : Options} {s : Schema} {v w : Value} {run : Run}

private theorem preserves_of_check (plain : s.modifiers.default? = none)
    (check : ∀ inner, (s.check o v inner).1 = .ok w → s.Preserves o v w)
    (accepted : (s.enter o v run).1 = .ok w) : s.Preserves o v w := by
  have reaches := Modifiers.reached_of_none plain v
  have fixed : ∀ p, s.modifiers.default? ≠ some (.producer p) := by
    rw [plain]
    nofun
  rcases enter_ok fixed accepted with ⟨passes, rfl⟩ | ⟨-, inner, -, checked⟩
  · rw [reaches] at passes ⊢
    exact .passes passes
  · rw [reaches] at checked
    exact check inner checked

private theorem preserves_output {m : Modifiers} {unknownKeys : UnknownKeys}
    {fields : List (String × Schema)} {entries all : Entries Value}
    (names : Entries.names all = Entries.names fields) (nodup : (Entries.names all).Nodup)
    (distinct : (Entries.names entries).Nodup)
    (closed : o.unknownKeys?.getD unknownKeys = .strict → Entries.without entries all = [])
    (absent : ∀ a ∈ all, a.1 ∉ Entries.names entries → a.2 = .undefined)
    (parts : ∀ f ∈ fields, ∃ w, (f.1, w) ∈ all ∧ ∀ v, (f.1, v) ∈ entries → f.2.Preserves o v w) :
    (object m unknownKeys fields).Preserves o (.object entries)
      (.object (Parser.output (o.unknownKeys?.getD unknownKeys) entries all)) := by
  have once := Parser.names_output_nodup nodup distinct (o.unknownKeys?.getD unknownKeys)
  refine .object once (Parser.names_output_subset absent) ?_ ?_ ?_
  · intro f member v w before after
    obtain ⟨x, parsed, preserves⟩ := parts f member
    have declared : f.1 ∈ Entries.names all := List.mem_map_of_mem parsed
    have output : Parser.fieldValue (Parser.output _ entries all) f.1 = w :=
      Parser.fieldValue_of_mem once after
    rw [Parser.fieldValue_output nodup, if_pos declared] at output
    have made : Parser.fieldValue all f.1 = x := Parser.fieldValue_of_mem nodup parsed
    rw [← output, made]
    exact preserves v before
  · intro name fresh w after
    rcases List.mem_append.1 after with stays | extra
    · have declared := (Parser.names_kept_sublist entries all).subset (List.mem_map_of_mem stays)
      exact (fresh (names ▸ declared)).elim
    · exact (Parser.keptUndeclared_sublist _ entries all).subset extra
  · rw [← names]
    exact fun name present missing => Parser.missing_output closed present missing

private theorem enter_preserves (s : Schema) (wf : s.WellFormed) (plain : s.WithoutDefaults)
    (distinct : v.WellFormed) (accepted : (s.enter o v run).1 = .ok w) : s.Preserves o v w := by
  induction s using Schema.induction generalizing v w run with
  | primitive m p =>
    refine preserves_of_check plain.self (fun inner checked => ?_) accepted
    obtain rfl := Primitive.eq_of_check_ok checked
    exact .primitive
  | array m size element ih =>
    refine preserves_of_check plain.self (fun inner checked => ?_) accepted
    rw [check_array] at checked
    obtain ⟨items, values, rfl, rfl, each⟩ := Parser.array_ok (.all _) trivial checked
    have inside := (Value.wellFormedItems_iff items).1 distinct
    obtain ⟨length, each⟩ := List.forall₂_iff_zip.1 each
    refine .array length fun x member => ?_
    obtain ⟨inner, -, returns⟩ := each member
    exact ih wf.element plain.element (inside x.1 (List.of_mem_zip member).1) returns
  | tuple m schemas ih =>
    refine preserves_of_check plain.self (fun inner checked => ?_) accepted
    rw [check_tuple] at checked
    obtain ⟨items, values, rfl, rfl, same, each⟩ :=
      Parser.tuple_ok (fun _ _ => .all _) trivial checked
    have inside := (Value.wellFormedItems_iff items).1 distinct
    rw [List.length_map] at same
    rw [List.zip_map_left, List.forall₂_map_left_iff] at each
    obtain ⟨length, each⟩ := List.forall₂_iff_zip.1 each
    rw [List.length_zip, same, Nat.min_self] at length
    refine .tuple same (same.trans length) fun x member => ?_
    obtain ⟨part, item⟩ := List.of_mem_zip (List.of_mem_zip member).1
    obtain ⟨inner, -, returns⟩ := each member
    exact ih x.1.1 part (wf.item part) (plain.item part) (inside x.1.2 item) returns
  | object m unknownKeys fields ih =>
    refine preserves_of_check plain.self (fun inner checked => ?_) accepted
    rw [check_object] at checked
    obtain ⟨entries, all, rfl, each, rfl, closed⟩ :=
      Parser.object_made (fun _ _ => .all _) trivial checked
    obtain ⟨distinct, below⟩ := distinct
    have inside := (Value.wellFormedEntries_iff entries).1 below
    have names := Parser.names_eq_of_forall₂ each
    rw [Entries.without_congr entries names.symm] at closed
    rw [Parser.output_eq names]
    rw [Entries.names_map] at names
    rw [List.forall₂_map_left_iff] at each
    refine preserves_output names (names ▸ wf.self) distinct closed ?_ ?_
    · intro a parsed absent
      obtain ⟨f, member, same, inner, -, returns⟩ := exists_related_of_mem each.flip parsed
      have same : f.1 = a.1 := same
      have returns : (f.2.enter o (Parser.fieldValue entries f.1) inner).1 = .ok a.2 := returns
      rw [same, Parser.fieldValue_of_not_mem absent] at returns
      exact undefined_of_enter_ok (plain.field member) returns
    · intro f member
      obtain ⟨⟨_, w⟩, parsed, rfl, inner, -, returns⟩ := exists_related_of_mem each member
      refine ⟨w, parsed, fun v before => ?_⟩
      have value : Parser.fieldValue entries f.1 = v := Parser.fieldValue_of_mem distinct before
      have returns : (f.2.enter o (Parser.fieldValue entries f.1) inner).1 = .ok w := returns
      rw [value] at returns
      exact ih f member (wf.field member) (plain.field member) (inside (f.1, v) before) returns
  | union m candidates ih =>
    refine preserves_of_check plain.self (fun inner checked => ?_) accepted
    rw [check_union] at checked
    obtain ⟨c, listed, inner, -, returns⟩ :=
      Parser.union_ok (fun _ _ => .all _) (fun _ _ _ => trivial) trivial checked
    obtain ⟨s, member, rfl⟩ := List.mem_map.1 listed
    have inside := ih s member (wf.candidate member) (plain.candidate member) distinct returns
    exact .union member inside

private theorem Preserves.reordered (preserves : s.Preserves o v w)
    (keeps : s.WithoutPolicy o .strip) (distinct : v.WellFormed) : v.Reordered w := by
  induction preserves with
  | passes _ => exact .same _
  | primitive => exact .same _
  | @array m size element items made length _ ih =>
    have inside := (Value.wellFormedItems_iff items).1 distinct
    refine .array length fun x member => ?_
    exact ih x member keeps.element (inside x.1 (List.of_mem_zip member).1)
  | @tuple m schemas items made arity length _ ih =>
    have inside := (Value.wellFormedItems_iff items).1 distinct
    have zipped : (schemas.zip items).length = made.length := by
      rw [List.length_zip, arity, Nat.min_self, ← arity, length]
    have parts : List.Forall₂ (fun x w => Value.Reordered x.2 w) (schemas.zip items) made := by
      refine List.forall₂_iff_zip.2 ⟨zipped, fun {x w} member => ?_⟩
      obtain ⟨part, item⟩ := List.of_mem_zip (List.of_mem_zip member).1
      exact ih (x, w) member (keeps.item part) (inside x.2 item)
    have whole : (schemas.zip items).map Prod.snd = items := List.map_snd_zip (Nat.le_of_eq arity)
    rw [← whole]
    exact Value.Alike.array_iff.2 (List.forall₂_map_left_iff.2 parts)
  | @object m unknownKeys fields entries made once origin _ undeclared missing ih =>
    obtain ⟨distinct, below⟩ := distinct
    have inside := (Value.wellFormedEntries_iff entries).1 below
    have stays : ∀ name ∈ Entries.names entries, name ∈ Entries.names made := by
      intro name present
      by_contra gone
      exact keeps.self (congrArg some (missing name present gone).2)
    have names : ∀ name, name ∈ Entries.names entries ↔ name ∈ Entries.names made :=
      fun name => ⟨stays name, origin name⟩
    refine .object ((List.perm_ext_iff_of_nodup distinct once).2 names) fun name => ?_
    by_cases present : name ∈ Entries.names made
    · obtain ⟨⟨name, w⟩, after, rfl⟩ := List.mem_map.1 present
      have made_value : Parser.fieldValue made name = w := Parser.fieldValue_of_mem once after
      rw [made_value]
      by_cases declared : name ∈ Entries.names fields
      · obtain ⟨f, member, rfl⟩ := List.mem_map.1 declared
        obtain ⟨⟨_, v⟩, before, rfl⟩ := List.mem_map.1 ((names _).2 present)
        rw [Parser.fieldValue_of_mem distinct before]
        exact ih f member v w before after (keeps.field member) (inside _ before)
      · have before := undeclared name declared w after
        rw [Parser.fieldValue_of_mem distinct before]
        exact .same w
    · have absent : name ∉ Entries.names entries := mt (names name).1 present
      rw [Parser.fieldValue_of_not_mem present, Parser.fieldValue_of_not_mem absent]
      exact .same _
  | @union m candidates s v w member _ ih => exact ih (keeps.candidate member) distinct

/-- A schema without defaults makes of an accepted input the same value again, with at most entries
moved, and undeclared entries dropped where the policy is to strip them. Where it is so nowhere,
only the order of entries can differ. -/
theorem parse_ok_preserves (s : Schema) (wf : s.WellFormed) (plain : s.WithoutDefaults)
    (o : Options) (input : Value) (distinct : input.WellFormed) (session : Session) {value : Value}
    (parsed : (s.parse o input session).1 = .ok value) :
    s.Preserves o input value ∧ (s.WithoutPolicy o .strip → input.Reordered value) := by
  rw [parse_result] at parsed
  have preserves := s.enter_preserves wf plain distinct parsed
  exact ⟨preserves, fun keeps => preserves.reordered keeps distinct⟩

/-- Below a union and at the top, declared entries come first and undeclared ones last, or not at
all where they are stripped. An undefined entry stays. -/
theorem parse_ok_preserves_moved :
    let s := objectOf [("id", .string),
      ("at", .unionOf [.number, objectOf [("x", .modify .boolean .optional)]])]
    let strip : Options := { unknownKeys? := some .strip }
    let input := Value.object [("y", .array [.undefined]),
      ("at", .object [("z", .null), ("x", .undefined)]), ("id", .string "a")]
    let whole := Value.object [("id", .string "a"),
      ("at", .object [("x", .undefined), ("z", .null)]), ("y", .array [.undefined])]
    let part := Value.object [("id", .string "a"), ("at", .object [("x", .undefined)])]
    s.WellFormed ∧ s.WithoutDefaults ∧ s.WithoutPolicy {} .strip ∧ input.WellFormed ∧
      (s.parse {} input {}).1 = .ok whole ∧ input.Reordered whole ∧
      (s.parse strip input {}).1 = .ok part ∧ s.Preserves strip input part := by
  intro s strip input whole part
  have wf : s.WellFormed := by decide
  have plain : s.WithoutDefaults := by decide
  have keeps : s.WithoutPolicy {} .strip := by decide
  have distinct : input.WellFormed := by decide
  have moved : (s.parse {} input {}).1 = .ok whole := rfl
  have stripped : (s.parse strip input {}).1 = .ok part := rfl
  have reordered := (parse_ok_preserves s wf plain {} input distinct {} moved).2 keeps
  have preserved := (parse_ok_preserves s wf plain strip input distinct {} stripped).1
  exact ⟨wf, plain, keeps, distinct, moved, reordered, stripped, preserved⟩

end Schema

end ValueSchema
