import ValueSchema.Proofs.Parser.Cases

set_option autoImplicit false
set_option relaxedAutoImplicit false

namespace ValueSchema

namespace Parser

variable {I : Run → Prop}

theorem exists_item_of_mem_zip {α β γ : Type} {R : α × β → γ → Prop} {as : List α} {bs : List β}
    {cs : List γ} (same : bs.length = as.length) (each : List.Forall₂ R (as.zip bs) cs)
    {x : α × γ} (member : x ∈ as.zip cs) : ∃ b, R (x.1, b) x.2 := by
  induction as generalizing bs cs with
  | nil => cases member
  | cons a as ih =>
    cases bs with
    | nil => cases same
    | cons b bs =>
      cases each with
      | cons head tail =>
        rcases List.mem_cons.1 member with rfl | later
        · exact ⟨b, head⟩
        · exact ih (Nat.succ.inj same) tail later

theorem array_within {size : Bounds Nat} {element : Parser} {items : List Value} {value : Value}
    {run : Run} (accepted : (array size element (.array items) run).1 = .ok value) :
    size.violation? .arrayLength items.length = none := by
  cases found : size.violation? .arrayLength items.length with
  | none => rfl
  | some failure => simp [array, found] at accepted

/-- The parsed fields that stay in an object: those that have an entry, and those that something
came of. -/
def kept (entries fields : Entries Value) : Entries Value :=
  fields.filter fun f => (Entries.find? entries f.1).isSome || !f.2.isUndefined

theorem kept_cons {σ : Type} (entries all : Entries Value) (name : String) (value : Value)
    (state : σ) :
    (if (Entries.find? entries name).isSome || !value.isUndefined then
      ((.ok ((name, value) :: kept entries all), state) : Except Failure (Entries Value) × σ)
    else (.ok (kept entries all), state)) = (.ok (kept entries ((name, value) :: all)), state) := by
  rw [kept, kept, List.filter_cons]
  split
  · rfl
  · rfl

def keptUndeclared (policy : UnknownKeys) (undeclared : Entries Value) : Entries Value :=
  match policy with
  | .passthrough => undeclared
  | _ => []

private theorem withUndeclared_eq_ok_iff {policy : UnknownKeys} {undeclared fields : Entries Value}
    {value : Value} :
    withUndeclared policy undeclared fields = .ok value ↔
      value = .object (fields ++ keptUndeclared policy undeclared) ∧
        (policy = .strict → undeclared = []) := by
  cases policy with
  | passthrough => simp [withUndeclared, keptUndeclared, eq_comm]
  | strip => simp [withUndeclared, keptUndeclared, eq_comm]
  | strict => cases undeclared <;> simp [withUndeclared, keptUndeclared, eq_comm]

theorem withUndeclared_eq (policy : UnknownKeys) (undeclared fields : Entries Value) :
    withUndeclared policy undeclared fields =
      if policy = .strict ∧ undeclared.isEmpty = false then
        .error (.here (.unrecognizedKeys (Entries.names undeclared)))
      else .ok (.object (fields ++ keptUndeclared policy undeclared)) := by
  cases policy with
  | passthrough => simp [withUndeclared, keptUndeclared]
  | strip => simp [withUndeclared, keptUndeclared]
  | strict => cases undeclared <;> simp [withUndeclared, keptUndeclared]

private theorem fieldsInOrder_kept {entries : Entries Value} {fields : List (String × Parser)}
    (keeps : ∀ f ∈ fields, f.2.Keeps I) {run : Run} (start : I run) {values : List (String × Value)}
    (returned : (fieldsInOrder entries fields run).1 = .ok values) :
    ∃ all, List.Forall₂ (fun f a => f.1 = a.1 ∧
      Returns I f.2 (fieldValue entries f.1) (.ok a.2)) fields all ∧ values = kept entries all := by
  induction fields generalizing run values with
  | nil =>
    obtain rfl : [] = values := Except.ok.inj returned
    exact ⟨[], .nil, rfl⟩
  | cons field rest ih =>
    have after := keeps field List.mem_cons_self (fieldValue entries field.1) run start
    rcases first : field.2 (fieldValue entries field.1) run with ⟨failure | value, mid⟩
    · simp [fieldsInOrder_cons, first] at returned
    rw [first] at after
    rcases later : fieldsInOrder entries rest mid with ⟨failure | others, last⟩
    · simp [fieldsInOrder_cons, first, later] at returned
    obtain ⟨all, each, rfl⟩ :=
      ih (fun g inside => keeps g (List.mem_cons_of_mem field inside)) after (by rw [later])
    refine ⟨(field.1, value) :: all, .cons ⟨rfl, run, start, by rw [first]⟩ each, ?_⟩
    simp only [fieldsInOrder_cons, first, later, kept_cons] at returned
    exact (Except.ok.inj returned).symm

/-- An object parser makes an object of the fields that stay and of the undeclared entries that
stay. A strict one has met no undeclared entry. -/
theorem object_made {fields : List (String × Parser)} (keeps : ∀ f ∈ fields, f.2.Keeps I)
    {policy : UnknownKeys} {input value : Value} {run : Run} (start : I run)
    (accepted : (object policy fields input run).1 = .ok value) :
    ∃ entries all, input = .object entries ∧
      List.Forall₂ (fun f a => f.1 = a.1 ∧ Returns I f.2 (fieldValue entries f.1) (.ok a.2))
        fields all ∧
      value = .object
        (kept entries all ++ keptUndeclared policy (Entries.without entries fields)) ∧
      (policy = .strict → Entries.without entries fields = []) := by
  cases input with
  | object entries =>
    simp only [object] at accepted
    rcases returned : fieldsInOrder entries fields run with ⟨failure | values, after⟩
    · simp [returned] at accepted
    rw [returned] at accepted
    obtain ⟨all, each, rfl⟩ := fieldsInOrder_kept keeps start (by rw [returned])
    obtain ⟨made, closed⟩ := withUndeclared_eq_ok_iff.1 accepted
    exact ⟨entries, all, rfl, each, made, closed⟩
  | _ => cases accepted

theorem fieldValue_of_mem {entries : Entries Value} (nodup : (Entries.names entries).Nodup)
    {e : String × Value} (member : e ∈ entries) : fieldValue entries e.1 = e.2 := by
  rw [fieldValue, Entries.find?_of_mem nodup member]
  rfl

theorem fieldValue_of_not_mem {entries : Entries Value} {name : String}
    (missing : name ∉ Entries.names entries) : fieldValue entries name = .undefined := by
  rw [fieldValue, Entries.find?_eq_none missing]
  rfl

theorem fieldValue_cons (other : String) (v : Value) (rest : Entries Value) (name : String) :
    fieldValue ((other, v) :: rest) name = if name = other then v else fieldValue rest name := by
  rw [fieldValue, Entries.find?, List.lookup_cons]
  split
  next same =>
    rw [if_pos (beq_iff_eq.1 same)]
    rfl
  next differs =>
    rw [if_neg (beq_eq_false_iff_ne.1 differs)]
    rfl

theorem fieldValue_related {R : Value → Value → Prop} (absent : R .undefined .undefined)
    {entries entries' : Entries Value}
    (each : List.Forall₂ (fun e f => e.1 = f.1 ∧ R e.2 f.2) entries entries') (name : String) :
    R (fieldValue entries name) (fieldValue entries' name) := by
  induction each with
  | nil => exact absent
  | @cons e f rest rest' head _ ih =>
    rw [fieldValue_cons, fieldValue_cons, ← head.1]
    split
    · exact head.2
    · exact ih

theorem fieldValue_append (entries extra : Entries Value) (name : String) :
    fieldValue (entries ++ extra) name =
      if name ∈ Entries.names entries then fieldValue entries name else fieldValue extra name := by
  rw [fieldValue, Entries.find?_append]
  split
  next found =>
    rw [← Entries.has_iff, Entries.has] at found
    obtain ⟨value, here⟩ := Option.isSome_iff_exists.1 found
    rw [fieldValue, here]
    rfl
  next fresh =>
    rw [Entries.find?_eq_none fresh]
    rfl

theorem fieldValue_keptUndeclared {α : Type} (policy : UnknownKeys) (entries : Entries Value)
    (fields : List (String × α)) (name : String) :
    fieldValue (keptUndeclared policy (Entries.without entries fields)) name =
      if policy = .passthrough ∧ name ∉ Entries.names fields then fieldValue entries name
      else .undefined := by
  cases policy with
  | passthrough =>
    split
    next undeclared =>
      show (Entries.find? (Entries.without entries fields) name).getD _ = _
      rw [Entries.find?_without entries fields undeclared.2]
      rfl
    next declared =>
      have gone : name ∉ Entries.names (Entries.without entries fields) := by
        rw [Entries.names_without, List.mem_filter]
        exact fun found => declared ⟨rfl, by simpa using found.2⟩
      exact fieldValue_of_not_mem gone
  | strict => rfl
  | strip => rfl

theorem names_keptUndeclared {α : Type} {policy : UnknownKeys} {entries : Entries Value}
    {fields : List (String × α)} {name : String}
    (member : name ∈ Entries.names (keptUndeclared policy (Entries.without entries fields))) :
    name ∉ Entries.names fields := by
  cases policy with
  | passthrough =>
    simp only [keptUndeclared, Entries.names_without, List.mem_filter] at member
    simpa using member.2
  | _ => cases member

theorem keptUndeclared_eq_nil {policy : UnknownKeys} (closed : policy ≠ .passthrough)
    (undeclared : Entries Value) : keptUndeclared policy undeclared = [] := by
  cases policy with
  | passthrough => exact (closed rfl).elim
  | _ => rfl

theorem names_kept_sublist (entries all : Entries Value) :
    (Entries.names (kept entries all)).Sublist (Entries.names all) :=
  List.filter_sublist.map Prod.fst

private theorem name_mem_kept {entries all : Entries Value} (nodup : (Entries.names all).Nodup)
    {a : String × Value} (member : a ∈ all) :
    a.1 ∈ Entries.names (kept entries all) ↔ a ∈ kept entries all := by
  refine ⟨fun found => ?_, List.mem_map_of_mem⟩
  obtain ⟨b, inside, same⟩ := List.mem_map.1 found
  have content := Entries.find?_of_mem nodup (List.mem_of_mem_filter inside)
  rw [same, Entries.find?_of_mem nodup member] at content
  exact Prod.ext same (Option.some.inj content).symm ▸ inside

theorem fieldValue_made {entries all extra : Entries Value} (nodup : (Entries.names all).Nodup)
    (undeclared : ∀ name ∈ Entries.names extra, name ∉ Entries.names all)
    {a : String × Value} (member : a ∈ all) : fieldValue (kept entries all ++ extra) a.1 = a.2 := by
  have distinct : (Entries.names (kept entries all)).Nodup :=
    nodup.sublist (names_kept_sublist entries all)
  rw [fieldValue, Entries.find?_append]
  by_cases stays : a ∈ kept entries all
  · rw [Entries.find?_of_mem distinct stays]
    rfl
  · have absent : a.2 = .undefined := by
      simp only [kept, List.mem_filter, member, true_and] at stays
      cases content : a.2 <;> simp_all [Value.isUndefined]
    have fresh : a.1 ∉ Entries.names (kept entries all) :=
      fun found => stays ((name_mem_kept nodup member).1 found)
    have declared : a.1 ∉ Entries.names extra := fun found =>
      undeclared a.1 found (List.mem_map_of_mem member)
    rw [Entries.find?_eq_none fresh, Entries.find?_eq_none declared, absent]
    rfl

/-- The object that is made of some entries and the fields that were parsed from them: the fields
that stay, before the undeclared entries that stay. -/
def output (policy : UnknownKeys) (entries all : Entries Value) : Entries Value :=
  kept entries all ++ keptUndeclared policy (Entries.without entries all)

theorem output_eq {α : Type} {all : Entries Value} {fields : List (String × α)}
    (names : Entries.names all = Entries.names fields) (policy : UnknownKeys)
    (entries : Entries Value) :
    kept entries all ++ keptUndeclared policy (Entries.without entries fields) =
      output policy entries all := by
  rw [output, Entries.without_congr entries names]

theorem fieldValue_output {entries all : Entries Value} (nodup : (Entries.names all).Nodup)
    (policy : UnknownKeys) (name : String) :
    fieldValue (output policy entries all) name =
      if name ∈ Entries.names all then fieldValue all name
      else if policy = .passthrough then fieldValue entries name else .undefined := by
  by_cases declared : name ∈ Entries.names all
  · rw [if_pos declared]
    obtain ⟨a, member, rfl⟩ := List.mem_map.1 declared
    rw [output, fieldValue_made nodup (fun name => names_keptUndeclared) member,
      fieldValue_of_mem nodup member]
  · have gone : name ∉ Entries.names (kept entries all) := fun found =>
      declared ((names_kept_sublist entries all).subset found)
    rw [if_neg declared, output, fieldValue_append, if_neg gone, fieldValue_keptUndeclared]
    simp only [declared, not_false_eq_true, and_true]

theorem kept_made {entries all extra : Entries Value} (nodup : (Entries.names all).Nodup)
    (undeclared : ∀ name ∈ Entries.names extra, name ∉ Entries.names all) :
    kept (kept entries all ++ extra) all = kept entries all := by
  refine List.filter_congr fun a member => ?_
  have declared : a.1 ∉ Entries.names extra := fun found =>
    undeclared a.1 found (List.mem_map_of_mem member)
  have listed : a.1 ∈ Entries.names (kept entries all ++ extra) ↔ a ∈ kept entries all := by
    rw [← name_mem_kept nodup member]
    simp only [Entries.names, List.map_append, List.mem_append] at declared ⊢
    exact or_iff_left declared
  rw [← Entries.has_iff, Entries.has] at listed
  simp only [kept, List.mem_filter, member, true_and] at listed
  rw [Bool.eq_iff_iff, Bool.or_eq_true, kept, listed]
  simp

theorem without_made {β : Type} {fields : List (String × β)} {stay extra : Entries Value}
    (declared : ∀ name ∈ Entries.names stay, name ∈ Entries.names fields)
    (undeclared : ∀ name ∈ Entries.names extra, name ∉ Entries.names fields) :
    Entries.without (stay ++ extra) fields = extra := by
  rw [Entries.without, List.filter_append, List.filter_eq_nil_iff.2, List.nil_append,
    List.filter_eq_self]
  · intro entry member
    have fresh := undeclared entry.1 (List.mem_map_of_mem member)
    rw [← Entries.has_iff] at fresh
    simpa using fresh
  · intro entry member
    have found := declared entry.1 (List.mem_map_of_mem member)
    rw [← Entries.has_iff] at found
    simp [found]

end Parser

namespace Value

theorem induction {P : Value → Prop} (undefined : P .undefined) (null : P .null)
    (bool : ∀ b, P (.bool b)) (number : ∀ x, P (.number x)) (string : ∀ s, P (.string s))
    (array : ∀ items, (∀ v ∈ items, P v) → P (.array items))
    (object : ∀ entries, (∀ e ∈ entries, P e.2) → P (.object entries)) : ∀ v, P v := by
  intro v
  refine @Value.rec P (fun items => ∀ v ∈ items, P v) (fun entries => ∀ e ∈ entries, P e.2)
    (fun e => P e.2) undefined null bool number string array object ?_ ?_ ?_ ?_ ?_ v
  · exact fun _ member => absurd member List.not_mem_nil
  · exact fun _ _ head tail _ member => (List.mem_cons.1 member).elim (fun e => e ▸ head) (tail _)
  · exact fun _ member => absurd member List.not_mem_nil
  · exact fun _ _ head tail _ member => (List.mem_cons.1 member).elim (fun e => e ▸ head) (tail _)
  · exact fun _ _ inner => inner

theorem wellFormedItems_iff (items : List Value) :
    WellFormedItems items ↔ ∀ v ∈ items, v.WellFormed := by
  induction items with
  | nil => simp [WellFormedItems]
  | cons v rest ih => rw [WellFormedItems, ih, List.forall_mem_cons]

theorem wellFormedEntries_iff (entries : Entries Value) :
    WellFormedEntries entries ↔ ∀ e ∈ entries, e.2.WellFormed := by
  induction entries with
  | nil => simp [WellFormedEntries]
  | cons e rest ih => rw [WellFormedEntries, ih, List.forall_mem_cons]

mutual

def decidableWellFormed : (v : Value) → Decidable v.WellFormed
  | .array items => decidableWellFormedItems items
  | .object entries =>
    have := decidableWellFormedEntries entries
    inferInstanceAs (Decidable ((Entries.names entries).Nodup ∧ WellFormedEntries entries))
  | .undefined | .null | .bool _ | .number _ | .string _ => isTrue trivial

def decidableWellFormedItems : (items : List Value) → Decidable (WellFormedItems items)
  | [] => isTrue trivial
  | v :: rest =>
    have := decidableWellFormed v
    have := decidableWellFormedItems rest
    inferInstanceAs (Decidable (v.WellFormed ∧ WellFormedItems rest))

def decidableWellFormedEntries :
    (entries : List (String × Value)) → Decidable (WellFormedEntries entries)
  | [] => isTrue trivial
  | (_, v) :: rest =>
    have := decidableWellFormed v
    have := decidableWellFormedEntries rest
    inferInstanceAs (Decidable (v.WellFormed ∧ WellFormedEntries rest))

end

instance (v : Value) : Decidable v.WellFormed := decidableWellFormed v

/-- Two values that are the same but for their objects: the lists of entries are in a relation, and
each name stands for such values in both. An absent entry stands for undefined. -/
inductive Alike (E : Entries Value → Entries Value → Prop) : Value → Value → Prop
  | same (v : Value) : Alike E v v
  | array {items items' : List Value} (length : items.length = items'.length)
      (each : ∀ x ∈ items.zip items', Alike E x.1 x.2) : Alike E (.array items) (.array items')
  | object {entries entries' : Entries Value} (lists : E entries entries')
      (each : ∀ name, Alike E (Parser.fieldValue entries name) (Parser.fieldValue entries' name)) :
      Alike E (.object entries) (.object entries')

namespace Alike

variable {E : Entries Value → Entries Value → Prop} {v w : Value}

theorem array_iff {items items' : List Value} :
    Alike E (.array items) (.array items') ↔ List.Forall₂ (Alike E) items items' := by
  constructor
  · intro alike
    cases alike with
    | same => exact List.forall₂_same.2 fun v _ => .same v
    | array length each => exact List.forall₂_iff_zip.2 ⟨length, fun member => each _ member⟩
  · intro each
    obtain ⟨length, each⟩ := List.forall₂_iff_zip.1 each
    exact .array length fun x member => each member

theorem fieldValue {entries entries' : Entries Value}
    (alike : Alike E (.object entries) (.object entries')) (name : String) :
    Alike E (Parser.fieldValue entries name) (Parser.fieldValue entries' name) := by
  cases alike with
  | same => exact .same _
  | object _ each => exact each name

theorem lists {entries entries' : Entries Value}
    (alike : Alike E (.object entries) (.object entries')) (refl : ∀ entries, E entries entries) :
    E entries entries' := by
  cases alike with
  | same => exact refl entries
  | object lists _ => exact lists

theorem kind_eq (alike : Alike E v w) : v.kind = w.kind := by
  cases alike <;> rfl

theorem isUndefined_eq (alike : Alike E v w) : v.isUndefined = w.isUndefined := by
  cases alike <;> rfl

end Alike

/-- Two values that are the same but for the order of the entries of objects, at every depth:
objects have the same names, and under each name such values. -/
def Reordered : Value → Value → Prop :=
  Alike fun entries entries' => (Entries.names entries).Perm (Entries.names entries')

theorem reordered_object_iff {entries entries' : Entries Value}
    (nodup : (Entries.names entries).Nodup) :
    Reordered (.object entries) (.object entries') ↔
      ∃ moved, moved.Perm entries ∧
        List.Forall₂ (fun e f => e.1 = f.1 ∧ Reordered e.2 f.2) moved entries' := by
  constructor
  · intro same
    have names := same.lists fun entries => List.Perm.refl (Entries.names entries)
    have nodup' : (Entries.names entries').Nodup := names.nodup_iff.1 nodup
    refine ⟨(Entries.names entries').map fun name => (name, Parser.fieldValue entries name), ?_, ?_⟩
    · have whole : ((Entries.names entries).map fun name =>
          (name, Parser.fieldValue entries name)) = entries := by
        unfold Entries.names
        rw [List.map_map]
        refine (List.map_congr_left fun e member => ?_).trans (List.map_id entries)
        exact Prod.ext rfl (Parser.fieldValue_of_mem nodup member)
      have moved := names.symm.map fun name => (name, Parser.fieldValue entries name)
      rwa [whole] at moved
    · unfold Entries.names
      rw [List.map_map, List.forall₂_map_left_iff, List.forall₂_same]
      intro f member
      have value := same.fieldValue f.1
      rw [Parser.fieldValue_of_mem nodup' member] at value
      exact ⟨rfl, value⟩
  · rintro ⟨moved, perm, each⟩
    have names : Entries.names entries' = Entries.names moved := Parser.names_eq_of_forall₂ each
    refine .object ?_ fun name => ?_
    · rw [names]
      exact (perm.map Prod.fst).symm
    · have distinct : (Entries.names moved).Nodup := (perm.map Prod.fst).nodup_iff.2 nodup
      rw [Parser.fieldValue, ← Entries.find?_perm perm distinct]
      exact Parser.fieldValue_related (R := Reordered) (.same _) each name

end Value

end ValueSchema
