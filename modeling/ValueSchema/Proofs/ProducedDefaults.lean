import Mathlib.Data.List.Nodup
import ValueSchema.Proofs.Composites
import ValueSchema.Proofs.Failure.Location

set_option autoImplicit false
set_option relaxedAutoImplicit false

namespace ValueSchema

def Modifiers.produces (m : Modifiers) : Bool :=
  match m.default? with
  | some (.producer _) => true
  | _ => false

private theorem Modifiers.produces_iff {m : Modifiers} :
    m.produces = true ↔ ∃ q, m.default? = some (.producer q) := by
  rw [produces]
  split
  next q standing => exact ⟨fun _ => ⟨q, standing⟩, fun _ => rfl⟩
  next other => exact ⟨nofun, fun ⟨q, standing⟩ => (other q standing).elim⟩

private theorem Modifiers.drawn_of_fixed {m : Modifiers}
    (fixed : ∀ q, m.default? ≠ some (.producer q))
    (v : Value) (run : Run) : m.drawn v run = (m.reached v, run) := by
  cases v with
  | undefined =>
    cases standing : m.default? with
    | none => simp [drawn, reached, standing]
    | some d =>
      cases d with
      | value w =>
        simp only [drawn, reached, standing]
        rfl
      | producer q => exact (fixed q standing).elim
  | _ => rfl

namespace Schema

/-- A schema inside of another one, at a path, gets a value when the other one gets one. A field
that is left out gets undefined, and a fixed default is gone through in place of an absent value. -/
inductive Receives : Schema → Value → Path → Schema → Value → Prop
  | here (s : Schema) (v : Value) : Receives s v [] s v
  | element {m : Modifiers} {size : Bounds Nat} {element t : Schema} {v item u : Value}
      {items : List Value} {position : Nat} {path : Path} (reaches : m.reached v = .array items)
      (place : items[position]? = some item) (below : Receives element item path t u) :
      Receives (.array m size element) v (.index position :: path) t u
  | item {m : Modifiers} {parts : List Schema} {s t : Schema} {v item u : Value}
      {items : List Value} {position : Nat} {path : Path} (reaches : m.reached v = .array items)
      (part : parts[position]? = some s) (place : items[position]? = some item)
      (below : Receives s item path t u) :
      Receives (.tuple m parts) v (.index position :: path) t u
  | field {m : Modifiers} {unknownKeys : UnknownKeys} {fields : List (String × Schema)}
      {f : String × Schema} {t : Schema} {v u : Value} {entries : Entries Value} {path : Path}
      (reaches : m.reached v = .object entries) (member : f ∈ fields)
      (below : Receives f.2 (Parser.fieldValue entries f.1) path t u) :
      Receives (.object m unknownKeys fields) v (.key f.1 :: path) t u

def placed (position : Nat) : List (List Path) → List Path
  | [] => []
  | paths :: rest => paths.map (.index position :: ·) ++ placed (position + 1) rest

mutual

/-- The paths of the absent values that schemas with a producer get, in the order in which a schema
without unions goes through a value: items by position, fields in declared order. -/
def gaps : Schema → Value → List Path
  | .primitive m _, v => if v.isUndefined && m.produces then [[]] else []
  | .array m _ element, v =>
    match m.reached v with
    | .array items => placed 0 (items.map fun item => element.gaps item)
    | _ => []
  | .tuple m parts, v =>
    match m.reached v with
    | .array items => placed 0 (gapsEach parts items)
    | _ => []
  | .object m _ fields, v =>
    match m.reached v with
    | .object entries => gapsOfFields entries fields
    | _ => []
  | .union _ _, _ => []

def gapsEach : List Schema → List Value → List (List Path)
  | s :: rest, item :: items => s.gaps item :: gapsEach rest items
  | _, _ => []

def gapsOfFields (entries : Entries Value) : List (String × Schema) → List Path
  | [] => []
  | (name, s) :: rest =>
    (s.gaps (Parser.fieldValue entries name)).map (.key name :: ·) ++ gapsOfFields entries rest

end

private theorem gapsEach_eq (parts : List Schema) (items : List Value) :
    gapsEach parts items = (parts.zip items).map fun d => d.1.gaps d.2 := by
  induction parts generalizing items with
  | nil => cases items <;> rfl
  | cons s rest ih =>
    cases items with
    | nil => rfl
    | cons item items => rw [gapsEach, ih, List.zip_cons_cons, List.map_cons]

private theorem gapsOfFields_eq (entries : Entries Value) (fields : List (String × Schema)) :
    gapsOfFields entries fields = fields.flatMap fun f =>
      (f.2.gaps (Parser.fieldValue entries f.1)).map (.key f.1 :: ·) := by
  induction fields with
  | nil => rfl
  | cons f rest ih => rw [gapsOfFields, ih, List.flatMap_cons]

private theorem mem_placed_iff {position : Nat} {lists : List (List Path)} {path : Path} :
    path ∈ placed position lists ↔ ∃ i paths rest, lists[i]? = some paths ∧ rest ∈ paths ∧
      path = .index (position + i) :: rest := by
  induction lists generalizing position with
  | nil => simp [placed]
  | cons paths others ih =>
    rw [placed, List.mem_append, List.mem_map, ih]
    constructor
    · rintro (⟨rest, member, rfl⟩ | ⟨i, later, rest, place, member, rfl⟩)
      · exact ⟨0, paths, rest, rfl, member, rfl⟩
      · refine ⟨i + 1, later, rest, place, member, ?_⟩
        rw [Nat.add_assoc, Nat.add_comm 1]
    · rintro ⟨i, later, rest, place, member, rfl⟩
      cases i with
      | zero =>
        obtain rfl := Option.some.inj place
        exact .inl ⟨rest, member, rfl⟩
      | succ i =>
        refine .inr ⟨i, later, rest, place, member, ?_⟩
        rw [Nat.add_assoc, Nat.add_comm 1]

private theorem mem_placed_map_iff {α : Type} {g : α → List Path} {all : List α} {path : Path} :
    path ∈ placed 0 (all.map g) ↔
      ∃ i a rest, all[i]? = some a ∧ rest ∈ g a ∧ path = .index i :: rest := by
  simp only [mem_placed_iff, List.getElem?_map, Option.map_eq_some_iff, Nat.zero_add]
  constructor
  · rintro ⟨i, _, rest, ⟨a, place, rfl⟩, member, same⟩
    exact ⟨i, a, rest, place, member, same⟩
  · rintro ⟨i, a, rest, place, member, same⟩
    exact ⟨i, g a, rest, ⟨a, place, rfl⟩, member, same⟩

private theorem placed_nodup {position : Nat} {lists : List (List Path)}
    (each : ∀ paths ∈ lists, paths.Nodup) : (placed position lists).Nodup := by
  induction lists generalizing position with
  | nil => exact List.nodup_nil
  | cons paths others ih =>
    obtain ⟨here, later⟩ := List.forall_mem_cons.1 each
    rw [placed, List.nodup_append']
    refine ⟨here.map fun a b same => (List.cons.inj same).2, ih later, ?_⟩
    intro path member found
    obtain ⟨rest, -, rfl⟩ := List.mem_map.1 member
    obtain ⟨i, -, other, -, -, same⟩ := mem_placed_iff.1 found
    have places : position = position + 1 + i := Segment.index.inj (List.cons.inj same).1
    omega

private theorem gaps_nodup {s : Schema} (wellFormed : s.WellFormed) (v : Value) :
    (s.gaps v).Nodup := by
  induction s using Schema.induction generalizing v with
  | primitive m p =>
    rw [gaps]
    split
    · exact List.nodup_singleton []
    · exact List.nodup_nil
  | array m size element ih =>
    rw [gaps]
    split
    · exact placed_nodup (List.forall_mem_map.2 fun item _ => ih wellFormed.element item)
    · exact List.nodup_nil
  | tuple m parts ih =>
    rw [gaps]
    split
    · rw [gapsEach_eq]
      refine placed_nodup (List.forall_mem_map.2 fun d member => ?_)
      have part : d.1 ∈ parts := (List.of_mem_zip member).1
      exact ih d.1 part (wellFormed.item part) d.2
    · exact List.nodup_nil
  | object m unknownKeys fields ih =>
    rw [gaps]
    split
    next entries _ =>
      have distinct : (fields.map Prod.fst).Nodup := wellFormed.self
      rw [gapsOfFields_eq, List.nodup_flatMap]
      constructor
      · intro f member
        exact (ih f member (wellFormed.field member) _).map fun a b same => (List.cons.inj same).2
      · refine (List.pairwise_map.1 distinct).imp fun {f g} differs path member found => ?_
        obtain ⟨rest, -, rfl⟩ := List.mem_map.1 member
        obtain ⟨other, -, same⟩ := List.mem_map.1 found
        exact differs (Segment.key.inj (List.cons.inj same).1).symm
    · exact List.nodup_nil
  | union m candidates ih => exact List.nodup_nil

/-- Every producer in a schema is the same one, and it stands at primitive schemas only. -/
def SharesProducer (p : Producer) (s : Schema) : Prop :=
  s.Everywhere fun t => ∀ q, t.modifiers.default? = some (.producer q) →
    q = p ∧ ∃ m k, t = .primitive m k

private theorem SharesProducer.fixed {p : Producer} {s : Schema} (shared : s.SharesProducer p)
    (composite : ∀ m k, s ≠ .primitive m k) (q : Producer) :
    s.modifiers.default? ≠ some (.producer q) := by
  intro standing
  obtain ⟨-, m, k, same⟩ := shared.self q standing
  exact composite m k same

private theorem SharesProducer.primitive_of_produces {p : Producer} {s : Schema}
    (shared : s.SharesProducer p) (produces : s.modifiers.produces = true) : ∃ m k, s =
        .primitive m k := by
  obtain ⟨q, standing⟩ := Modifiers.produces_iff.1 produces
  exact (shared.self q standing).2

private theorem mem_gaps_iff {p : Producer} {s : Schema} (shared : s.SharesProducer p)
    (unionless : s.WithoutUnions) {v : Value} {path : Path} :
    path ∈ s.gaps v ↔ ∃ t, s.Receives v path t .undefined ∧ t.modifiers.produces = true := by
  induction s using Schema.induction generalizing v path with
  | primitive m k =>
    rw [gaps]
    constructor
    · intro member
      split at member
      next draws =>
        obtain rfl := List.mem_singleton.1 member
        rw [Bool.and_eq_true, Value.isUndefined_eq_true_iff] at draws
        obtain ⟨rfl, produces⟩ := draws
        exact ⟨_, .here _ _, produces⟩
      next => cases member
    · rintro ⟨t, receives, produces⟩
      cases receives
      have draws : m.produces = true := produces
      simp [draws, Value.isUndefined]
  | array m size element ih =>
    rw [gaps]
    constructor
    · intro member
      split at member
      next items reaches =>
        obtain ⟨i, item, rest, here, inside, rfl⟩ := mem_placed_map_iff.1 member
        obtain ⟨t, below, produces⟩ := (ih shared.element unionless.element).1 inside
        exact ⟨t, .element reaches here below, produces⟩
      next => cases member
    · rintro ⟨t, receives, produces⟩
      cases receives with
      | here =>
        obtain ⟨_, _, same⟩ := shared.primitive_of_produces produces
        cases same
      | @element _ _ _ _ _ item _ items i rest reaches place below =>
        rw [reaches]
        have inside := (ih shared.element unionless.element).2 ⟨t, below, produces⟩
        exact mem_placed_map_iff.2 ⟨i, item, rest, place, inside, rfl⟩
  | tuple m parts ih =>
    rw [gaps]
    constructor
    · intro member
      split at member
      next items reaches =>
        rw [gapsEach_eq] at member
        obtain ⟨i, ⟨s, item⟩, rest, here, inside, rfl⟩ := mem_placed_map_iff.1 member
        obtain ⟨part, there⟩ := List.getElem?_zip_eq_some.1 here
        have listed := List.mem_of_getElem? part
        obtain ⟨t, below, produces⟩ :=
          (ih s listed (shared.item listed) (unionless.item listed)).1 inside
        exact ⟨t, .item reaches part there below, produces⟩
      next => cases member
    · rintro ⟨t, receives, produces⟩
      cases receives with
      | here =>
        obtain ⟨_, _, same⟩ := shared.primitive_of_produces produces
        cases same
      | @item _ _ s _ _ item _ items i rest reaches part place below =>
        rw [reaches]
        have listed := List.mem_of_getElem? part
        have inside := (ih s listed (shared.item listed) (unionless.item listed)).2
          ⟨t, below, produces⟩
        have paired : (parts.zip items)[i]? = some (s, item) :=
          List.getElem?_zip_eq_some.2 ⟨part, place⟩
        simp only [gapsEach_eq]
        exact mem_placed_map_iff.2 ⟨i, (s, item), rest, paired, inside, rfl⟩
  | object m unknownKeys fields ih =>
    rw [gaps]
    constructor
    · intro member
      split at member
      next entries reaches =>
        rw [gapsOfFields_eq] at member
        obtain ⟨f, listed, found⟩ := List.mem_flatMap.1 member
        obtain ⟨rest, inside, rfl⟩ := List.mem_map.1 found
        obtain ⟨t, below, produces⟩ :=
          (ih f listed (shared.field listed) (unionless.field listed)).1 inside
        exact ⟨t, .field reaches listed below, produces⟩
      next => cases member
    · rintro ⟨t, receives, produces⟩
      cases receives with
      | here =>
        obtain ⟨_, _, same⟩ := shared.primitive_of_produces produces
        cases same
      | @field _ _ _ f _ _ _ entries rest reaches listed below =>
        rw [reaches]
        have inside := (ih f listed (shared.field listed) (unionless.field listed)).2
          ⟨t, below, produces⟩
        simp only [gapsOfFields_eq]
        exact List.mem_flatMap.2 ⟨f, listed, List.mem_map.2 ⟨rest, inside, rfl⟩⟩
  | union m candidates ih => exact (unionless.self rfl).elim

end Schema

/-- Between two runs, a producer is called once for each of some values, and makes them in this
order. -/
structure Draws (p : Producer) (run after : Run) (values : List (Option Value)) : Prop where
  calls : after.calls = run.calls ++ List.replicate values.length p.slot
  made : values =
    (List.range' (run.calls.count p.slot) values.length).map fun k => some (p.output k)

namespace Draws

variable {p : Producer} {run mid after : Run} {values others : List (Option Value)}

private theorem nil (same : after.calls = run.calls) : Draws p run after [] :=
  ⟨by rw [same, List.length_nil, List.replicate_zero, List.append_nil], rfl⟩

private theorem append (first : Draws p run mid values) (later : Draws p mid after others) :
    Draws p run after (values ++ others) where
  calls := by
    rw [later.calls, first.calls, List.length_append, List.append_assoc,
      List.replicate_append_replicate]
  made := by
    have reached : mid.calls.count p.slot = run.calls.count p.slot + values.length := by
      rw [first.calls, List.count_append, List.count_replicate_self]
    have next := later.made
    rw [reached] at next
    conv_lhs => rw [first.made, next]
    rw [List.length_append, ← List.range'_append_1, List.map_append]

end Draws

namespace Schema

variable {o : Options} {p : Producer} {s : Schema} {v w : Value} {run after : Run}

private def DrawsInOrder (o : Options) (p : Producer) (s : Schema) : Prop :=
  ∀ ⦃v w : Value⦄ ⦃run after : Run⦄, s.enter o v run = (.ok w, after) →
    Draws p run after ((s.gaps v).map w.follow?)

private theorem ItemsParsed.draws {depth : Nat} {all : List (Schema × Value)} {values : List Value}
    (parsed : ItemsParsed o depth all run values after)
    (each : ∀ d ∈ all, d.1.DrawsInOrder o p) (front : List Value) :
    Draws p run after
      ((placed front.length (all.map fun d => d.1.gaps d.2)).map
        (Value.array (front ++ values)).follow?) := by
  induction parsed generalizing front with
  | nil => exact .nil rfl
  | @cons s item value rest run mid after values level parsed _ ih =>
    obtain ⟨here, later⟩ := List.forall_mem_cons.1 each
    have next := ih later (front ++ [value])
    rw [List.length_append, List.length_singleton, List.append_assoc, List.singleton_append] at next
    have inside : ((s.gaps item).map (.index front.length :: ·)).map
        (Value.array (front ++ value :: values)).follow? = (s.gaps item).map value.follow? := by
      rw [List.map_map]
      refine List.map_congr_left fun path _ => ?_
      have place : (front ++ value :: values)[front.length]? = some value := by simp
      simp only [Function.comp_apply, Value.follow?, Value.step?, place, Option.bind_some]
    rw [List.map_cons, placed, List.map_append, inside]
    exact (here parsed).append next

private theorem FieldsParsed.draws {depth : Nat} {entries out values : Entries Value}
    {fields : List (String × Schema)}
    (parsed : FieldsParsed o depth entries fields run values after)
    (each : ∀ f ∈ fields, f.2.DrawsInOrder o p)
    (shows : ∀ e ∈ values, Parser.fieldValue out e.1 = e.2) :
    Draws p run after ((gapsOfFields entries fields).map (Value.object out).follow?) := by
  induction parsed with
  | nil => exact .nil rfl
  | @cons name s rest run mid after value values level parsed _ ih =>
    obtain ⟨here, later⟩ := List.forall_mem_cons.1 each
    obtain ⟨shown, others⟩ := List.forall_mem_cons.1 shows
    have inside : ((s.gaps (Parser.fieldValue entries name)).map (.key name :: ·)).map
        (Value.object out).follow? =
            (s.gaps (Parser.fieldValue entries name)).map value.follow? := by
      rw [List.map_map]
      refine List.map_congr_left fun path _ => ?_
      have field : Parser.fieldValue out name = value := shown
      simp only [Function.comp_apply, Value.follow?, Value.step?, field, Option.bind_some]
    rw [gapsOfFields, List.map_append, inside]
    exact (here parsed).append (ih later others)

private theorem primitive_draws {m : Modifiers} {k : Primitive}
    (shared : (primitive m k).SharesProducer p) : (primitive m k).DrawsInOrder o p := by
  intro v w run after entered
  obtain ⟨inner, drawn, calls⟩ : ∃ inner,
      m.drawn v { run with depth := run.depth + 1 } = (w, inner) ∧ after.calls = inner.calls := by
    rcases Visit.passes_or_checks (x := ⟨primitive m k, v, run⟩) entered with
      ⟨inner, drawn, -, same⟩ | ⟨u, inner, checks⟩
    · exact ⟨inner, drawn, congrArg Session.calls same⟩
    · obtain ⟨last, checked, rfl⟩ := checks.step_eq_iff.1 entered
      obtain ⟨accepted, rfl⟩ : k.check u = .ok w ∧ inner = last := Prod.mk.inj checked
      obtain rfl := Primitive.eq_of_check_ok accepted
      exact ⟨inner, checks.drawn, rfl⟩
  rw [gaps]
  by_cases absent : v = .undefined
  · subst absent
    by_cases produces : m.produces = true
    · obtain ⟨q, standing⟩ := Modifiers.produces_iff.1 produces
      obtain ⟨rfl, -⟩ := shared q standing
      simp only [Modifiers.drawn, standing] at drawn
      obtain ⟨rfl, rfl⟩ := Prod.mk.inj drawn
      rw [if_pos (by rw [produces]; rfl)]
      exact ⟨calls, rfl⟩
    · have fixed : ∀ q, m.default? ≠ some (.producer q) := fun q standing =>
        produces (Modifiers.produces_iff.2 ⟨q, standing⟩)
      rw [Modifiers.drawn_of_fixed fixed] at drawn
      obtain ⟨-, rfl⟩ := Prod.mk.inj drawn
      rw [if_neg (by simp [produces])]
      exact .nil calls
  · rcases m.drawn_cases v { run with depth := run.depth + 1 } with ⟨d, same, -⟩ | ⟨-, same⟩
    · exact (absent same).elim
    rw [same] at drawn
    obtain ⟨-, rfl⟩ := Prod.mk.inj drawn
    rw [if_neg (by simp [Value.isUndefined_eq_true_iff, absent])]
    exact .nil calls

private theorem gaps_eq_nil (composite : ∀ m k, s ≠ .primitive m k)
    (noArray : ∀ items, s.modifiers.reached v ≠ .array items)
    (noObject : ∀ entries, s.modifiers.reached v ≠ .object entries) : s.gaps v = [] := by
  cases s with
  | primitive m k => exact (composite m k rfl).elim
  | array m size element =>
    rw [gaps]
    split
    next items reaches => exact (noArray items reaches).elim
    next => rfl
  | tuple m parts =>
    rw [gaps]
    split
    next items reaches => exact (noArray items reaches).elim
    next => rfl
  | object m unknownKeys fields =>
    rw [gaps]
    split
    next entries reaches => exact (noObject entries reaches).elim
    next => rfl
  | union m candidates => rfl

private theorem composite_draws (shared : s.SharesProducer p)
    (composite : ∀ m k, s ≠ .primitive m k)
    (checks : ∀ ⦃v w : Value⦄ ⦃run after : Run⦄,
      s.check o (s.modifiers.reached v) run = (.ok w, after) →
        Draws p run after ((s.gaps v).map w.follow?)) : s.DrawsInOrder o p := by
  intro v w run after entered
  rcases Visit.passes_or_checks (x := ⟨s, v, run⟩) entered with
    ⟨inner, drawn, passes, same⟩ | ⟨u, inner, gets⟩
  · rw [Modifiers.drawn_of_fixed (shared.fixed composite)] at drawn
    obtain ⟨reached, rfl⟩ := Prod.mk.inj drawn
    have none : s.gaps v = [] := by
      refine gaps_eq_nil composite (fun items reaches => ?_) fun entries reaches => ?_
      · rw [← reached, reaches] at passes
        cases passes
      · rw [← reached, reaches] at passes
        cases passes
    rw [none]
    exact .nil (congrArg Session.calls same)
  · have drawn := gets.drawn
    rw [Modifiers.drawn_of_fixed (shared.fixed composite)] at drawn
    obtain ⟨rfl, rfl⟩ := Prod.mk.inj drawn
    obtain ⟨last, checked, rfl⟩ := gets.step_eq_iff.1 entered
    have inside := checks checked
    exact ⟨inside.calls, inside.made⟩

private theorem enter_draws (wellFormed : s.WellFormed) (unionless : s.WithoutUnions)
    (shared : s.SharesProducer p) : s.DrawsInOrder o p := by
  induction s using Schema.induction with
  | primitive m k => exact primitive_draws shared
  | array m size element ih =>
    have below := ih wellFormed.element unionless.element shared.element
    refine composite_draws shared nofun fun v w run after checked => ?_
    obtain ⟨items, -, reaches, -⟩ :=
      Parser.array_ok (.all _) trivial (congrArg Prod.fst checked : (check o _ _ run).1 = .ok w)
    have reached : m.reached v = .array items := reaches
    rw [reaches, check_sequence_iff (.inl rfl)] at checked
    cases checked with
    | @made all values _ fits parsed =>
      cases fits with
      | array within =>
        have drawn := parsed.draws (List.forall_mem_map.2 fun _ _ => below) []
        rw [List.map_map] at drawn
        rw [gaps, reached]
        exact drawn
  | tuple m parts ih =>
    refine composite_draws shared nofun fun v w run after checked => ?_
    have sequence := checked
    rw [check_tuple] at sequence
    obtain ⟨items, -, reaches, -⟩ :=
      Parser.tuple_ok (fun _ _ => .all _) trivial (congrArg Prod.fst sequence)
    have reached : m.reached v = .array items := reaches
    rw [reaches, check_sequence_iff (.inr rfl)] at checked
    cases checked with
    | @made all values _ fits parsed =>
      cases fits with
      | tuple same =>
        have below : ∀ d ∈ parts.zip items, d.1.DrawsInOrder o p := fun d member =>
          have listed := (List.of_mem_zip member).1
          ih d.1 listed (wellFormed.item listed) (unionless.item listed) (shared.item listed)
        have drawn := parsed.draws below []
        rw [gaps, reached]
        simp only [gapsEach_eq]
        exact drawn
  | object m unknownKeys fields ih =>
    refine composite_draws shared nofun fun v w run after checked => ?_
    have fieldwise := checked
    rw [check_object] at fieldwise
    obtain ⟨entries, -, reaches, -⟩ := Parser.object_ok (congrArg Prod.fst fieldwise)
    have reached : m.reached v = .object entries := reaches
    rw [reaches, check_object_iff] at checked
    cases checked with
    | @made values _ all closed =>
      have names := all.names_eq
      have distinct : (Entries.names values).Nodup := names ▸ wellFormed.self
      rw [← Entries.without_eq_filter, Parser.output_eq names, gaps, reached]
      refine all.draws (fun f listed => ?_) fun e member => ?_
      · exact ih f listed (wellFormed.field listed) (unionless.field listed) (shared.field listed)
      · rw [Parser.output]
        exact Parser.fieldValue_made distinct (fun name => Parser.names_keptUndeclared) member
  | union m candidates ih => exact (unionless.self rfl).elim

/-- A parse by a schema without unions whose producers are all one and stand at primitive schemas
calls it once for each place where a schema with it gets an absent value, and nowhere else. These
places have what the calls made, in the order of the calls. -/
theorem parse_draws_in_order (wellFormed : s.WellFormed) (unionless : s.WithoutUnions)
    (shared : s.SharesProducer p) (o : Options) {input : Value} {session next : Session}
    (parsed : s.parse o input session = (.ok w, next)) :
    next.calls = session.calls ++ List.replicate (s.gaps input).length p.slot ∧
    (s.gaps input).map w.follow? =
      (List.range' (session.calls.count p.slot) (s.gaps input).length).map
        (fun k => some (p.output k)) ∧
    (s.gaps input).Nodup ∧
    ∀ path, path ∈ s.gaps input ↔
      ∃ t, s.Receives input path t .undefined ∧ t.modifiers.produces = true := by
  have calls := s.parse_calls_eq o input session
  have result := s.parse_result o input session
  rw [parsed] at calls result
  have drawn := enter_draws wellFormed unionless shared (Prod.ext result.symm rfl)
  have made := drawn.made
  rw [List.length_map] at made
  refine ⟨?_, made, gaps_nodup wellFormed input, fun path => mem_gaps_iff shared unionless⟩
  rw [calls, drawn.calls, List.length_map]

/-- After one call, the next three go to a field that is left out and to two items. -/
theorem parse_draws_in_order_of_tags :
    let p : Producer := .cycle 7 [.string "x", .string "y", .string "z"]
    let tag : Schema := modify .string (.default (.producer p))
    let s : Schema := .object {} .strip [("id", tag), ("tags", .arrayOf tag)]
    let input : Value := .object [("tags", .array [.undefined, .string "b", .undefined])]
    let tags : Value := .array [.string "z", .string "b", .string "x"]
    let gaps : List Path := [[.key "id"], [.key "tags", .index 0], [.key "tags", .index 2]]
    s.parse {} input { calls := [7] } =
      (.ok (.object [("id", .string "y"), ("tags", tags)]), { calls := [7, 7, 7, 7] }) ∧
    s.gaps input = gaps ∧
    gaps.map (Value.object [("id", .string "y"), ("tags", tags)]).follow? =
      [some (.string "y"), some (.string "z"), some (.string "x")] := by
  intro p tag s input tags gaps
  have tagged : tag.SharesProducer p := fun q standing =>
    ⟨(Default.producer.inj (Option.some.inj standing)).symm, _, _, rfl⟩
  have shared : s.SharesProducer p := ⟨nofun, tagged, ⟨nofun, tagged⟩, trivial⟩
  have parsed : s.parse {} input { calls := [7] } =
      (.ok (.object [("id", .string "y"), ("tags", tags)]), { calls := [7, 7, 7, 7] }) := by
    simp only [s, input, tags, tag, p]
    rfl
  have listed : s.gaps input = gaps := rfl
  obtain ⟨-, drawn, -⟩ := parse_draws_in_order (by decide) (by decide) shared {} parsed
  have outputs : (List.range' (List.count 7 [7]) gaps.length).map (fun k => some (p.output k)) =
      [some (.string "y"), some (.string "z"), some (.string "x")] := rfl
  rw [listed] at drawn
  exact ⟨parsed, listed, drawn.trans outputs⟩

end Schema

end ValueSchema
