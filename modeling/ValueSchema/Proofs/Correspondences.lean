import ValueSchema.Proofs.Parser.Agreement

/-!
Changes that decide nothing: less detail of failed unions, another order of entries, entries that
are left out in place of undefined ones, and exact lengths as two bounds.
-/

set_option autoImplicit false
set_option relaxedAutoImplicit false

namespace ValueSchema

namespace Failure

mutual

/-- A failure tree in which each exhausted union keeps the failure of its first candidate only. -/
def cut : Failure → Failure
  | .plain path cause => .plain path cause
  | .exhausted path candidates => .exhausted path (cutAll candidates)

def cutAll : List Failure → List Failure
  | [] => []
  | failure :: _ => [failure.cut]

end

private theorem cutAll_eq (failures : List Failure) : cutAll failures =
    (failures.map cut).take 1 := by
  cases failures <;> rfl

@[simp] private theorem cut_here (cause : Cause) : (here cause).cut = here cause := rfl

@[simp] private theorem path_cut (failure : Failure) : failure.cut.path = failure.path := by
  cases failure <;> rfl

@[simp] private theorem code_cut (failure : Failure) : failure.cut.code = failure.code := by
  cases failure <;> rfl

private theorem cut_prefixed (segment : Segment) (failure : Failure) :
    (failure.prefixed segment).cut = failure.cut.prefixed segment := by
  induction failure using Failure.induction with
  | plain path cause => rfl
  | exhausted path candidates ih =>
    cases candidates with
    | nil => rfl
    | cons first rest =>
      have inside := ih first List.mem_cons_self
      simp only [prefixed, prefixedAll, cut, cutAll, inside]

end Failure

private theorem Value.Alike.eq_of_eq {v w : Value} (alike : Alike Eq v w) : v = w := by
  induction alike with
  | same v => rfl
  | array length _ ih =>
    have items := List.forall₂_iff_zip.2 ⟨length, fun member => ih _ member⟩
    rw [List.forall₂_eq_eq_eq] at items
    exact congrArg Value.array items
  | object lists _ _ => exact congrArg Value.object lists

private def detailed : Correspondence .all .first where
  lists := Eq
  failures f g := g = f.cut
  admits _ _ := True
  here cause := (Failure.cut_here cause).symm
  prefixed segment cut := by
    subst cut
    exact (Failure.cut_prefixed segment _).symm
  path cut := by
    subst cut
    exact (Failure.path_cut _).symm
  code cut := by
    subst cut
    exact (Failure.code_cut _).symm
  exhausted {fs gs} each := by
    have cuts : gs = fs.map Failure.cut := by
      rw [← List.forall₂_eq_eq_eq, List.forall₂_map_right_iff]
      exact each.flip
    show Failure.exhausted [] (gs.take 1) = .exhausted [] (Failure.cutAll fs)
    rw [cuts, Failure.cutAll_eq]
  made _ alike each := by
    obtain rfl := Value.object.inj alike.eq_of_eq
    have fields := each.imp fun _ _ same => Prod.ext same.1 same.2.eq_of_eq
    rw [List.forall₂_eq_eq_eq] at fields
    subst fields
    exact .same _
  undeclared _ alike := by
    obtain rfl := Value.object.inj alike.eq_of_eq
    exact ⟨rfl, rfl⟩

namespace Schema

/-- What a failed union reports decides nothing else: the parse that reports first candidates only
gives the same value or the failure cut to them, and leaves the same calls and events behind. -/
theorem parse_first_failures (s : Schema) (o : Options) (input : Value) (session : Session) :
    s.parse { o with unionFailures := .first } input session =
      ((s.parse { o with unionFailures := .all } input session).1.mapError Failure.cut,
        (s.parse { o with unionFailures := .all } input session).2) := by
  have admits : s.Everywhere (detailed.Admits o) :=
    Correspondence.admits_everywhere (fun _ _ => trivial) s
  have agree := detailed.parse_agree s admits (.same input) session
  rcases agree.cases with ⟨f, g, after, left, right, failures⟩ | ⟨x, y, after, left, right, alike⟩
  · obtain rfl : g = f.cut := failures
    rw [left, right]
    rfl
  · obtain rfl : x = y := Value.Alike.eq_of_eq alike
    rw [left, right]
    rfl

/-- A union in a tuple in a union: the failures are cut to the first one at both unions. -/
theorem parse_first_failures_of_nested_unions :
    let s : Schema := .unionOf [.tupleOf [.unionOf [.boolean, .null]], .string]
    let input : Value := .array [.string "x"]
    let boolean : Failure := .plain [.index 0] (.typeMismatch .boolean .string)
    let null : Failure := .plain [.index 0] (.typeMismatch .null .string)
    (s.parse { unionFailures := .all } input {}).1 =
        .error (.exhausted [] [.exhausted [.index 0] [boolean, null],
          .plain [] (.typeMismatch .string .array)]) ∧
      (s.parse { unionFailures := .first } input {}).1 =
        .error (.exhausted [] [.exhausted [.index 0] [boolean]]) ∧
      (s.parse { unionFailures := .first } input {}).2 =
        (s.parse { unionFailures := .all } input {}).2 := by
  intro s input boolean null
  have all : (s.parse { unionFailures := .all } input {}).1 =
      .error (.exhausted [] [.exhausted [.index 0] [boolean, null],
        .plain [] (.typeMismatch .string .array)]) := rfl
  have first := parse_first_failures s {} input {}
  refine ⟨all, ?_, by rw [first]⟩
  rw [first, all]
  rfl

end Schema

/-- Two failure trees that are the same but for the order in which unrecognized keys are listed. -/
inductive Failure.SameUpToKeys : Failure → Failure → Prop
  | same (f : Failure) : SameUpToKeys f f
  | keys {path : Path} {keys keys' : List String} (perm : keys.Perm keys') :
      SameUpToKeys (.plain path (.unrecognizedKeys keys)) (.plain path (.unrecognizedKeys keys'))
  | exhausted {path : Path} {candidates candidates' : List Failure}
      (length : candidates.length = candidates'.length)
      (each : ∀ x ∈ candidates.zip candidates', SameUpToKeys x.1 x.2) :
      SameUpToKeys (.exhausted path candidates) (.exhausted path candidates')

namespace Failure.SameUpToKeys

variable {f g : Failure}

private theorem of_forall₂ {path : Path} {candidates candidates' : List Failure}
    (each : List.Forall₂ SameUpToKeys candidates candidates') :
    SameUpToKeys (.exhausted path candidates) (.exhausted path candidates') := by
  obtain ⟨length, each⟩ := List.forall₂_iff_zip.1 each
  exact .exhausted length fun x member => each member

private theorem path_eq (alike : SameUpToKeys f g) : f.path = g.path := by
  cases alike <;> rfl

private theorem code_eq (alike : SameUpToKeys f g) : f.code = g.code := by
  cases alike <;> rfl

private theorem prefixed (segment : Segment) (alike : SameUpToKeys f g) :
    SameUpToKeys (f.prefixed segment) (g.prefixed segment) := by
  induction alike with
  | same f => exact .same _
  | keys perm => exact .keys perm
  | @exhausted path candidates candidates' length _ ih =>
    simp only [Failure.prefixed, Failure.prefixedAll_eq]
    apply of_forall₂
    rw [List.forall₂_map_left_iff, List.forall₂_map_right_iff]
    exact List.forall₂_iff_zip.2 ⟨length, fun member => ih _ member⟩

private theorem reported {candidates candidates' : List Failure} (detail : UnionFailures)
    (each : List.Forall₂ SameUpToKeys candidates candidates') :
    SameUpToKeys (.exhausted [] (Parser.reported detail candidates))
      (.exhausted [] (Parser.reported detail candidates')) := by
  apply of_forall₂
  cases detail with
  | all => exact each
  | first => exact List.forall₂_take 1 each

end Failure.SameUpToKeys

private theorem Parser.kept_related {R : Value → Value → Prop}
    {entries entries' all all' : Entries Value}
    (names : (Entries.names entries).Perm (Entries.names entries'))
    (undefined : ∀ v w, R v w → v.isUndefined = w.isUndefined)
    (each : List.Forall₂ (fun a b => a.1 = b.1 ∧ R a.2 b.2) all all') :
    List.Forall₂ (fun a b => a.1 = b.1 ∧ R a.2 b.2) (kept entries all) (kept entries' all') := by
  induction each with
  | nil => exact .nil
  | @cons a b rest rest' head _ ih =>
    have present : Entries.has entries a.1 = Entries.has entries' b.1 := by
      rw [Bool.eq_iff_iff, Entries.has_iff, Entries.has_iff, head.1, names.mem_iff]
    rw [Entries.has, Entries.has] at present
    simp only [kept, List.filter_cons] at ih ⊢
    rw [present, undefined _ _ head.2]
    split
    · exact .cons head ih
    · exact ih

namespace Value.Reordered

variable {entries entries' all all' : Entries Value}

private theorem names_perm (same : Reordered (.object entries) (.object entries')) :
    (Entries.names entries).Perm (Entries.names entries') :=
  same.lists fun entries => .refl (Entries.names entries)

private theorem without_names_perm (same : Reordered (.object entries) (.object entries'))
    (all : Entries Value) :
    (Entries.names (Entries.without entries all)).Perm
      (Entries.names (Entries.without entries' all)) := by
  rw [Entries.names_without, Entries.names_without]
  exact same.names_perm.filter _

private theorem made (same : Reordered (.object entries) (.object entries'))
    (each : List.Forall₂ (fun a b => a.1 = b.1 ∧ Reordered a.2 b.2) all all')
    (policy : UnknownKeys) :
    Reordered (.object (Parser.output policy entries all))
      (.object (Parser.output policy entries' all')) := by
  have stay := Parser.kept_related same.names_perm (fun v w alike => alike.isUndefined_eq) each
  have names := Parser.names_eq_of_forall₂ stay
  have declared : Entries.names all' = Entries.names all := Parser.names_eq_of_forall₂ each
  have undeclared :
      (Entries.names (Parser.keptUndeclared policy (Entries.without entries all))).Perm
        (Entries.names (Parser.keptUndeclared policy (Entries.without entries' all))) := by
    cases policy with
    | passthrough => exact same.without_names_perm all
    | strict => exact .nil
    | strip => exact .nil
  rw [← Parser.output_eq declared, Parser.output]
  refine .object ?_ fun name => ?_
  · unfold Entries.names at names undeclared ⊢
    rw [List.map_append, List.map_append, names]
    exact undeclared.append_left _
  · rw [Parser.fieldValue_append, Parser.fieldValue_append, Parser.fieldValue_keptUndeclared,
      Parser.fieldValue_keptUndeclared, names]
    split
    · exact Parser.fieldValue_related (R := Reordered) (.same _) stay name
    · split
      · exact same.fieldValue name
      · exact .same _

end Value.Reordered

private def unordered (detail : UnionFailures) : Correspondence detail detail where
  lists entries entries' := (Entries.names entries).Perm (Entries.names entries')
  failures := Failure.SameUpToKeys
  admits _ _ := True
  here cause := .same _
  prefixed segment alike := alike.prefixed segment
  path alike := alike.path_eq
  code alike := alike.code_eq
  exhausted each := .reported detail each
  made _ alike each := Value.Reordered.made alike each _
  undeclared {entries entries' all} _ alike := by
    have perm := Value.Reordered.without_names_perm alike all
    have empty := perm.isEmpty_eq
    unfold Entries.names at empty
    rw [List.isEmpty_map, List.isEmpty_map] at empty
    exact ⟨empty, .keys perm⟩

namespace Schema

/-- From inputs that are equal up to the order of entries at every depth, two parses call the same
producers and report the same events, both in the same order. Both outputs are equal up to that
order, or both failures are equal up to the order of unrecognized keys. -/
theorem parse_reordered (s : Schema) (o : Options) {input input' : Value}
    (same : input.Reordered input') (session : Session) :
    Agree Value.Reordered Failure.SameUpToKeys (s.parse o input session)
      (s.parse o input' session) := by
  have admits : s.Everywhere ((unordered o.unionFailures).Admits o) :=
    Correspondence.admits_everywhere (fun _ _ => trivial) s
  exact (unordered o.unionFailures).parse_agree s admits same session

/-- Entries move at the top and below a union. The producer is called in both parses, and both fail,
each with the unrecognized keys in the order of its own input. -/
theorem parse_reordered_strict :
    let port : Schema := .modify .number (.default (.producer (.cycle 0 [.number 0])))
    let s := objectOf [("port", port), ("at", .unionOf [.string, objectOf []])]
    let o : Options := { unknownKeys? := some .strict }
    let input := Value.object [("at", .object [("x", .null), ("y", .null)]), ("port", .undefined)]
    let input' := Value.object [("port", .undefined), ("at", .object [("y", .null), ("x", .null)])]
    let refusal (keys : List String) : Failure := .exhausted [.key "at"]
      [.plain [.key "at"] (.typeMismatch .string .object),
        .plain [.key "at"] (.unrecognizedKeys keys)]
    Agree Value.Reordered Failure.SameUpToKeys (s.parse o input {}) (s.parse o input' {}) ∧
      (s.parse o input {}).1 = .error (refusal ["x", "y"]) ∧
      (s.parse o input' {}).1 = .error (refusal ["y", "x"]) := by
  intro port s o input input' refusal
  have inner : Value.Reordered (.object [("x", .null), ("y", .null)])
      (.object [("y", .null), ("x", .null)]) := by
    rw [Value.reordered_object_iff (by decide)]
    exact ⟨_, .swap _ _ _, .cons ⟨rfl, .same _⟩ (.cons ⟨rfl, .same _⟩ .nil)⟩
  have outer : input.Reordered input' := by
    rw [Value.reordered_object_iff (by decide)]
    exact ⟨_, .swap _ _ _, .cons ⟨rfl, .same _⟩ (.cons ⟨rfl, inner⟩ .nil)⟩
  exact ⟨parse_reordered s o outer {}, rfl, rfl⟩

end Schema

namespace Value

mutual

/-- A value without the entries of objects that stand for undefined, at every depth. The items of
arrays stay. -/
def dropUndefined : Value → Value
  | .array items => .array (dropItems items)
  | .object entries => .object (dropEntries entries)
  | v => v

def dropItems : List Value → List Value
  | [] => []
  | v :: rest => v.dropUndefined :: dropItems rest

def dropEntries : List (String × Value) → List (String × Value)
  | [] => []
  | (name, v) :: rest =>
    if v.isUndefined then dropEntries rest else (name, v.dropUndefined) :: dropEntries rest

end

private theorem dropItems_eq (items : List Value) : dropItems items = items.map dropUndefined := by
  induction items with
  | nil => rfl
  | cons v rest ih => rw [dropItems, ih, List.map_cons]

private theorem dropEntries_eq (entries : Entries Value) :
    dropEntries entries =
      (entries.filter fun e => !e.2.isUndefined).map fun e => (e.1, e.2.dropUndefined) := by
  induction entries with
  | nil => rfl
  | cons e rest ih =>
    obtain ⟨name, v⟩ := e
    cases absent : v.isUndefined <;> simp [dropEntries, absent, ih]

private theorem dropEntries_append (entries extra : Entries Value) :
    dropEntries (entries ++ extra) = dropEntries entries ++ dropEntries extra := by
  simp only [dropEntries_eq, List.filter_append, List.map_append]

@[simp] private theorem isUndefined_dropUndefined (v : Value) :
    v.dropUndefined.isUndefined = v.isUndefined := by
  cases v <;> rfl

private theorem dropEntries_dropEntries {entries : Entries Value}
    (each : ∀ e ∈ entries, e.2.dropUndefined.dropUndefined = e.2.dropUndefined) :
    dropEntries (dropEntries entries) = dropEntries entries := by
  induction entries with
  | nil => rfl
  | cons e rest ih =>
    obtain ⟨name, v⟩ := e
    obtain ⟨head, others⟩ := List.forall_mem_cons.1 each
    have inside : v.dropUndefined.dropUndefined = v.dropUndefined := head
    rw [dropEntries]
    split
    · exact ih others
    next present => rw [dropEntries, isUndefined_dropUndefined, if_neg present, inside, ih others]

private theorem dropUndefined_dropUndefined (v : Value) :
    v.dropUndefined.dropUndefined = v.dropUndefined := by
  induction v using Value.induction with
  | array items ih =>
    have each : ∀ v ∈ items, (dropUndefined ∘ dropUndefined) v = v.dropUndefined := ih
    rw [dropUndefined, dropUndefined, dropItems_eq, dropItems_eq, List.map_map,
      List.map_congr_left each]
  | object entries ih => exact congrArg Value.object (dropEntries_dropEntries ih)
  | _ => rfl

private theorem fieldValue_dropEntries {entries : Entries Value}
    (nodup : (Entries.names entries).Nodup) (name : String) :
    Parser.fieldValue (dropEntries entries) name =
      (Parser.fieldValue entries name).dropUndefined := by
  induction entries with
  | nil => rfl
  | cons e rest ih =>
    obtain ⟨first, v⟩ := e
    obtain ⟨fresh, distinct⟩ := List.nodup_cons.1 nodup
    have later := ih distinct
    rw [dropEntries, Parser.fieldValue_cons]
    split
    next absent =>
      split
      next same =>
        obtain rfl : v = .undefined := by
          cases v with
          | undefined => rfl
          | _ => cases absent
        rw [later, same, Parser.fieldValue_of_not_mem fresh]
      next => exact later
    next =>
      rw [Parser.fieldValue_cons]
      split
      · rfl
      · exact later

/-- Two values that are the same once their undefined entries are dropped, also when seen through
lookups. -/
private def SameDropped : Value → Value → Prop :=
  Alike fun entries entries' => dropEntries entries = dropEntries entries'

private theorem SameDropped.dropUndefined_eq {v w : Value} (same : SameDropped v w) :
    v.dropUndefined = w.dropUndefined := by
  induction same with
  | same v => rfl
  | @array items items' length _ ih =>
    have each := List.forall₂_iff_zip.2 ⟨length, fun member => ih _ member⟩
    have items : items.map dropUndefined = items'.map dropUndefined := by
      rw [← List.forall₂_eq_eq_eq, List.forall₂_map_left_iff, List.forall₂_map_right_iff]
      exact each
    rw [dropUndefined, dropUndefined, dropItems_eq, dropItems_eq, items]
  | object lists _ _ => exact congrArg Value.object lists

private theorem sameDropped_dropUndefined (v : Value) (wf : v.WellFormed) :
    SameDropped v v.dropUndefined := by
  induction v using Value.induction with
  | array items ih =>
    have inside := (wellFormedItems_iff items).1 wf
    rw [dropUndefined, dropItems_eq]
    apply Alike.array_iff.2
    rw [List.forall₂_map_right_iff, List.forall₂_same]
    exact fun v member => ih v member (inside v member)
  | object entries ih =>
    obtain ⟨nodup, below⟩ := wf
    have inside := (wellFormedEntries_iff entries).1 below
    refine .object ?_ fun name => ?_
    · exact (dropEntries_dropEntries fun e _ => dropUndefined_dropUndefined e.2).symm
    · rw [fieldValue_dropEntries nodup]
      by_cases listed : name ∈ Entries.names entries
      · obtain ⟨e, member, rfl⟩ := List.mem_map.1 listed
        rw [Parser.fieldValue_of_mem nodup member]
        exact ih e member (inside e member)
      · rw [Parser.fieldValue_of_not_mem listed]
        exact .same _
  | _ => exact .same _

end Value

namespace Parser

private theorem dropEntries_kept (entries all : Entries Value) :
    Value.dropEntries (kept entries all) = Value.dropEntries all := by
  rw [Value.dropEntries_eq, Value.dropEntries_eq, kept, List.filter_filter]
  congr 1
  refine List.filter_congr fun e _ => ?_
  cases e.2.isUndefined <;> simp

private theorem dropEntries_without (entries all : Entries Value) :
    Value.dropEntries (Entries.without entries all) =
      Entries.without (Value.dropEntries entries) all := by
  rw [Value.dropEntries_eq, Value.dropEntries_eq, Entries.without, Entries.without, List.filter_map,
    List.filter_filter, List.filter_filter]
  congr 1
  exact List.filter_congr fun e _ => Bool.and_comm _ _

private theorem dropEntries_related {all all' : Entries Value}
    (each : List.Forall₂ (fun a b => a.1 = b.1 ∧ Value.SameDropped a.2 b.2) all all') :
    Value.dropEntries all = Value.dropEntries all' := by
  induction each with
  | nil => rfl
  | @cons a b rest rest' head _ ih =>
    rw [Value.dropEntries, Value.dropEntries, ih, head.1, head.2.isUndefined_eq,
      head.2.dropUndefined_eq]

end Parser

private theorem Value.SameDropped.made {entries entries' all all' : Entries Value}
    (same : SameDropped (.object entries) (.object entries')) (nodup : (Entries.names all).Nodup)
    (each : List.Forall₂ (fun a b => a.1 = b.1 ∧ SameDropped a.2 b.2) all all')
    (policy : UnknownKeys) :
    SameDropped (.object (Parser.output policy entries all))
      (.object (Parser.output policy entries' all')) := by
  have dropped : dropEntries entries = dropEntries entries' := same.lists fun _ => rfl
  have names : Entries.names all' = Entries.names all := Parser.names_eq_of_forall₂ each
  refine .object ?_ fun name => ?_
  · rw [← Parser.output_eq names policy entries', Parser.output, dropEntries_append,
      dropEntries_append, Parser.dropEntries_kept, Parser.dropEntries_kept,
      Parser.dropEntries_related each]
    congr 1
    cases policy with
    | passthrough =>
      show dropEntries (Entries.without entries all) = dropEntries (Entries.without entries' all)
      rw [Parser.dropEntries_without, Parser.dropEntries_without, dropped]
    | strict => rfl
    | strip => rfl
  · rw [Parser.fieldValue_output nodup, Parser.fieldValue_output (names ▸ nodup), names]
    split
    · exact Parser.fieldValue_related (R := SameDropped) (.same _) each name
    · split
      · exact same.fieldValue name
      · exact .same _

/-- Values differ in undefined entries, and failures in nothing, where no object schema is strict
and none declares a field twice. -/
private def undefinedDropped (detail : UnionFailures) : Correspondence detail detail where
  lists entries entries' := Value.dropEntries entries = Value.dropEntries entries'
  failures := Eq
  admits policy names := policy ≠ .strict ∧ names.Nodup
  here _ := rfl
  prefixed segment same := congrArg (Failure.prefixed segment) same
  path same := congrArg Failure.path same
  code same := congrArg Failure.code same
  exhausted each := by
    rw [List.forall₂_eq_eq_eq] at each
    rw [each]
  made admits alike each := Value.SameDropped.made alike admits.2 each _
  undeclared admits := (admits.1 rfl).elim

namespace Schema

/-- Unless some object schema is strict, an input parses as the same input without its undefined
entries does: with the same failure, or with an output that differs in undefined entries only. Both
parses make the same calls and report the same events. -/
theorem parse_dropUndefined (s : Schema) (wf : s.WellFormed) (o : Options)
    (lax : s.WithoutPolicy o .strict) (input : Value) (distinct : input.WellFormed)
    (session : Session) :
    Agree (fun w w' => w.dropUndefined = w'.dropUndefined) Eq (s.parse o input session)
      (s.parse o input.dropUndefined session) := by
  have admits : s.Everywhere ((undefinedDropped o.unionFailures).Admits o) := by
    refine (wf.and lax).imp fun t both => ?_
    cases t with
    | object m unknownKeys fields => exact ⟨fun strict => both.2 (congrArg some strict), both.1⟩
    | _ => trivial
  have alike := input.sameDropped_dropUndefined distinct
  have agree := (undefinedDropped o.unionFailures).parse_agree s admits alike session
  exact agree.imp (fun _ _ same => Value.SameDropped.dropUndefined_eq same) fun _ _ same => same

/-- A default stands in for an undefined entry as for none. Below the union and among undeclared
entries, undefined ones stay in the first output and are not in the second. -/
theorem parse_dropUndefined_filled :
    let s := objectOf [("port", .modify .string (.default (.value (.string "80")))),
      ("at", .unionOf [.string, objectOf [("x", .modify .number .optional)]])]
    let input := Value.object [("port", .undefined), ("at", .object [("x", .undefined)]),
      ("y", .array [.undefined, .object [("z", .undefined)]])]
    Agree (fun w w' => w.dropUndefined = w'.dropUndefined) Eq (s.parse {} input {})
        (s.parse {} input.dropUndefined {}) ∧
      (s.parse {} input {}).1 = .ok (.object [("port", .string "80"),
        ("at", .object [("x", .undefined)]),
        ("y", .array [.undefined, .object [("z", .undefined)]])]) ∧
      (s.parse {} input.dropUndefined {}).1 = .ok (.object [("port", .string "80"),
        ("at", .object []), ("y", .array [.undefined, .object []])]) := by
  intro s input
  exact ⟨parse_dropUndefined s (by decide) {} (by decide) input (by decide) {}, rfl, rfl⟩

end Schema

/-- Bounds that stay as they are, or an exact length that is set as a least and a greatest one
instead, in either order. -/
inductive Bounds.Pins : Bounds Nat → Bounds Nat → Prop
  | same (size : Bounds Nat) : Pins size size
  | minMax (n : Nat) : Pins (set [] .length n) (set (set [] .min n) .max n)
  | maxMin (n : Nat) : Pins (set [] .length n) (set (set [] .max n) .min n)

/-- The cause in which a violated bound is reported as an exact one, whatever its kind is. -/
def Cause.exact : Cause → Cause
  | .constraintViolation subject _ limit actual => .constraintViolation subject .length limit actual
  | cause => cause

private theorem Cause.code_exact (cause : Cause) : cause.exact.code = cause.code := by
  cases cause <;> rfl

/-- Two failure trees that are the same but for the kinds of the violated bounds. -/
def Failure.SameUpToKinds (f g : Failure) : Prop :=
  f.mapCauses Cause.exact = g.mapCauses Cause.exact

namespace Failure.SameUpToKinds

variable {f g : Failure}

private theorem path_eq (alike : SameUpToKinds f g) : f.path = g.path := by
  rw [← path_mapCauses Cause.exact f, alike, path_mapCauses]

private theorem code_eq (alike : SameUpToKinds f g) : f.code = g.code := by
  rw [← code_mapCauses Cause.code_exact f, alike, code_mapCauses Cause.code_exact]

private theorem prefixed (segment : Segment) (alike : SameUpToKinds f g) :
    SameUpToKinds (f.prefixed segment) (g.prefixed segment) := by
  rw [SameUpToKinds, mapCauses_prefixed, mapCauses_prefixed, alike]

private theorem reported {fs gs : List Failure} (detail : UnionFailures)
    (each : List.Forall₂ SameUpToKinds fs gs) :
    SameUpToKinds (.exhausted [] (Parser.reported detail fs))
      (.exhausted [] (Parser.reported detail gs)) := by
  have maps : fs.map (mapCauses Cause.exact) = gs.map (mapCauses Cause.exact) := by
    rw [← List.forall₂_eq_eq_eq, List.forall₂_map_left_iff, List.forall₂_map_right_iff]
    exact each
  rw [SameUpToKinds, mapCauses, mapCauses, mapCausesAll_eq, mapCausesAll_eq]
  cases detail with
  | all => exact congrArg (Failure.exhausted []) maps
  | first =>
    show Failure.exhausted [] ((fs.take 1).map _) = .exhausted [] ((gs.take 1).map _)
    rw [List.map_take, List.map_take, maps]

end Failure.SameUpToKinds

private def exactly (detail : UnionFailures) : Correspondence detail detail where
  lists := Eq
  failures := Failure.SameUpToKinds
  admits _ _ := True
  here _ := rfl
  prefixed segment alike := alike.prefixed segment
  path alike := alike.path_eq
  code alike := alike.code_eq
  exhausted each := .reported detail each
  made := detailed.made
  undeclared _ alike := by
    obtain rfl := Value.object.inj alike.eq_of_eq
    exact ⟨rfl, rfl⟩

namespace Bounds

/-- Bounds that one size alone is within: any other size violates a bound that has it as limit. -/
private def AllowsOnly (n : Nat) (size : Bounds Nat) : Prop :=
  ∀ subject actual, ∃ kind, size.violation? subject actual =
    if actual = n then none
    else some (.here (.constraintViolation subject kind (.ofNat n) (.ofNat actual)))

private theorem allowsOnly_of_iff {n : Nat} {size : Bounds Nat} (limits : ∀ b ∈ size, b.limit = n)
    (violates : ∀ actual, (∃ b ∈ size, b.violatedBy actual = true) ↔ actual < n ∨ n < actual) :
    AllowsOnly n size := by
  intro subject actual
  cases found : size.violation? subject actual with
  | none =>
    have within : ¬∃ b ∈ size, b.violatedBy actual = true := by
      simpa using violation?_eq_none.1 found
    have equal : actual = n := by
      rw [violates actual] at within
      omega
    exact ⟨.length, by rw [if_pos equal]⟩
  | some failure =>
    obtain ⟨b, member, violated, rfl⟩ := of_violation?_eq_some found
    have outside := (violates actual).1 ⟨b, member, violated⟩
    have other : actual ≠ n := by omega
    refine ⟨b.kind, ?_⟩
    rw [if_neg other, limits b member]
    rfl

private theorem allowsOnly_length (n : Nat) : AllowsOnly n (set [] .length n) :=
  allowsOnly_of_iff (by simp [set]) fun actual => by simp [set, Bound.violatedBy, Measure.below]

private theorem allowsOnly_minMax (n : Nat) : AllowsOnly n (set (set [] .min n) .max n) :=
  allowsOnly_of_iff (by simp [set]) fun actual => by simp [set, Bound.violatedBy, Measure.below]

private theorem allowsOnly_maxMin (n : Nat) : AllowsOnly n (set (set [] .max n) .min n) := by
  refine allowsOnly_of_iff (by simp [set]) fun actual => ?_
  have either : (∃ b ∈ set (set [] .max n) .min n, b.violatedBy actual = true) ↔
      n < actual ∨ actual < n := by
    simp [set, Bound.violatedBy, Measure.below]
  exact either.trans or_comm

private theorem AllowsOnly.sameSizes {n : Nat} {size size' : Bounds Nat} (one : AllowsOnly n size)
    (other : AllowsOnly n size') (detail : UnionFailures) :
    (exactly detail).SameSizes size size' := by
  intro subject actual
  obtain ⟨kind, found⟩ := one subject actual
  obtain ⟨kind', found'⟩ := other subject actual
  rw [found, found']
  split
  · exact .none
  · exact .some rfl

private theorem Pins.sameSizes {size size' : Bounds Nat} (pins : Pins size size')
    (detail : UnionFailures) : (exactly detail).SameSizes size size' := by
  cases pins with
  | same => exact .refl size
  | minMax n => exact (allowsOnly_length n).sameSizes (allowsOnly_minMax n) detail
  | maxMin n => exact (allowsOnly_length n).sameSizes (allowsOnly_maxMin n) detail

end Bounds

namespace Schema

/-- An exact length can be set as a least and a greatest one, on any strings and arrays in a schema:
every parse has the same output, or fails with the same failure tree but for the kinds of the
violated bounds. It makes the same calls and reports the same events. -/
theorem parse_pinned {s t : Schema} (pinned : s.Resized Bounds.Pins t) (o : Options)
    (input : Value) (session : Session) :
    Agree Eq Failure.SameUpToKinds (s.parse o input session) (t.parse o input session) := by
  have resized : s.Resized (exactly o.unionFailures).SameSizes t :=
    pinned.imp fun _ _ pins => pins.sameSizes o.unionFailures
  have admits : s.Everywhere ((exactly o.unionFailures).Admits o) :=
    Correspondence.admits_everywhere (fun _ _ => trivial) s
  have agree := (exactly o.unionFailures).parse_agree_resized resized admits (.same input) session
  exact agree.imp (fun _ _ alike => Value.Alike.eq_of_eq alike) fun _ _ same => same

/-- The array is too short for its candidate, below a field and a union. Each of the two failures
names the bound that its own schema has. -/
theorem parse_pinned_below_union :
    let text (size : Bounds Nat) := Schema.primitive {} (.string size)
    let numbers (size : Bounds Nat) := Schema.array {} size .number
    let s := objectOf [("id", .unionOf [text [⟨.length, 2⟩], numbers [⟨.length, 3⟩]])]
    let t := objectOf [("id", .unionOf [text [⟨.max, 2⟩, ⟨.min, 2⟩],
      numbers [⟨.min, 3⟩, ⟨.max, 3⟩]])]
    let input := Value.object [("id", .array [.number 1])]
    let failure (kind : ConstraintKind) : Failure := .exhausted [.key "id"]
      [.plain [.key "id"] (.typeMismatch .string .array),
        .plain [.key "id"] (.constraintViolation .arrayLength kind 3 1)]
    s.Resized Bounds.Pins t ∧
      Agree Eq Failure.SameUpToKinds (s.parse {} input {}) (t.parse {} input {}) ∧
      (s.parse {} input {}).1 = .error (failure .length) ∧
      (t.parse {} input {}).1 = .error (failure .min) := by
  intro text numbers s t input failure
  have texts : (text [⟨.length, 2⟩]).Resized Bounds.Pins (text [⟨.max, 2⟩, ⟨.min, 2⟩]) :=
    .string (.maxMin 2)
  have arrays : (numbers [⟨.length, 3⟩]).Resized Bounds.Pins (numbers [⟨.min, 3⟩, ⟨.max, 3⟩]) :=
    .array (.minMax 3) (.primitive _ _)
  have pinned : s.Resized Bounds.Pins t := by
    refine .object rfl (List.forall_mem_singleton.2 ?_)
    exact .union rfl (List.forall_mem_cons.2 ⟨texts, List.forall_mem_singleton.2 arrays⟩)
  exact ⟨pinned, parse_pinned pinned {} input {}, rfl, rfl⟩

end Schema

end ValueSchema
