import Mathlib.Data.List.Forall2
import ValueSchema.Proofs.Double.Nearest
import ValueSchema.Proofs.Parser.Outputs

/-!
Values exchanged as JSON. What JSON cannot hold is lost on the way out, and nothing else.
-/

set_option autoImplicit false
set_option relaxedAutoImplicit false

namespace ValueSchema

namespace Json

private theorem induction {P : Json → Prop} (null : P .null) (bool : ∀ b, P (.bool b))
    (number : ∀ n, P (.number n)) (string : ∀ s, P (.string s))
    (array : ∀ items, (∀ j ∈ items, P j) → P (.array items))
    (object : ∀ members, (∀ m ∈ members, P m.2) → P (.object members)) : ∀ j, P j := by
  intro j
  refine @Json.rec P (fun items => ∀ j ∈ items, P j) (fun members => ∀ m ∈ members, P m.2)
    (fun m => P m.2) null bool number string array object ?_ ?_ ?_ ?_ ?_ j
  · exact fun _ member => absurd member List.not_mem_nil
  · exact fun _ _ head tail => List.forall_mem_cons.2 ⟨head, tail⟩
  · exact fun _ member => absurd member List.not_mem_nil
  · exact fun _ _ head tail => List.forall_mem_cons.2 ⟨head, tail⟩
  · exact fun _ _ inner => inner

def Number.units : Number → Int
  | .integer i => i * Double.unitsPerOne
  | .real x => x.signedUnits

/-- The numbers that trees are made of: integers of 64 bits and finite doubles. -/
def Number.Valid : Number → Prop
  | .integer i => isWordRange i = true
  | .real x => x.isFinite = true

instance (n : Number) : Decidable n.Valid :=
  match n with
  | .integer i => inferInstanceAs (Decidable (isWordRange i = true))
  | .real x => inferInstanceAs (Decidable (x.isFinite = true))

mutual

/-- No object in a tree names a member twice, and all its numbers are valid. -/
def WellFormed : Json → Prop
  | .number n => n.Valid
  | .array items => WellFormedItems items
  | .object members => (Entries.names members).Nodup ∧ WellFormedMembers members
  | .null | .bool _ | .string _ => True

def WellFormedItems : List Json → Prop
  | [] => True
  | item :: rest => item.WellFormed ∧ WellFormedItems rest

def WellFormedMembers : List (String × Json) → Prop
  | [] => True
  | (_, item) :: rest => item.WellFormed ∧ WellFormedMembers rest

end

private theorem wellFormedItems_iff (items : List Json) :
    WellFormedItems items ↔ ∀ j ∈ items, j.WellFormed := by
  induction items with
  | nil => simp [WellFormedItems]
  | cons j rest ih => rw [WellFormedItems, ih, List.forall_mem_cons]

private theorem wellFormedMembers_iff (members : List (String × Json)) :
    WellFormedMembers members ↔ ∀ m ∈ members, m.2.WellFormed := by
  induction members with
  | nil => simp [WellFormedMembers]
  | cons m rest ih => rw [WellFormedMembers, ih, List.forall_mem_cons]

mutual

def decidableWellFormed : (j : Json) → Decidable j.WellFormed
  | .number n => inferInstanceAs (Decidable n.Valid)
  | .array items => decidableWellFormedItems items
  | .object members =>
    have := decidableWellFormedMembers members
    inferInstanceAs (Decidable ((Entries.names members).Nodup ∧ WellFormedMembers members))
  | .null | .bool _ | .string _ => isTrue trivial

def decidableWellFormedItems : (items : List Json) → Decidable (WellFormedItems items)
  | [] => isTrue trivial
  | item :: rest =>
    have := decidableWellFormed item
    have := decidableWellFormedItems rest
    inferInstanceAs (Decidable (item.WellFormed ∧ WellFormedItems rest))

def decidableWellFormedMembers :
    (members : List (String × Json)) → Decidable (WellFormedMembers members)
  | [] => isTrue trivial
  | (_, item) :: rest =>
    have := decidableWellFormed item
    have := decidableWellFormedMembers rest
    inferInstanceAs (Decidable (item.WellFormed ∧ WellFormedMembers rest))

end

instance (j : Json) : Decidable j.WellFormed := decidableWellFormed j

/-- The second tree is the first one with every number rounded to the nearest double: it has the
same structure, the same members in the same order, and the same strings. -/
inductive Rounded : Json → Json → Prop
  | null : Rounded .null .null
  | bool (b : Bool) : Rounded (.bool b) (.bool b)
  | number {n m : Number} {x : Double} (nearest : x.IsNearest n.units)
      (value : m.units = x.signedUnits) : Rounded (.number n) (.number m)
  | string (s : String) : Rounded (.string s) (.string s)
  | array {items items' : List Json} (each : List.Forall₂ Rounded items items') :
      Rounded (.array items) (.array items')
  | object {members members' : List (String × Json)}
      (names : Entries.names members = Entries.names members')
      (each : List.Forall₂ Rounded (members.map Prod.snd) (members'.map Prod.snd)) :
      Rounded (.object members) (.object members')

private theorem Number.isNearest_toDouble {n : Number} (valid : n.Valid) :
    n.toDouble.IsNearest n.units := by
  cases n with
  | integer i =>
    have range : isWordRange i = true := valid
    simp only [isWordRange, Bool.and_eq_true, decide_eq_true_eq, Nat.shiftLeft_eq,
      Nat.one_mul] at range
    exact Double.isNearest_ofInt (by omega)
  | real x => exact Double.isNearest_signedUnits valid

end Json

namespace Value

mutual

/-- What JSON can hold of a value. Undefined entries of objects are left out; anywhere else
`undefined` is null, as are doubles that are not finite. Zero loses its sign. -/
def normalized : Value → Value
  | .undefined => .null
  | .null => .null
  | .bool b => .bool b
  | .number x => if x.isFinite then .number x.unsignedZero else .null
  | .string s => .string s
  | .array items => .array (normalizedItems items)
  | .object entries => .object (normalizedEntries entries)

def normalizedItems : List Value → List Value
  | [] => []
  | v :: rest => v.normalized :: normalizedItems rest

def normalizedEntries : List (String × Value) → List (String × Value)
  | [] => []
  | (name, v) :: rest =>
    if v.isUndefined then normalizedEntries rest
    else (name, v.normalized) :: normalizedEntries rest

end

section Lists

variable (items : List Value) (entries : Entries Value) (trees : List Json)
  (members : List (String × Json))

private theorem normalizedItems_eq : normalizedItems items = items.map normalized := by
  induction items with
  | nil => rfl
  | cons v rest ih => rw [normalizedItems, ih, List.map_cons]

private theorem normalizedEntries_eq :
    normalizedEntries entries =
      (entries.filter fun e => !e.2.isUndefined).map fun e => (e.1, e.2.normalized) := by
  induction entries with
  | nil => rfl
  | cons e rest ih =>
    obtain ⟨name, v⟩ := e
    cases absent : v.isUndefined <;> simp [normalizedEntries, absent, ih]

private theorem itemsToJson_eq : itemsToJson items = items.map toJson := by
  induction items with
  | nil => rfl
  | cons v rest ih => rw [itemsToJson, ih, List.map_cons]

private theorem entriesToJson_eq :
    entriesToJson entries =
      (entries.filter fun e => !e.2.isUndefined).map fun e => (e.1, e.2.toJson) := by
  induction entries with
  | nil => rfl
  | cons e rest ih =>
    obtain ⟨name, v⟩ := e
    cases absent : v.isUndefined <;> simp [entriesToJson, absent, ih]

private theorem ofJsonItems_eq : ofJsonItems trees = trees.map ofJson := by
  induction trees with
  | nil => rfl
  | cons j rest ih => rw [ofJsonItems, ih, List.map_cons]

private theorem ofJsonMembers_eq : ofJsonMembers members = members.map fun m =>
    (m.1, ofJson m.2) := by
  induction members with
  | nil => rfl
  | cons m rest ih => rw [ofJsonMembers, ih, List.map_cons]

end Lists

section Numbers

variable {x : Double}

private theorem jsonOfDouble_cases (x : Double) :
    (∃ i, x.toInt? = some i ∧ jsonOfDouble x = .number (.integer i)) ∨
      (x.isZero = false ∧ jsonOfDouble x = (Json.Number.ofDouble? x).elim .null .number) := by
  unfold jsonOfDouble
  split
  next i word => exact .inl ⟨i, (Option.filter_eq_some_iff.1 word).1, rfl⟩
  next other =>
    refine .inr ⟨Bool.eq_false_iff.2 fun zero => ?_, rfl⟩
    rw [Double.toInt?_of_isZero zero] at other
    cases other

private theorem jsonOfDouble_of_isZero (zero : x.isZero = true) :
    jsonOfDouble x = .number (.integer 0) := by
  rw [jsonOfDouble, Double.toInt?_of_isZero zero]
  rfl

private theorem jsonOfDouble_of_not_finite (infinite : ¬x.isFinite = true) :
    jsonOfDouble x = .null := by
  rcases jsonOfDouble_cases x with ⟨i, whole, -⟩ | ⟨-, written⟩
  · exact (infinite (Double.isFinite_of_toInt? whole)).elim
  · rw [written, Json.Number.ofDouble?, if_neg infinite]
    rfl

private theorem jsonOfDouble_of_finite (finite : x.isFinite = true) :
    ∃ n : Json.Number, jsonOfDouble x = .number n ∧ n.units = x.signedUnits ∧
      n.toDouble = x.unsignedZero := by
  rcases jsonOfDouble_cases x with ⟨i, whole, written⟩ | ⟨nonzero, written⟩
  · exact ⟨.integer i, written, (Double.signedUnits_of_toInt? whole).symm,
      Double.ofInt_of_toInt? whole⟩
  · have same : x.unsignedZero = x := by
      rcases x.unsignedZero_cases with ⟨zero, -⟩ | ⟨-, same⟩
      · rw [nonzero] at zero
        cases zero
      · exact same
    rw [Json.Number.ofDouble?, if_pos finite] at written
    exact ⟨.real x, written, rfl, same.symm⟩

private theorem jsonOfDouble_unsignedZero (x : Double) :
    jsonOfDouble x.unsignedZero = jsonOfDouble x := by
  rcases x.unsignedZero_cases with ⟨zero, same⟩ | ⟨-, same⟩
  · rw [same, jsonOfDouble_of_isZero zero]
    exact jsonOfDouble_of_isZero rfl
  · rw [same]

end Numbers

private theorem isUndefined_normalized (v : Value) : v.normalized.isUndefined = false := by
  cases v with
  | number x =>
    rw [normalized]
    split <;> rfl
  | _ => rfl

private theorem names_normalizedEntries (entries : Entries Value) :
    (Entries.names (normalizedEntries entries)).Sublist (Entries.names entries) := by
  rw [normalizedEntries_eq, Entries.names_map]
  exact List.filter_sublist.map Prod.fst

private theorem filter_normalizedEntries (entries : Entries Value) :
    ((normalizedEntries entries).filter fun e => !e.2.isUndefined) = normalizedEntries entries := by
  refine List.filter_eq_self.2 fun e member => ?_
  rw [normalizedEntries_eq] at member
  obtain ⟨e, -, rfl⟩ := List.mem_map.1 member
  rw [isUndefined_normalized]
  rfl

private theorem normalizedEntries_normalizedEntries {entries : Entries Value}
    (each : ∀ e ∈ entries, e.2.normalized.normalized = e.2.normalized) :
    normalizedEntries (normalizedEntries entries) = normalizedEntries entries := by
  rw [normalizedEntries_eq (normalizedEntries entries), filter_normalizedEntries,
    normalizedEntries_eq, List.map_map]
  exact List.map_congr_left fun e member => Prod.ext rfl (each e (List.mem_of_mem_filter member))

private theorem normalized_normalized (v : Value) : v.normalized.normalized = v.normalized := by
  induction v using Value.induction with
  | number x =>
    rw [normalized]
    split
    next finite => rw [normalized, Double.isFinite_unsignedZero, if_pos finite,
      Double.unsignedZero_unsignedZero]
    next => rfl
  | array items ih =>
    have each : ∀ v ∈ items, (normalized ∘ normalized) v = v.normalized := ih
    rw [normalized, normalized, normalizedItems_eq, normalizedItems_eq, List.map_map,
      List.map_congr_left each]
  | object entries ih => exact congrArg Value.object (normalizedEntries_normalizedEntries ih)
  | _ => rfl

private theorem entriesToJson_normalizedEntries {entries : Entries Value}
    (each : ∀ e ∈ entries, e.2.normalized.toJson = e.2.toJson) :
    entriesToJson (normalizedEntries entries) = entriesToJson entries := by
  rw [entriesToJson_eq, filter_normalizedEntries, normalizedEntries_eq, entriesToJson_eq,
    List.map_map]
  exact List.map_congr_left fun e member => Prod.ext rfl (each e (List.mem_of_mem_filter member))

private theorem toJson_normalized (v : Value) : v.normalized.toJson = v.toJson := by
  induction v using Value.induction with
  | number x =>
    rw [normalized]
    split
    next => exact jsonOfDouble_unsignedZero x
    next infinite => exact (jsonOfDouble_of_not_finite infinite).symm
  | array items ih =>
    have each : ∀ v ∈ items, (toJson ∘ normalized) v = v.toJson := ih
    rw [normalized, toJson, toJson, normalizedItems_eq, itemsToJson_eq, itemsToJson_eq,
      List.map_map, List.map_congr_left each]
  | object entries ih => exact congrArg Json.object (entriesToJson_normalizedEntries ih)
  | _ => rfl

private theorem ofJsonMembers_entriesToJson {entries : Entries Value}
    (each : ∀ e ∈ entries, ofJson e.2.toJson = e.2.normalized) :
    ofJsonMembers (entriesToJson entries) = normalizedEntries entries := by
  rw [ofJsonMembers_eq, entriesToJson_eq, normalizedEntries_eq, List.map_map]
  exact List.map_congr_left fun e member => Prod.ext rfl (each e (List.mem_of_mem_filter member))

private theorem ofJson_toJson (v : Value) (distinct : v.WellFormed) :
    ofJson v.toJson = v.normalized := by
  induction v using Value.induction with
  | number x =>
    rw [normalized, toJson]
    split
    next finite =>
      obtain ⟨n, written, -, back⟩ := jsonOfDouble_of_finite finite
      rw [written, ofJson, back]
    next infinite => rw [jsonOfDouble_of_not_finite infinite, ofJson]
  | array items ih =>
    have inside := (wellFormedItems_iff items).1 distinct
    have each : ∀ v ∈ items, (ofJson ∘ toJson) v = v.normalized :=
      fun v member => ih v member (inside v member)
    rw [normalized, toJson, ofJson, normalizedItems_eq, itemsToJson_eq, ofJsonItems_eq,
      List.map_map, List.map_congr_left each]
  | object entries ih =>
    obtain ⟨nodup, below⟩ := distinct
    have inside := (wellFormedEntries_iff entries).1 below
    have members := ofJsonMembers_entriesToJson fun e member => ih e member (inside e member)
    -- the names that are left are distinct as well, so no entry replaces another one
    have names := nodup.sublist (names_normalizedEntries entries)
    rw [normalized, toJson, ofJson, members, Entries.ofList_of_nodup names]
  | _ => rfl

private theorem isUndefined_ofJson (j : Json) : (ofJson j).isUndefined = false := by
  cases j <;> rfl

private theorem names_ofJsonMembers (members : List (String × Json)) :
    Entries.names (ofJsonMembers members) = Entries.names members := by
  rw [ofJsonMembers_eq, Entries.names_map]

private theorem entriesToJson_ofJsonMembers (members : List (String × Json)) :
    entriesToJson (ofJsonMembers members) = members.map fun m => (m.1, (ofJson m.2).toJson) := by
  induction members with
  | nil => rfl
  | cons m rest ih =>
    rw [ofJsonMembers, entriesToJson, isUndefined_ofJson, ih, List.map_cons]
    rfl

private theorem rounded_toJson_ofJson (j : Json) (wf : j.WellFormed) : j.Rounded
    (ofJson j).toJson := by
  induction j using Json.induction with
  | null => exact .null
  | bool b => exact .bool b
  | number n =>
    have nearest := Json.Number.isNearest_toDouble wf
    obtain ⟨m, written, value, -⟩ := jsonOfDouble_of_finite nearest.1
    rw [ofJson, toJson, written]
    exact .number nearest value
  | string s => exact .string s
  | array items ih =>
    have inside := (Json.wellFormedItems_iff items).1 wf
    rw [ofJson, toJson, ofJsonItems_eq, itemsToJson_eq, List.map_map]
    refine .array ?_
    rw [List.forall₂_map_right_iff, List.forall₂_same]
    exact fun j member => ih j member (inside j member)
  | object members ih =>
    obtain ⟨nodup, below⟩ := wf
    have inside := (Json.wellFormedMembers_iff members).1 below
    rw [← names_ofJsonMembers] at nodup
    rw [ofJson, toJson, Entries.ofList_of_nodup nodup, entriesToJson_ofJsonMembers]
    refine .object (Entries.names_map members _).symm ?_
    rw [List.map_map, List.forall₂_map_left_iff, List.forall₂_map_right_iff, List.forall₂_same]
    exact fun m member => ih m member (inside m member)

private theorem copyItems_eq {items : List Json} (each : ∀ j ∈ items, copyOfJson j = ofJson j) :
    copyItems items = ofJsonItems items := by
  induction items with
  | nil => rfl
  | cons j rest ih =>
    obtain ⟨head, others⟩ := List.forall_mem_cons.1 each
    rw [copyItems, ofJsonItems, head, ih others]

private theorem copyMembers_eq {members : List (String × Json)}
    (each : ∀ m ∈ members, copyOfJson m.2 = ofJson m.2) (done : Entries Value) :
    copyMembers done members = Entries.putAll done (ofJsonMembers members) := by
  induction members generalizing done with
  | nil => rfl
  | cons m rest ih =>
    obtain ⟨name, j⟩ := m
    obtain ⟨head, others⟩ := List.forall_mem_cons.1 each
    have inside : copyOfJson j = ofJson j := head
    rw [copyMembers, ih others, inside]
    rfl

private theorem copyOfJson_eq (j : Json) : copyOfJson j = ofJson j := by
  induction j using Json.induction with
  | array items ih => exact congrArg Value.array (copyItems_eq ih)
  | object members ih => exact congrArg Value.object (copyMembers_eq ih [])
  | _ => rfl

/-- A value comes back from JSON in its normal form, which is its own normal form and is written
alike. A tree comes back with each number rounded to the nearest double and nothing else changed,
and both ways to read it give the same value. -/
theorem json_round_trip (v : Value) (j : Json) :
    (v.WellFormed → ofJson v.toJson = v.normalized) ∧
      v.normalized.normalized = v.normalized ∧
      v.normalized.toJson = v.toJson ∧
      (j.WellFormed → j.Rounded (ofJson j).toJson) ∧
      copyOfJson j = ofJson j :=
  ⟨v.ofJson_toJson, v.normalized_normalized, v.toJson_normalized, rounded_toJson_ofJson j,
    copyOfJson_eq j⟩

/-- The value loses its absent entry, the sign of zero and what is not a number. The tree loses the
last place of two integers that are no doubles. -/
theorem json_round_trip_lossy :
    let v := Value.object [("a", .undefined),
      ("b", .array [.undefined, .number ⟨true, 0, by decide⟩]),
      ("c", .object [("d", .number .nan), ("e", .undefined)])]
    let j := Json.object [("z", .array [.null, .number (.integer 9007199254740993)]),
      ("a", .number (.integer 18446744073709551615))]
    ofJson v.toJson = .object [("b", .array [.null, .number 0]), ("c", .object [("d", .null)])] ∧
      v.WellFormed ∧ j.WellFormed ∧ j.Rounded (ofJson j).toJson ∧
      (ofJson j).toJson.render =
        "\x7b\"z\":[null,9007199254740992],\"a\":1.8446744073709552e+19\x7d" := by
  intro v j
  obtain ⟨back, -, -, rounded, -⟩ := json_round_trip v j
  exact ⟨back (by decide), by decide, by decide, rounded (by decide), by decide +kernel⟩

section Serialization

variable {α : Type} (w : Json.Serializer α)

private theorem serializeItems_eq {items : List Value}
    (each : ∀ v ∈ items, v.serializeTo w = v.toJson.write w) :
    serializeItems w items = Json.writeItems w (itemsToJson items) := by
  induction items with
  | nil => rfl
  | cons v rest ih =>
    obtain ⟨head, others⟩ := List.forall_mem_cons.1 each
    rw [serializeItems, itemsToJson, Json.writeItems, head, ih others]

private theorem serializeEntries_eq {entries : Entries Value}
    (each : ∀ e ∈ entries, e.2.serializeTo w = e.2.toJson.write w) :
    serializeEntries w entries = Json.writeMembers w (entriesToJson entries) := by
  induction entries with
  | nil => rfl
  | cons e rest ih =>
    obtain ⟨name, v⟩ := e
    obtain ⟨head, others⟩ := List.forall_mem_cons.1 each
    have inside : v.serializeTo w = v.toJson.write w := head
    rw [serializeEntries, entriesToJson]
    split
    · exact ih others
    · rw [Json.writeMembers, inside, ih others]

/-- Any serializer makes the same of a value and of its JSON tree. -/
theorem serializeTo_eq_write (v : Value) : v.serializeTo w = v.toJson.write w := by
  induction v using Value.induction with
  | array items ih => exact congrArg w.array (serializeItems_eq w ih)
  | object entries ih => exact congrArg w.object (serializeEntries_eq w ih)
  | _ => rfl

end Serialization

/-- The text that is written straight from a value is the one of its tree, and messages show it for
every value but the absent one. -/
theorem json_text (v : Value) :
    v.serialize = v.toJson.render ∧
      v.display = if v.isUndefined then "undefined" else v.toJson.render :=
  have same : v.serialize = v.toJson.render := v.serializeTo_eq_write Json.compact
  ⟨same, by rw [display, same]⟩

end Value

end ValueSchema
