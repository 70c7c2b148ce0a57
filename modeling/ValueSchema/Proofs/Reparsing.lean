import ValueSchema.Proofs.Parser.Outputs
import ValueSchema.Proofs.Schema.FixedDefaults

set_option autoImplicit false
set_option relaxedAutoImplicit false

namespace ValueSchema

namespace Parser

/-- In every run at a depth, a parser accepts a value, and makes `w` of it if `same` holds. -/
def Gives (depth : Nat) (same : Prop) (p : Parser) (v w : Value) : Prop :=
  ∀ run, run.depth = depth → ∃ y, (p v run).1 = .ok y ∧ (same → y = w)

private theorem eq_of_forall₂ {α β : Type} {R S : α → β → Prop} {as : List α} {bs cs : List β}
    (each : List.Forall₂ R as bs) (other : List.Forall₂ S as cs)
    (only : ∀ a b c, R a b → S a c → b = c) : bs = cs := by
  induction each generalizing cs with
  | nil => cases other; rfl
  | cons head _ ih =>
    cases other with
    | cons head' tail' => rw [only _ _ _ head head', ih tail']

namespace Gives

variable {depth : Nat} {same : Prop} {p : Parser} {v w y : Value}

private theorem mono {weaker : Prop} (gives : p.Gives depth same v w) (weakens : weaker → same) :
    p.Gives depth weaker v w := by
  intro run start
  obtain ⟨y, accepted, only⟩ := gives run start
  exact ⟨y, accepted, fun holds => only (weakens holds)⟩

private theorem not_error (gives : p.Gives depth same v w) {failure : Failure} :
    ¬ Returns (fun run => run.depth = depth) p v (.error failure) := by
  rintro ⟨run, start, refused⟩
  obtain ⟨y, accepted, -⟩ := gives run start
  rw [refused] at accepted
  cases accepted

private theorem eq_of_ok (gives : p.Gives depth same v w) (holds : same)
    (returned : Returns (fun run => run.depth = depth) p v (.ok y)) : y = w := by
  obtain ⟨run, start, made⟩ := returned
  obtain ⟨z, accepted, only⟩ := gives run start
  rw [made] at accepted
  rw [Except.ok.inj accepted, only holds]

private theorem inOrder {items : List (Parser × Value)} (lawful : ∀ x ∈ items, x.1.Lawful)
    {values : List Value}
    (gives : List.Forall₂ (fun x w => x.1.Gives depth same x.2 w) items values) {run : Run}
    (start : run.depth = depth) :
    ∃ y, (asArray (Parser.inOrder 0 items run)).1 = .ok y ∧ (same → y = .array values) := by
  have keeps : ∀ x ∈ items, x.1.Keeps fun run => run.depth = depth :=
    fun x member => (lawful x member).keeps_depth depth
  rcases returned : Parser.inOrder 0 items run with ⟨failure | ys, after⟩
  · obtain ⟨i, x, inner, found, fails, -⟩ := inOrder_error keeps start (by rw [returned])
    obtain ⟨w, -, accepts⟩ := exists_related_of_mem gives (List.mem_of_getElem? found)
    exact (accepts.not_error fails).elim
  · refine ⟨.array ys, rfl, fun holds => congrArg Value.array ?_⟩
    exact eq_of_forall₂ (inOrder_ok keeps start (by rw [returned])) gives
      fun x y w returns accepts => accepts.eq_of_ok holds returns

private theorem array (lawful : p.Lawful) {size : Bounds Nat} {items values : List Value}
    (within : size.violation? .arrayLength items.length = none)
    (gives : List.Forall₂ (p.Gives depth same) items values) :
    (Parser.array size p).Gives depth same (.array items) (.array values) := by
  intro run start
  have all : ∀ x ∈ items.map fun item => (p, item), x.1.Lawful :=
    List.forall_mem_map.2 fun _ _ => lawful
  simpa only [Parser.array, within] using inOrder all (List.forall₂_map_left_iff.2 gives) start

private theorem tuple {parsers : List Parser} (lawful : ∀ q ∈ parsers, q.Lawful)
    {items values : List Value} (arity : items.length = parsers.length)
    (gives : List.Forall₂ (fun x w => x.1.Gives depth same x.2 w) (parsers.zip items) values) :
    (Parser.tuple parsers).Gives depth same (.array items) (.array values) := by
  intro run start
  have all : ∀ x ∈ parsers.zip items, x.1.Lawful :=
    fun x member => lawful x.1 (List.of_mem_zip member).1
  simpa only [Parser.tuple, arity, if_true] using inOrder all gives start

private theorem object {fields : List (String × Parser)} (lawful : ∀ f ∈ fields, f.2.Lawful)
    {policy : UnknownKeys} {entries all : Entries Value}
    (gives : List.Forall₂
      (fun f a => f.1 = a.1 ∧ f.2.Gives depth same (fieldValue entries f.1) a.2) fields all)
    (closed : policy = .strict → Entries.without entries fields = []) :
    (Parser.object policy fields).Gives depth same (.object entries)
      (.object (kept entries all ++ keptUndeclared policy (Entries.without entries fields))) := by
  intro run start
  have keeps : ∀ f ∈ fields, f.2.Keeps fun run => run.depth = depth :=
    fun f member => (lawful f member).keeps_depth depth
  rcases returned : Parser.object policy fields (.object entries) run with ⟨failure | y, after⟩
  · rcases object_error keeps start (by rw [returned]) with ⟨mismatch, -⟩ | ⟨others, eq, faults⟩
    · cases mismatch
    · obtain rfl := Value.object.inj eq
      rcases faults with ⟨f, member, inner, fails, -⟩ | ⟨strict, undeclared, -⟩
      · obtain ⟨a, -, -, accepts⟩ := exists_related_of_mem gives member
        exact (accepts.not_error fails).elim
      · exact (undeclared (closed strict)).elim
  · refine ⟨y, rfl, fun holds => ?_⟩
    obtain ⟨others, all', eq, each, rfl, -⟩ := object_made keeps start (by rw [returned])
    obtain rfl := Value.object.inj eq
    rw [eq_of_forall₂ each gives fun f a b made accepts =>
      Prod.ext (made.1.symm.trans accepts.1) (accepts.2.eq_of_ok holds made.2)]

private theorem union {candidates : List (SchemaKind × Parser)}
    (lawful : ∀ c ∈ candidates, c.2.Lawful)
    (quiet : ∀ c ∈ candidates, c.2.Quiet depth) {c : SchemaKind × Parser}
    (member : c ∈ candidates) (gives : c.2.Gives depth same v w) (detail : UnionFailures) :
    (Parser.union detail candidates).Gives depth False v w := by
  intro run start
  have known := firstOf_explained (fun c member => (lawful c member).keeps_depth depth)
    (fun _ _ kept => kept) v 0 start
  rw [union_eq]
  cases tried : (Parser.firstOf 0 candidates v run).1 with
  | accepted value => exact ⟨value, rfl, False.elim⟩
  | stopped failure =>
    rw [tried] at known
    obtain ⟨limit, c, listed, stops⟩ := known
    rw [(quiet c listed).not_isLimit stops] at limit
    cases limit
  | refused failures =>
    rw [tried] at known
    obtain ⟨failure, -, fails, -⟩ := exists_related_of_mem known member
    exact (gives.not_error fails).elim

/-- What one check accepts once the modifiers are settled, another one is sure to accept if it is
sure to accept what the first one checks. -/
theorem settled {m : Modifiers} {handles : Bool} {check other : Parser} {run : Run}
    (accepted : (Parser.settled m handles check v run).1 = .ok w)
    (gives : (check v run).1 = .ok w → other.Gives depth same v w) :
    (Parser.settled m handles other).Gives depth same v w := by
  intro run' start
  rcases settled_cases m handles check v run with ⟨eq, passes⟩ | ⟨eq, -⟩ | ⟨eq, closed, handled⟩
  · rw [eq] at accepted
    obtain rfl := Except.ok.inj accepted
    rcases settled_cases m handles other v run' with ⟨eq', -⟩ | ⟨-, -, closed, -⟩ | ⟨-, closed, -⟩
    · exact ⟨v, by rw [eq'], fun _ => rfl⟩
    · cases passes.symm.trans closed
    · cases passes.symm.trans closed
  · rw [eq] at accepted
    cases accepted
  · rw [eq] at accepted
    rcases settled_cases m handles other v run' with
      ⟨-, passes⟩ | ⟨-, absent, -, missing⟩ | ⟨eq', -⟩
    · cases closed.symm.trans passes
    · cases (handled absent).symm.trans missing
    · rw [eq']
      exact gives accepted run' start

end Gives

/-- What the first parser makes of a value at a depth, the second one is sure to accept. If `same`
holds, it makes the same of it. -/
def Carries (depth : Nat) (same : Prop) (p q : Parser) : Prop :=
  ∀ ⦃v w run⦄, run.depth = depth → (p v run).1 = .ok w → q.Gives depth same v w

namespace Carries

variable {depth : Nat} {same : Prop}

theorem mono {p q : Parser} {weaker : Prop} (carries : Carries depth same p q)
    (weakens : weaker → same) : Carries depth weaker p q :=
  fun _ _ _ start accepted => (carries start accepted).mono weakens

private theorem of_returns {p q : Parser} (carries : Carries depth same p q) {v w : Value}
    (returned : Returns (fun run => run.depth = depth) p v (.ok w)) : q.Gives depth same v w := by
  obtain ⟨run, start, accepted⟩ := returned
  exact carries start accepted

theorem array {p q : Parser} (lawful : p.Lawful) (lawful' : q.Lawful)
    (carries : Carries depth same p q) (size : Bounds Nat) :
    Carries depth same (Parser.array size p) (Parser.array size q) := by
  intro v w run start accepted
  obtain ⟨items, values, rfl, rfl, each⟩ := array_ok (lawful.keeps_depth depth) start accepted
  exact .array lawful' (array_within accepted) (each.imp fun item value => carries.of_returns)

section Parts

variable {α : Type} {p q : α → Parser}

theorem tuple {xs : List α} (lawful : ∀ a ∈ xs, (p a).Lawful) (lawful' : ∀ a ∈ xs, (q a).Lawful)
    (carries : ∀ a ∈ xs, Carries depth same (p a) (q a)) :
    Carries depth same (Parser.tuple (xs.map p)) (Parser.tuple (xs.map q)) := by
  intro v w run start accepted
  have keeps : ∀ r ∈ xs.map p, r.Keeps fun run => run.depth = depth :=
    List.forall_mem_map.2 fun a member => (lawful a member).keeps_depth depth
  obtain ⟨items, values, rfl, rfl, arity, each⟩ := tuple_ok keeps start accepted
  refine .tuple (List.forall_mem_map.2 lawful') (by simpa using arity) ?_
  rw [List.zip_map_left, List.forall₂_map_left_iff] at each ⊢
  have inside : ∀ x ∈ xs.zip items, x.1 ∈ xs := fun x member => (List.of_mem_zip member).1
  refine ((List.forall₂_and_left _ _).2 ⟨inside, each⟩).imp fun x value parsed => ?_
  exact (carries x.1 parsed.1).of_returns parsed.2

theorem object {fields : List (String × α)} (lawful : ∀ f ∈ fields, (p f.2).Lawful)
    (lawful' : ∀ f ∈ fields, (q f.2).Lawful)
    (carries : ∀ f ∈ fields, Carries depth same (p f.2) (q f.2)) (policy : UnknownKeys) :
    Carries depth same (Parser.object .strict (fields.map fun f => (f.1, p f.2)))
      (Parser.object policy (fields.map fun f => (f.1, q f.2))) := by
  intro v w run start accepted
  have keeps : ∀ f ∈ fields.map fun f => (f.1, p f.2), f.2.Keeps fun run => run.depth = depth :=
    List.forall_mem_map.2 fun f member => (lawful f member).keeps_depth depth
  obtain ⟨entries, all, rfl, each, rfl, closed⟩ := object_made keeps start accepted
  have names : Entries.names (fields.map fun f => (f.1, q f.2)) =
      Entries.names (fields.map fun f => (f.1, p f.2)) := by
    rw [Entries.names_map, Entries.names_map]
  have none : Entries.without entries (fields.map fun f => (f.1, q f.2)) = [] := by
    rw [Entries.without_congr entries names, closed rfl]
  have made : List.Forall₂
      (fun f a => f.1 = a.1 ∧ f.2.Gives depth same (fieldValue entries f.1) a.2)
      (fields.map fun f => (f.1, q f.2)) all := by
    rw [List.forall₂_map_left_iff] at each ⊢
    refine ((List.forall₂_and_left _ _).2 ⟨fun f member => member, each⟩).imp fun f a parsed => ?_
    exact ⟨parsed.2.1, (carries f parsed.1).of_returns parsed.2.2⟩
  rw [closed rfl]
  have gives : (Parser.object policy (fields.map fun f => (f.1, q f.2))).Gives depth same _ _ :=
    .object (List.forall_mem_map.2 lawful') made fun _ => none
  rw [none] at gives
  cases policy <;> exact gives

theorem union {candidates : List α} {kind : α → SchemaKind}
    (lawful : ∀ a ∈ candidates, (p a).Lawful) (lawful' : ∀ a ∈ candidates, (q a).Lawful)
    (quiet : ∀ a ∈ candidates, (q a).Quiet depth)
    (carries : ∀ a ∈ candidates, Carries depth same (p a) (q a)) (detail : UnionFailures) :
    Carries depth False (Parser.union detail (candidates.map fun a => (kind a, p a)))
      (Parser.union detail (candidates.map fun a => (kind a, q a))) := by
  intro v w run start accepted
  have keeps : ∀ c ∈ candidates.map fun a => (kind a, p a),
      c.2.Keeps fun run => run.depth = depth :=
    List.forall_mem_map.2 fun a member => (lawful a member).keeps_depth depth
  obtain ⟨c, listed, returns⟩ := union_ok keeps (fun _ _ kept => kept) start accepted
  obtain ⟨a, member, rfl⟩ := List.mem_map.1 listed
  exact .union (List.forall_mem_map.2 lawful') (List.forall_mem_map.2 quiet)
    (List.mem_map_of_mem member) ((carries a member).of_returns returns) detail

end Parts

end Carries

def TakesBack (depth : Nat) (same : Prop) (p : Parser) (v : Value) : Prop :=
  ∀ run, run.depth = depth → ∃ y, (p v run).1 = .ok y ∧ (same → y = v)

private def Repeats (depth : Nat) (same : Prop) (p : Parser) : Prop :=
  ∀ ⦃v w run⦄, run.depth = depth → (p v run).1 = .ok w → p.TakesBack depth same w

theorem eq_map_of_forall₂ {α β : Type} {R : α → β → Prop} {f : α → β} {as : List α} {bs : List β}
    (each : List.Forall₂ R as bs) (only : ∀ a ∈ as, ∀ b, R a b → b = f a) : bs = as.map f := by
  induction each with
  | nil => rfl
  | cons head _ ih =>
    have here := only _ List.mem_cons_self _ head
    rw [List.map_cons, ← here, ← ih fun a member => only a (List.mem_cons_of_mem _ member)]

private theorem fields_eq_of_names {α : Type} {fields : List (String × α)}
    {all : List (String × Value)}
    (names : Entries.names all = Entries.names fields) {g : String → Value}
    (values : ∀ a ∈ all, g a.1 = a.2) : (fields.map fun f => (f.1, g f.1)) = all := by
  calc (fields.map fun f => (f.1, g f.1))
      = (Entries.names fields).map fun name => (name, g name) := by
        rw [Entries.names, List.map_map]
        rfl
    _ = all.map fun a => (a.1, g a.1) := by
        rw [← names, Entries.names, List.map_map]
        rfl
    _ = all.map id := List.map_congr_left fun a member => Prod.ext rfl (values a member)
    _ = all := List.map_id all

variable {depth : Nat} {same : Prop}

namespace TakesBack

variable {p : Parser} {v : Value}

private theorem mono {weaker : Prop} (takes : p.TakesBack depth same v) (weakens : weaker → same) :
    p.TakesBack depth weaker v := Gives.mono takes weakens

theorem array (lawful : p.Lawful) {size : Bounds Nat} {items : List Value}
    (within : size.violation? .arrayLength items.length = none)
    (takes : ∀ item ∈ items, p.TakesBack depth same item) :
    (Parser.array size p).TakesBack depth same (.array items) :=
  Gives.array lawful within (List.forall₂_same.2 takes)

theorem tuple {parsers : List Parser} (lawful : ∀ q ∈ parsers, q.Lawful) {items : List Value}
    (arity : items.length = parsers.length)
    (takes : ∀ x ∈ parsers.zip items, x.1.TakesBack depth same x.2) :
    (Parser.tuple parsers).TakesBack depth same (.array items) := by
  refine Gives.tuple lawful arity ?_
  have gives : List.Forall₂ (fun (x : Parser × Value) w => x.1.Gives depth same x.2 w)
      (parsers.zip items) ((parsers.zip items).map Prod.snd) :=
    List.forall₂_map_right_iff.2 (List.forall₂_same.2 takes)
  rwa [List.map_snd_zip (Nat.le_of_eq arity)] at gives

private theorem object {fields : List (String × Parser)} (lawful : ∀ f ∈ fields, f.2.Lawful)
    {policy : UnknownKeys} {entries : Entries Value}
    (takes : ∀ f ∈ fields, f.2.TakesBack depth same (fieldValue entries f.1))
    (closed : policy = .strict → Entries.without entries fields = [])
    (settled : kept entries (fields.map fun f => (f.1, fieldValue entries f.1)) ++
      keptUndeclared policy (Entries.without entries fields) = entries) :
    (Parser.object policy fields).TakesBack depth same (.object entries) := by
  have each : List.Forall₂
      (fun f a => f.1 = a.1 ∧ f.2.Gives depth same (fieldValue entries f.1) a.2) fields
      (fields.map fun f => (f.1, fieldValue entries f.1)) :=
    List.forall₂_map_right_iff.2 (List.forall₂_same.2 fun f member => ⟨rfl, takes f member⟩)
  have gives := Gives.object lawful each closed
  rwa [settled] at gives

theorem union {candidates : List (SchemaKind × Parser)} (lawful : ∀ c ∈ candidates, c.2.Lawful)
    (quiet : ∀ c ∈ candidates, c.2.Quiet depth) {c : SchemaKind × Parser}
    (member : c ∈ candidates) (takes : c.2.TakesBack depth same v) (detail : UnionFailures) :
    (Parser.union detail candidates).TakesBack depth False v :=
  Gives.union lawful quiet member takes detail

end TakesBack

namespace Repeats

private theorem of_returns {p : Parser} (repeats : p.Repeats depth same) {v w : Value}
    (returned : Returns (fun run => run.depth = depth) p v (.ok w)) : p.TakesBack depth same w := by
  obtain ⟨run, start, accepted⟩ := returned
  exact repeats start accepted

private theorem mono {p : Parser} {weaker : Prop} (repeats : p.Repeats depth same)
    (weakens : weaker → same) : p.Repeats depth weaker :=
  fun _ _ _ start accepted => (repeats start accepted).mono weakens

private theorem array {element : Parser} (lawful : element.Lawful)
    (repeats : element.Repeats depth same)
    (size : Bounds Nat) : (Parser.array size element).Repeats depth same := by
  intro v w run start accepted
  obtain ⟨items, values, rfl, rfl, each⟩ := array_ok (lawful.keeps_depth depth) start accepted
  have within := array_within accepted
  rw [each.length_eq] at within
  refine .array lawful within fun value member => ?_
  obtain ⟨item, -, returns⟩ := exists_related_of_mem each.flip member
  exact repeats.of_returns returns

private theorem tuple {parsers : List Parser} (lawful : ∀ p ∈ parsers, p.Lawful)
    (repeats : ∀ p ∈ parsers, p.Repeats depth same) :
        (Parser.tuple parsers).Repeats depth same := by
  intro v w run start accepted
  obtain ⟨items, values, rfl, rfl, arity, each⟩ :=
    tuple_ok (fun p member => (lawful p member).keeps_depth depth) start accepted
  have length : values.length = parsers.length := by
    rw [← each.length_eq, List.length_zip, arity, Nat.min_self]
  refine .tuple lawful length fun x member => ?_
  obtain ⟨item, returns⟩ := exists_item_of_mem_zip arity each member
  exact (repeats x.1 (List.of_mem_zip member).1).of_returns returns

private theorem object {fields : List (String × Parser)} (nodup : (Entries.names fields).Nodup)
    (lawful : ∀ f ∈ fields, f.2.Lawful) (repeats : ∀ f ∈ fields, f.2.Repeats depth same)
    (policy : UnknownKeys) : (Parser.object policy fields).Repeats depth same := by
  intro v w run start accepted
  obtain ⟨entries, all, rfl, each, rfl, closed⟩ :=
    object_made (fun f member => (lawful f member).keeps_depth depth) start accepted
  have names := names_eq_of_forall₂ each
  have inside : ∀ name ∈ Entries.names (kept entries all), name ∈ Entries.names fields :=
    fun name found => names ▸ (names_kept_sublist entries all).subset found
  have outside : ∀ name ∈ Entries.names
      (keptUndeclared policy (Entries.without entries fields)), name ∉ Entries.names fields :=
    fun name => names_keptUndeclared
  have remaining := without_made inside outside
  rw [← names] at nodup outside
  have parsed : ∀ a ∈ all, fieldValue
      (kept entries all ++ keptUndeclared policy (Entries.without entries fields)) a.1 = a.2 :=
    fun a => fieldValue_made nodup outside
  refine .object lawful (fun f member => ?_) (fun strict => ?_) ?_
  · obtain ⟨a, listed, name, returns⟩ := exists_related_of_mem each member
    rw [show f.1 = a.1 from name, parsed a listed]
    exact (repeats f member).of_returns returns
  · rw [remaining, strict]
    rfl
  · rw [fields_eq_of_names names parsed, kept_made nodup outside, remaining]
    cases policy <;> rfl

private theorem union {candidates : List (SchemaKind × Parser)}
    (lawful : ∀ c ∈ candidates, c.2.Lawful) (quiet : ∀ c ∈ candidates, c.2.Quiet depth)
    (repeats : ∀ c ∈ candidates, c.2.Repeats depth same) (detail : UnionFailures) :
    (Parser.union detail candidates).Repeats depth False := by
  intro v w run start accepted
  obtain ⟨c, member, returns⟩ := union_ok
    (fun c member => (lawful c member).keeps_depth depth) (fun _ _ kept => kept) start accepted
  exact .union lawful quiet member ((repeats c member).of_returns returns) detail

end Repeats

end Parser

namespace Schema

variable {o : Options}

theorem takesBack_of_check {s : Schema} {v : Value} {depth : Nat} {same : Prop}
    (filled : v = .undefined → s.modifiers.default? = none)
    (handles : v = .undefined → s.modifiers.passes v = false → s.handlesUndefined = true)
    (room : depth < o.maxDepth)
    (check : s.modifiers.passes v = false → (s.check o).TakesBack (depth + 1) same v) :
    (s.enter o).TakesBack depth same v := by
  intro run start
  rw [enter_eq]
  simp only [Parser.guarded, start, room, if_true, Parser.resolved_apply_eq_settled filled]
  rcases Parser.settled_cases s.modifiers s.handlesUndefined (s.check o) v
    { run with depth := depth + 1 } with ⟨eq, -⟩ | ⟨-, absent, closed, missing⟩ | ⟨eq, closed, -⟩
  · exact ⟨v, by rw [eq], fun _ => rfl⟩
  · rw [handles absent closed] at missing
    cases missing
  · rw [eq]
    exact check closed _ rfl

private theorem enter_repeats {s : Schema} (fixed : s.WithoutProducers) {depth : Nat}
    (room : depth < o.maxDepth) {same : Prop} (check : (s.check o).Repeats (depth + 1) same) :
    (s.enter o).Repeats depth same := by
  intro v w run start made
  by_cases absent : w = .undefined
  · have reached : v = .undefined := by
      by_contra present
      have kind := kind_of_enter_ok present made
      rw [absent] at kind
      exact present (Value.eq_undefined_of_kind kind.symm)
    intro other start'
    rw [absent] at made ⊢
    rw [reached] at made
    exact ⟨.undefined, enter_ok_shallower fixed made (by omega), fun _ => rfl⟩
  · refine takesBack_of_check (fun missing => (absent missing).elim)
      (fun missing => (absent missing).elim) room fun closed => ?_
    obtain ⟨r, inner, deeper, -, ⟨passes, rfl⟩ | ⟨-, checked⟩⟩ := enter_ok_cases o made
    · rw [closed] at passes
      cases passes
    · exact check (by rw [deeper, start]) checked

private theorem enter_takes_back (s : Schema) (wf : s.WellFormed) (fixed : s.WithoutProducers)
    (depth : Nat)
    (room : depth + s.height ≤ o.maxDepth) : (s.enter o).Repeats depth s.WithoutUnions := by
  have lawful : ∀ t : Schema, (t.enter o).Lawful := fun t => t.enter_lawful o
  induction s using Schema.induction generalizing depth with
  | primitive m p =>
    refine enter_repeats fixed (by simp only [height] at room; omega) ?_
    intro v w run _ accepted other _
    have checked : p.check v = .ok w := accepted
    obtain rfl := Primitive.eq_of_check_ok checked
    exact ⟨w, checked, fun _ => rfl⟩
  | array m size element ih =>
    have inner := ih wf.element fixed.element (depth + 1) (by simp only [height] at room; omega)
    refine enter_repeats fixed (by simp only [height] at room; omega) ?_
    rw [check_array]
    exact .array (lawful element) (inner.mono Everywhere.element) size
  | tuple m items ih =>
    have inner : ∀ s ∈ items, (s.enter o).Repeats (depth + 1) (tuple m items).WithoutUnions := by
      intro s member
      have least := height_le_greatestHeight member
      exact (ih s member (wf.item member) (fixed.item member) (depth + 1)
        (by simp only [height] at room; omega)).mono fun all => all.item member
    refine enter_repeats fixed (by simp only [height] at room; omega) ?_
    rw [check_tuple]
    exact .tuple (List.forall_mem_map.2 fun s _ => lawful s) (List.forall_mem_map.2 inner)
  | object m unknownKeys fields ih =>
    have inner : ∀ f ∈ fields,
        (f.2.enter o).Repeats (depth + 1) (object m unknownKeys fields).WithoutUnions := by
      intro f member
      have least := height_le_greatestFieldHeight member
      exact (ih f member (wf.field member) (fixed.field member) (depth + 1)
        (by simp only [height] at room; omega)).mono fun all => all.field member
    have nodup : (Entries.names (fields.map fun f => (f.1, f.2.enter o))).Nodup := by
      rw [Entries.names_map]
      exact wf.self
    refine enter_repeats fixed (by simp only [height] at room; omega) ?_
    rw [check_object]
    exact .object nodup (List.forall_mem_map.2 fun f _ => lawful f.2)
      (List.forall_mem_map.2 inner) _
  | union m candidates ih =>
    have deep : ∀ s ∈ candidates, depth + 1 + s.height ≤ o.maxDepth := by
      intro s member
      have least := height_le_greatestHeight member
      simp only [height] at room
      omega
    have inner : ∀ s ∈ candidates, (s.enter o).Repeats (depth + 1) False := fun s member =>
      (ih s member (wf.candidate member) (fixed.candidate member) (depth + 1)
        (deep s member)).mono False.elim
    refine enter_repeats fixed (by simp only [height] at room; omega) ?_
    rw [check_union]
    refine Parser.Repeats.mono (.union (List.forall_mem_map.2 fun s _ => lawful s)
      (List.forall_mem_map.2 fun s member => s.enter_quiet o (depth + 1) (deep s member))
      (List.forall_mem_map.2 inner) _) fun without => ?_
    exact without.self rfl

/-- A schema whose defaults are all fixed, with enough depth for it, accepts its outputs in every
later session, and without unions it gives them back as they are. -/
theorem parse_output_again (s : Schema) (wf : s.WellFormed) (fixed : s.WithoutProducers)
    (o : Options) (deep : s.height ≤ o.maxDepth) (input : Value) (session later : Session)
    {value : Value} (parsed : (s.parse o input session).1 = .ok value) :
    (∃ again, (s.parse o value later).1 = .ok again) ∧
      (s.WithoutUnions → (s.parse o value later).1 = .ok value) := by
  rw [parse_result] at parsed ⊢
  obtain ⟨again, accepted, same⟩ :=
    s.enter_takes_back wf fixed 0 (by omega) rfl parsed ⟨later, 0⟩ rfl
  refine ⟨⟨again, accepted⟩, fun without => ?_⟩
  rw [accepted, same without]

/-- A dropped entry, a field that comes out of place and filled defaults: the output has its final
form. -/
theorem filled_output_again :
    let s : Schema := objectOf [("mode", .modify .string (.default (.value (.string "auto")))),
      ("flags", .arrayOf (.modify .boolean (.default (.value (.bool true)))))]
    let output : Value :=
      .object [("mode", .string "auto"), ("flags", .array [.bool true, .bool false])]
    (s.parse { unknownKeys? := some .strip }
      (.object [("x", .null), ("flags", .array [.undefined, .bool false])]) {}).1 = .ok output ∧
    (s.parse { unknownKeys? := some .strip } output {}).1 = .ok output := by
  intro s output
  have fixed : s.WithoutProducers := ⟨nofun, nofun, ⟨nofun, nofun⟩, trivial⟩
  have parsed : (s.parse { unknownKeys? := some .strip }
      (.object [("x", .null), ("flags", .array [.undefined, .bool false])]) {}).1 =
    .ok output := rfl
  have again := parse_output_again s (by decide) fixed { unknownKeys? := some .strip } (by decide)
    _ {} {} parsed
  exact ⟨parsed, again.2 (by decide)⟩

/-- The default of the second candidate is an output that the first candidate takes, and strips. -/
example :
    let s : Schema := .unionOf [.object {} .strip [("a", .boolean)],
      .modify (.object {} .passthrough [])
        (.default (.value (.object [("a", .bool true), ("b", .null)])))]
    (s.parse {} .undefined {}).1 = .ok (.object [("a", .bool true), ("b", .null)]) ∧
      (s.parse {} (.object [("a", .bool true), ("b", .null)]) {}).1 =
        .ok (.object [("a", .bool true)]) :=
  ⟨rfl, rfl⟩

end Schema

end ValueSchema
