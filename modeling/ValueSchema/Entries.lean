/-!
Named entries. A name that is put again keeps its place and takes the new content.
-/

set_option autoImplicit false
set_option relaxedAutoImplicit false

namespace ValueSchema

abbrev Entries (α : Type) := List (String × α)

namespace Entries

variable {α β : Type}

def names (entries : Entries α) : List String := entries.map Prod.fst

/-- The content of the first entry of a name. -/
def find? (entries : Entries α) (name : String) : Option α := List.lookup name entries

def has (entries : Entries α) (name : String) : Bool := (find? entries name).isSome

/-- Replaces the content of a name in its place, or appends a new entry. -/
def put : Entries α → String → α → Entries α
  | [], name, content => [(name, content)]
  | (other, old) :: rest, name, content =>
    if other = name then (other, content) :: rest else (other, old) :: put rest name content

def putAll (entries extra : Entries α) : Entries α :=
  extra.foldl (fun all entry => put all entry.1 entry.2) entries

def ofList (entries : List (String × α)) : Entries α := putAll [] entries

/-- The entries whose names the other list does not have. -/
def without (entries : Entries α) (other : Entries β) : Entries α :=
  entries.filter fun entry => !has other entry.1

theorem has_iff (entries : Entries α) (name : String) :
    has entries name = true ↔ name ∈ names entries := by
  simp [has, find?, names]

theorem find?_eq_none {entries : Entries α} {name : String} (fresh : name ∉ names entries) :
    find? entries name = none := by
  rw [← has_iff, has] at fresh
  simpa using fresh

theorem find?_of_mem {entries : Entries α} (nodup : (names entries).Nodup) {name : String}
    {content : α} (member : (name, content) ∈ entries) : find? entries name = some content := by
  induction entries with
  | nil => cases member
  | cons other rest ih =>
    obtain ⟨fresh, nodup⟩ := List.nodup_cons.1 nodup
    rcases List.mem_cons.1 member with rfl | later
    · exact List.lookup_cons_self
    · have differs : (name == other.1) = false :=
        beq_eq_false_iff_ne.2 fun same => fresh (same ▸ List.mem_map_of_mem later)
      rw [find?, List.lookup_cons, differs]
      exact ih nodup later

private theorem find?_cons (first : String) (content : α) (rest : Entries α) (name : String) :
    find? ((first, content) :: rest) name =
      if name = first then some content else find? rest name := by
  rw [find?, List.lookup_cons]
  by_cases same : name = first
  · simp [same]
  · rw [beq_eq_false_iff_ne.2 same, if_neg same]
    rfl

theorem find?_filter {entries : Entries α} (nodup : (names entries).Nodup) (stays : α → Bool)
    (name : String) :
    find? (entries.filter fun entry => stays entry.2) name = (find? entries name).filter stays := by
  induction entries with
  | nil => rfl
  | cons entry rest ih =>
    obtain ⟨first, content⟩ := entry
    obtain ⟨fresh, distinct⟩ := List.nodup_cons.1 nodup
    have rest_eq := ih distinct
    rw [List.filter_cons, find?_cons]
    by_cases same : name = first
    · subst same
      have gone : find? rest name = none := find?_eq_none fresh
      cases kept : stays content with
      | true => simp [find?_cons, Option.filter, kept]
      | false => simp [rest_eq, gone, Option.filter, kept]
    · cases kept : stays content with
      | true => simp [find?_cons, same, rest_eq]
      | false => simp [same, rest_eq]

theorem find?_perm {entries entries' : Entries α} (perm : entries.Perm entries')
    (nodup : (names entries).Nodup) (name : String) : find? entries name = find? entries' name := by
  have nodup' : (names entries').Nodup := (perm.map Prod.fst).nodup_iff.1 nodup
  by_cases listed : name ∈ names entries
  · obtain ⟨entry, member, rfl⟩ := List.mem_map.1 listed
    rw [find?_of_mem nodup member, find?_of_mem nodup' (perm.mem_iff.1 member)]
  · have unlisted : name ∉ names entries' := fun found =>
      listed ((perm.map Prod.fst).mem_iff.2 found)
    rw [find?_eq_none listed, find?_eq_none unlisted]

theorem find?_append (entries extra : Entries α) (name : String) :
    find? (entries ++ extra) name = (find? entries name).or (find? extra name) :=
  List.lookup_append

theorem names_map (entries : Entries α) (g : String × α → β) :
    names (entries.map fun entry => (entry.1, g entry)) = names entries := by
  rw [names, List.map_map]
  rfl

theorem without_eq_filter (entries : Entries α) (other : Entries β) :
    without entries other = entries.filter fun entry => decide (entry.1 ∉ names other) :=
  List.filter_congr fun entry _ => by simp [← has_iff]

theorem names_without (entries : Entries α) (other : Entries β) :
    names (without entries other) =
      (names entries).filter fun name => decide (name ∉ names other) := by
  change (without entries other).map Prod.fst = (entries.map Prod.fst).filter _
  rw [List.filter_map, without_eq_filter]
  rfl

theorem without_congr {γ : Type} (entries : Entries α) {other : Entries β} {other' : Entries γ}
    (same : names other = names other') : without entries other = without entries other' := by
  refine List.filter_congr fun entry _ => ?_
  rw [Bool.eq_iff_iff, Bool.not_eq_true', Bool.not_eq_true', ← Bool.not_eq_true, ← Bool.not_eq_true,
    has_iff, has_iff, same]

theorem find?_without (entries : Entries α) (other : Entries β) {name : String}
    (missing : name ∉ names other) : find? (without entries other) name = find? entries name := by
  induction entries with
  | nil => rfl
  | cons entry rest ih =>
    obtain ⟨first, content⟩ := entry
    have stays : has other first = true ↔ first ∈ names other := has_iff other first
    simp only [find?, List.lookup_cons] at ih ⊢
    rw [without, List.filter_cons]
    by_cases same : name = first
    · subst same
      have absent : has other name = false := by simpa using fun found => missing (stays.1 found)
      simp [absent]
    · have differs : (name == first) = false := beq_eq_false_iff_ne.2 same
      rw [differs]
      split
      · rw [List.lookup_cons, differs]
        exact ih
      · exact ih

theorem without_isEmpty (entries : Entries α) (other : Entries β) :
    (without entries other).isEmpty = true ↔ ∀ name ∈ names entries, name ∈ names other := by
  simp [without, has_iff, names]

private theorem mem_names_put (entries : Entries α) (name : String) (content : α) (other : String) :
    other ∈ names (put entries name content) ↔ other ∈ names entries ∨ other = name := by
  induction entries with
  | nil => simp [put, names]
  | cons entry rest ih =>
    by_cases h : entry.1 = name
    · simp only [put, h, if_true, names, List.map_cons, List.mem_cons]
      constructor
      · exact fun m => m.elim (fun e => .inr e) (fun m => .inl (.inr m))
      · exact fun m => m.elim id .inl
    · simp only [names] at ih
      simp only [put, h, if_false, names, List.map_cons, List.mem_cons, ih, or_assoc]

private theorem names_put (entries : Entries α) (name : String) (content : α) :
    names (put entries name content) =
      if name ∈ names entries then names entries else names entries ++ [name] := by
  induction entries with
  | nil => rfl
  | cons entry rest ih =>
    obtain ⟨first, old⟩ := entry
    by_cases here : first = name
    · subst here
      simp [put, names]
    · have listed : name ∈ names ((first, old) :: rest) ↔ name ∈ names rest :=
        List.mem_cons.trans (or_iff_right fun same => here same.symm)
      rw [put, if_neg here]
      change first :: names (put rest name content) = _
      rw [ih]
      by_cases later : name ∈ names rest
      · rw [if_pos later, if_pos (listed.2 later)]
        rfl
      · rw [if_neg later, if_neg fun found => later (listed.1 found)]
        rfl

private theorem names_put_nodup {entries : Entries α} (h : (names entries).Nodup) (name : String)
    (content : α) : (names (put entries name content)).Nodup := by
  induction entries with
  | nil => simp [put, names]
  | cons entry rest ih =>
    obtain ⟨fresh, nodup⟩ := List.nodup_cons.1 h
    by_cases same : entry.1 = name
    · subst same
      simpa [put, names] using h
    · simp only [put, same, if_false, names, List.map_cons, List.nodup_cons]
      refine ⟨fun m => ?_, ih nodup⟩
      rcases (mem_names_put rest name content entry.1).1 m with m | e
      · exact fresh m
      · exact same e

theorem names_putAll_nodup {entries : Entries α} (h : (names entries).Nodup)
    (extra : Entries α) : (names (putAll entries extra)).Nodup := by
  induction extra generalizing entries with
  | nil => exact h
  | cons entry rest ih => exact ih (names_put_nodup h entry.1 entry.2)

private theorem names_putAll_eq (entries extra : Entries α) :
    names (putAll entries extra) = names entries ++
      ((names extra).filter fun name => decide (name ∉ names entries)).eraseDups := by
  induction extra generalizing entries with
  | nil => exact (List.append_nil _).symm
  | cons entry rest ih =>
    obtain ⟨first, content⟩ := entry
    have later : names (putAll entries ((first, content) :: rest)) = _ :=
      ih (put entries first content)
    rw [later, names_put]
    change _ = _ ++ ((first :: names rest).filter _).eraseDups
    by_cases listed : first ∈ names entries
    · rw [if_pos listed, List.filter_cons_of_neg (by simpa using listed)]
    · rw [if_neg listed, List.filter_cons_of_pos (by simpa using listed), List.eraseDups_cons,
        List.filter_filter, List.append_assoc]
      refine congrArg (fun names => _ ++ first :: List.eraseDups names) ?_
      refine List.filter_congr fun name _ => ?_
      rw [Bool.eq_iff_iff]
      simp [and_comm]

private theorem eraseDups_eq_self {names : List String} (distinct : names.Nodup) :
    names.eraseDups = names := by
  induction names with
  | nil => rfl
  | cons first rest ih =>
    obtain ⟨fresh, distinct⟩ := List.nodup_cons.1 distinct
    have others : rest.filter (fun name => !name == first) = rest :=
      List.filter_eq_self.2 fun name member => by
        simpa using fun same : name = first => fresh (same ▸ member)
    rw [List.eraseDups_cons, others, ih distinct]

theorem names_putAll (entries : Entries α) {extra : Entries α} (distinct : (names extra).Nodup) :
    names (putAll entries extra) =
      names entries ++ (names extra).filter fun name => decide (name ∉ names entries) := by
  rw [names_putAll_eq, eraseDups_eq_self (distinct.sublist List.filter_sublist)]

private theorem put_perm {entries : Entries α} (nodup : (names entries).Nodup) (name : String)
    (content : α) : (put entries name content).Perm
      ((name, content) :: entries.filter fun entry => decide (entry.1 ≠ name)) := by
  induction entries with
  | nil => exact List.Perm.refl _
  | cons entry rest ih =>
    obtain ⟨first, old⟩ := entry
    obtain ⟨fresh, nodup⟩ := List.nodup_cons.1 nodup
    by_cases here : first = name
    · subst here
      have others : rest.filter (fun entry => decide (entry.1 ≠ first)) = rest :=
        List.filter_eq_self.2 fun entry member =>
          have listed : entry.1 ∈ names rest := List.mem_map_of_mem member
          decide_eq_true fun same => fresh (same ▸ listed)
      rw [put, if_pos rfl, List.filter_cons_of_neg (by simp), others]
    · rw [put, if_neg here, List.filter_cons_of_pos (by simpa using here)]
      exact ((ih nodup).cons _).trans (List.Perm.swap _ _ _)

theorem putAll_perm {entries extra : Entries α} (nodup : (names entries).Nodup)
    (distinct : (names extra).Nodup) :
    (putAll entries extra).Perm (without entries extra ++ extra) := by
  induction extra generalizing entries with
  | nil =>
    have all : without entries ([] : Entries α) = entries := List.filter_eq_self.2 fun _ _ => rfl
    rw [all, List.append_nil]
    exact List.Perm.refl _
  | cons entry rest ih =>
    obtain ⟨first, content⟩ := entry
    obtain ⟨fresh, distinct⟩ := List.nodup_cons.1 distinct
    have later := ih (names_put_nodup nodup first content) distinct
    have stays : (!has rest first) = true := by
      rw [Bool.not_eq_true', ← Bool.not_eq_true, has_iff]
      exact fresh
    have replaced : (without (put entries first content) rest).Perm
        ((first, content) :: without entries ((first, content) :: rest)) := by
      have one := (put_perm nodup first content).filter fun entry => !has rest entry.1
      rw [List.filter_cons_of_pos (by exact stays), List.filter_filter] at one
      refine one.trans (List.Perm.of_eq (congrArg _ (List.filter_congr fun entry _ => ?_)))
      by_cases same : entry.1 = first
      · simp [has, find?_cons, same]
      · simp [has, find?_cons, same]
    exact later.trans ((replaced.append_right rest).trans List.perm_middle.symm)

private theorem mem_put {entries : Entries α} {name : String} {content : α} {entry : String × α}
    (member : entry ∈ put entries name content) : entry ∈ entries ∨ entry = (name, content) := by
  induction entries with
  | nil => exact .inr (List.mem_singleton.1 member)
  | cons other rest ih =>
    by_cases same : other.1 = name
    · simp only [put, same, if_true, List.mem_cons] at member
      exact member.elim .inr fun later => .inl (List.mem_cons_of_mem other later)
    · simp only [put, same, if_false, List.mem_cons] at member
      rcases member with rfl | later
      · exact .inl List.mem_cons_self
      · exact (ih later).imp (List.mem_cons_of_mem other) id

theorem mem_putAll {entries extra : Entries α} {entry : String × α}
    (member : entry ∈ putAll entries extra) : entry ∈ entries ∨ entry ∈ extra := by
  induction extra generalizing entries with
  | nil => exact .inl member
  | cons other rest ih =>
    rcases ih member with inside | later
    · rcases mem_put inside with before | rfl
      · exact .inl before
      · exact .inr List.mem_cons_self
    · exact .inr (List.mem_cons_of_mem other later)

private theorem find?_put (entries : Entries α) (name : String) (content : α) (other : String) :
    find? (put entries name content) other =
      if other = name then some content else find? entries other := by
  induction entries with
  | nil => exact find?_cons name content [] other
  | cons entry rest ih =>
    obtain ⟨first, old⟩ := entry
    by_cases here : first = name
    · subst here
      rw [put, if_pos rfl, find?_cons, find?_cons]
      split <;> rfl
    · rw [put, if_neg here, find?_cons, find?_cons, ih]
      by_cases same : other = first
      · subst same
        rw [if_pos rfl, if_neg here, if_pos rfl]
      · rw [if_neg same, if_neg same]

private theorem find?_putAll_eq (entries extra : Entries α) (name : String) :
    find? (putAll entries extra) name = (find? extra.reverse name).or (find? entries name) := by
  induction extra generalizing entries with
  | nil => rfl
  | cons entry rest ih =>
    obtain ⟨first, content⟩ := entry
    have later : find? (putAll entries ((first, content) :: rest)) name = _ :=
      ih (put entries first content)
    have last : find? [(first, content)] name = if name = first then some content else none :=
      find?_cons first content [] name
    rw [later, find?_put, List.reverse_cons, find?_append, last, Option.or_assoc]
    split <;> rfl

theorem find?_putAll {extra : Entries α} (nodup : (names extra).Nodup) (entries : Entries α)
    (name : String) :
    find? (putAll entries extra) name = (find? extra name).or (find? entries name) := by
  rw [find?_putAll_eq, find?_perm extra.reverse_perm.symm nodup]

section Putting

variable {entries extra : Entries α} {name other : String}

private theorem put_put (entries : Entries α) (name : String) (old content : α) :
    put (put entries name old) name content = put entries name content := by
  induction entries with
  | nil => simp [put]
  | cons entry rest ih =>
    obtain ⟨first, before⟩ := entry
    by_cases here : first = name
    · simp [put, here]
    · simp [put, here, ih]

private theorem put_comm (listed : name ∈ names entries) (differs : other ≠ name)
    (content value : α) :
    put (put entries other value) name content = put (put entries name content) other value := by
  induction entries with
  | nil => cases listed
  | cons entry rest ih =>
    obtain ⟨first, before⟩ := entry
    by_cases here : first = name
    · simp [put, here, Ne.symm differs]
    · have later : name ∈ names rest :=
        (List.mem_cons.1 listed).resolve_left fun same => here same.symm
      by_cases there : first = other
      · simp [put, there, differs]
      · simp [put, here, there, ih later]

private theorem put_putAll (listed : name ∈ names entries) (fresh : name ∉ names extra)
    (content : α) :
    put (putAll entries extra) name content = putAll (put entries name content) extra := by
  induction extra generalizing entries with
  | nil => rfl
  | cons entry rest ih =>
    have differs : entry.1 ≠ name := fun same => fresh (List.mem_cons.2 (.inl same.symm))
    have listed' : name ∈ names (put entries entry.1 entry.2) :=
      (mem_names_put _ _ _ _).2 (.inl listed)
    have later := ih listed' fun found => fresh (List.mem_cons_of_mem _ found)
    rw [put_comm listed differs] at later
    exact later

private theorem putAll_put (distinct : (names extra).Nodup) (entries : Entries α) (name : String)
    (content : α) :
    putAll entries (put extra name content) = put (putAll entries extra) name content := by
  induction extra generalizing entries with
  | nil => rfl
  | cons entry rest ih =>
    obtain ⟨first, before⟩ := entry
    obtain ⟨fresh, distinct⟩ := List.nodup_cons.1 distinct
    by_cases here : first = name
    · subst here
      have listed : first ∈ names (put entries first before) :=
        (mem_names_put _ _ _ _).2 (.inr rfl)
      have last := put_putAll listed fresh content
      rw [put_put] at last
      rw [put, if_pos rfl]
      exact last.symm
    · rw [put, if_neg here]
      exact ih distinct (put entries first before)

theorem putAll_putAll (distinct : (names extra).Nodup) (entries more : Entries α) :
    putAll entries (putAll extra more) = putAll (putAll entries extra) more := by
  induction more generalizing extra with
  | nil => rfl
  | cons entry rest ih =>
    have later := ih (names_put_nodup distinct entry.1 entry.2)
    rw [putAll_put distinct] at later
    exact later

end Putting

private theorem without_put (entries : Entries α) {other : Entries β} {name : String}
    (declared : name ∈ names other) (content : α) :
    without (put entries name content) other = without entries other := by
  have gone : has other name = true := (has_iff other name).2 declared
  induction entries with
  | nil => simp [put, without, gone]
  | cons entry rest ih =>
    obtain ⟨first, old⟩ := entry
    simp only [without] at ih ⊢
    by_cases here : first = name
    · subst here
      simp [put, gone]
    · simp only [put, here, if_false, List.filter_cons, ih]

theorem without_putAll (entries : Entries α) {other : Entries β} {extra : Entries α}
    (declared : ∀ name ∈ names extra, name ∈ names other) :
    without (putAll entries extra) other = without entries other := by
  induction extra generalizing entries with
  | nil => rfl
  | cons entry rest ih =>
    obtain ⟨first, later⟩ := List.forall_mem_cons.1 declared
    exact (ih _ later).trans (without_put entries first entry.2)

theorem names_ofList (entries : List (String × α)) :
    names (ofList entries) = (names entries).eraseDups := by
  have all : (names entries).filter (fun name => decide (name ∉ names ([] : Entries α))) =
      names entries := List.filter_eq_self.2 fun _ _ => decide_eq_true List.not_mem_nil
  rw [ofList, names_putAll_eq, all]
  rfl

private theorem put_of_not_mem {entries : Entries α} {name : String} (fresh : name ∉ names entries)
    (content : α) : put entries name content = entries ++ [(name, content)] := by
  induction entries with
  | nil => rfl
  | cons entry rest ih =>
    obtain ⟨first, old⟩ := entry
    obtain ⟨differs, later⟩ := not_or.1 fun found => fresh (List.mem_cons.2 found)
    rw [put, if_neg fun same => differs same.symm, ih later]
    rfl

private theorem putAll_of_nodup {entries extra : Entries α}
    (distinct : (names (entries ++ extra)).Nodup) :
    putAll entries extra = entries ++ extra := by
  induction extra generalizing entries with
  | nil => exact (List.append_nil entries).symm
  | cons entry rest ih =>
    have fresh : entry.1 ∉ names entries := by
      rw [names, List.map_append] at distinct
      exact fun found => (List.nodup_append.1 distinct).2.2 _ found _ List.mem_cons_self rfl
    have moved : entries ++ entry :: rest = (entries ++ [entry]) ++ rest := by simp
    rw [moved] at distinct ⊢
    rw [← ih distinct, ← put_of_not_mem fresh entry.2]
    rfl

theorem ofList_of_nodup {entries : List (String × α)} (distinct : (names entries).Nodup) :
    ofList entries = entries :=
  putAll_of_nodup (show (names ([] ++ entries)).Nodup from distinct)

theorem find?_ofList (entries : List (String × α)) (name : String) :
    find? (ofList entries) name = find? entries.reverse name := by
  rw [ofList, find?_putAll_eq]
  exact Option.or_none

theorem names_ofList_nodup (entries : List (String × α)) : (names (ofList entries)).Nodup :=
  names_putAll_nodup (show (names ([] : Entries α)).Nodup from List.nodup_nil) entries

end Entries

end ValueSchema
