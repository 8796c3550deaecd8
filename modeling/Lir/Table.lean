/-!
Tables from names to values that remember the order in which names were first entered.

A name occurs once. Entering it again replaces its value and keeps its place. The entry list is
the whole content of a table, so two tables are equal exactly when they list the same entries in
the same order; `Table.agree` compares them without regard to order.
-/

set_option autoImplicit false

namespace Lir

/-- Entries in the order of their first insertion, one for each name. -/
structure Table (α : Type) where
  entries : List (String × α)
  nodup : (entries.map Prod.fst).Nodup
  deriving DecidableEq

namespace Table

variable {α β : Type}

@[ext] theorem ext {s t : Table α} (same : s.entries = t.entries) : s = t := by
  cases s; cases t; cases same; rfl

def empty : Table α := ⟨[], List.nodup_nil⟩

instance : EmptyCollection (Table α) := ⟨empty⟩

instance : Inhabited (Table α) := ⟨empty⟩

def keys (t : Table α) : List String := t.entries.map Prod.fst

def values (t : Table α) : List α := t.entries.map Prod.snd

def size (t : Table α) : Nat := t.entries.length

def isEmpty (t : Table α) : Bool := t.entries.isEmpty

def get? (t : Table α) (name : String) : Option α :=
  (t.entries.find? fun entry => entry.1 = name).map Prod.snd

def contains (t : Table α) (name : String) : Bool := t.entries.any fun entry => entry.1 = name

/-- Replace the value of a name in place, or append the name with a first value. -/
def upsertEntries (name : String) (update : Option α → α) :
    List (String × α) → List (String × α)
  | [] => [(name, update none)]
  | (key, value) :: rest =>
    if key = name then (key, update (some value)) :: rest
    else (key, value) :: upsertEntries name update rest

theorem keys_upsertEntries (name : String) (update : Option α → α)
    (entries : List (String × α)) :
    (upsertEntries name update entries).map Prod.fst =
      if name ∈ entries.map Prod.fst then entries.map Prod.fst
      else entries.map Prod.fst ++ [name] := by
  induction entries with
  | nil => simp [upsertEntries]
  | cons entry rest ih =>
    obtain ⟨key, value⟩ := entry
    by_cases same : key = name
    · simp [upsertEntries, same]
    · have other : ¬ name = key := fun h => same h.symm
      by_cases later : name ∈ rest.map Prod.fst <;>
        simp_all [upsertEntries]

theorem nodup_upsertEntries (name : String) (update : Option α → α)
    {entries : List (String × α)} (nodup : (entries.map Prod.fst).Nodup) :
    ((upsertEntries name update entries).map Prod.fst).Nodup := by
  rw [keys_upsertEntries]
  split
  · exact nodup
  next absent =>
    rw [List.nodup_append]
    refine ⟨nodup, by simp, ?_⟩
    intro key member other isName
    rw [List.mem_singleton.1 isName]
    intro same
    exact absent (same ▸ member)

def upsert (t : Table α) (name : String) (update : Option α → α) : Table α :=
  ⟨upsertEntries name update t.entries, nodup_upsertEntries name update t.nodup⟩

/-- Enter a name, or replace its value where it stands. -/
def insert (t : Table α) (name : String) (value : α) : Table α := t.upsert name fun _ => value

def insertNew (t : Table α) (name : String) (value : α) : Table α :=
  t.upsert name fun old => old.getD value

def modify (t : Table α) (name : String) (change : α → α) : Table α :=
  ⟨t.entries.map fun entry => if entry.1 = name then (entry.1, change entry.2) else entry, by
    have keys : (t.entries.map fun entry =>
        if entry.1 = name then (entry.1, change entry.2) else entry).map Prod.fst =
        t.entries.map Prod.fst := by
      rw [List.map_map]
      apply List.map_congr_left
      intro entry _
      by_cases same : entry.1 = name <;> simp [same]
    rw [keys]
    exact t.nodup⟩

def mapValues (t : Table α) (change : String → α → β) : Table β :=
  ⟨t.entries.map fun entry => (entry.1, change entry.1 entry.2), by
    have keys : (t.entries.map fun entry => (entry.1, change entry.1 entry.2)).map Prod.fst =
        t.entries.map Prod.fst := by
      rw [List.map_map]
      rfl
    rw [keys]
    exact t.nodup⟩

/-- Enter names one after the other; a repeated name keeps its first place and its last value. -/
def insertAll (t : Table α) (entries : List (String × α)) : Table α :=
  entries.foldl (fun table entry => table.insert entry.1 entry.2) t

def ofList (entries : List (String × α)) : Table α := empty.insertAll entries

/-- Equality that ignores order: the same names, and values that agree name by name. -/
def agree (same : α → α → Bool) (s t : Table α) : Bool :=
  s.size == t.size && s.entries.all fun entry =>
    match t.get? entry.1 with
    | some value => same entry.2 value
    | none => false

/-! ### The names and values of a table -/

theorem contains_iff_mem_keys (t : Table α) (name : String) :
    t.contains name = true ↔ name ∈ t.keys := by
  simp [contains, keys]

theorem isSome_get? (t : Table α) (name : String) : (t.get? name).isSome = t.contains name := by
  simp [get?, contains, List.isSome_find?]

theorem length_keys (t : Table α) : t.keys.length = t.size := List.length_map _

theorem get?_eq_some_iff (t : Table α) (name : String) (value : α) :
    t.get? name = some value ↔ (name, value) ∈ t.entries := by
  obtain ⟨entries, nodup⟩ := t
  simp only [get?]
  induction entries with
  | nil => simp
  | cons entry rest ih =>
    obtain ⟨key, first⟩ := entry
    obtain ⟨absent, nodup⟩ := List.nodup_cons.1 nodup
    by_cases here : key = name
    · subst here
      have other : ∀ v, (key, v) ∉ rest := fun v member => absent (List.mem_map.2 ⟨_, member, rfl⟩)
      simp [other, eq_comm]
    · have other : ¬ name = key := fun h => here h.symm
      simpa [here, other] using ih nodup

theorem contains_eq_true_iff (t : Table α) (name : String) :
    t.contains name = true ↔ ∃ value, t.get? name = some value := by
  rw [← isSome_get?, Option.isSome_iff_exists]

theorem mem_keys_iff (t : Table α) (name : String) :
    name ∈ t.keys ↔ ∃ value, t.get? name = some value :=
  (t.contains_iff_mem_keys name).symm.trans (t.contains_eq_true_iff name)

@[simp] theorem get?_empty (name : String) : (∅ : Table α).get? name = none := rfl

@[simp] theorem keys_empty : (∅ : Table α).keys = [] := rfl

theorem find?_upsertEntries (name other : String) (update : Option α → α)
    (entries : List (String × α)) :
    ((upsertEntries name update entries).find? fun entry => entry.1 = other).map Prod.snd =
      if name = other then
        some (update ((entries.find? fun entry => entry.1 = name).map Prod.snd))
      else (entries.find? fun entry => entry.1 = other).map Prod.snd := by
  induction entries with
  | nil => by_cases same : name = other <;> simp [upsertEntries, same]
  | cons entry rest ih =>
    obtain ⟨key, value⟩ := entry
    by_cases here : key = name
    · subst here
      by_cases same : key = other <;> simp [upsertEntries, same]
    · by_cases same : name = other
      · subst same
        simpa [upsertEntries, here] using ih
      · by_cases found : key = other
        · subst found
          simp [upsertEntries, here, same]
        · simpa [upsertEntries, here, same, found] using ih

theorem get?_upsert (t : Table α) (name other : String) (update : Option α → α) :
    (t.upsert name update).get? other =
      if name = other then some (update (t.get? name)) else t.get? other :=
  find?_upsertEntries name other update t.entries

theorem get?_insert (t : Table α) (name other : String) (value : α) :
    (t.insert name value).get? other = if name = other then some value else t.get? other :=
  get?_upsert t name other fun _ => value

theorem get?_insertNew (t : Table α) (name other : String) (value : α) :
    (t.insertNew name value).get? other =
      if name = other then some ((t.get? name).getD value) else t.get? other :=
  get?_upsert t name other fun old => old.getD value

theorem get?_mapValues (t : Table α) (change : String → α → β) (name : String) :
    (t.mapValues change).get? name = (t.get? name).map (change name) := by
  obtain ⟨entries, nodup⟩ := t
  simp only [get?, mapValues]
  clear nodup
  induction entries with
  | nil => rfl
  | cons entry rest ih =>
    by_cases found : entry.1 = name
    · simp [found]
    · simpa [found] using ih

theorem keys_mapValues (t : Table α) (change : String → α → β) :
    (t.mapValues change).keys = t.keys := by
  simp [keys, mapValues]

theorem keys_upsert (t : Table α) (name : String) (update : Option α → α) :
    (t.upsert name update).keys = if name ∈ t.keys then t.keys else t.keys ++ [name] :=
  keys_upsertEntries name update t.entries

theorem mem_keys_upsert (t : Table α) (name other : String) (update : Option α → α) :
    other ∈ (t.upsert name update).keys ↔ other = name ∨ other ∈ t.keys := by
  rw [keys_upsert]
  split
  next present => exact ⟨.inr, fun member => member.elim (fun same => same ▸ present) id⟩
  next => rw [List.mem_append, List.mem_singleton, or_comm]

theorem mem_keys_insert (t : Table α) (name other : String) (value : α) :
    other ∈ (t.insert name value).keys ↔ other = name ∨ other ∈ t.keys :=
  t.mem_keys_upsert name other fun _ => value

theorem mem_keys_insertNew (t : Table α) (name other : String) (value : α) :
    other ∈ (t.insertNew name value).keys ↔ other = name ∨ other ∈ t.keys :=
  t.mem_keys_upsert name other fun old => old.getD value

@[simp] theorem keys_modify (t : Table α) (name : String) (change : α → α) :
    (t.modify name change).keys = t.keys := by
  simp only [keys, modify, List.map_map]
  apply List.map_congr_left
  intro entry _
  by_cases same : entry.1 = name <;> simp [same]

theorem get?_modify (t : Table α) (name other : String) (change : α → α) :
    (t.modify name change).get? other =
      if name = other then (t.get? other).map change else t.get? other := by
  obtain ⟨entries, nodup⟩ := t
  simp only [get?, modify]
  clear nodup
  induction entries with
  | nil => simp
  | cons entry rest ih =>
    obtain ⟨key, value⟩ := entry
    simp only [List.map_cons, List.find?_cons]
    by_cases found : key = other
    · by_cases same : key = name <;> simp_all [eq_comm]
    · by_cases same : key = name <;> simp_all

theorem mem_keys_insertAll (t : Table α) (entries : List (String × α)) (name : String) :
    name ∈ (t.insertAll entries).keys ↔ name ∈ t.keys ∨ name ∈ entries.map Prod.fst := by
  induction entries generalizing t with
  | nil => simp [insertAll]
  | cons entry rest ih =>
    have next := ih (t.insert entry.1 entry.2)
    rw [mem_keys_insert] at next
    rw [insertAll, List.foldl_cons, ← insertAll, next, List.map_cons, List.mem_cons, or_assoc,
      or_left_comm]

/-- A value in a filled table is one that was there or one that was entered. -/
theorem get?_insertAll_cases (t : Table α) (entries : List (String × α)) {name : String} {value : α}
    (found : (t.insertAll entries).get? name = some value) :
    t.get? name = some value ∨ (name, value) ∈ entries := by
  induction entries generalizing t with
  | nil => exact .inl found
  | cons entry rest ih =>
    rcases ih (t.insert entry.1 entry.2) found with before | later
    · rw [get?_insert] at before
      split at before
      next same => exact .inr (List.mem_cons.2 (.inl (by simp [← same, ← Option.some.inj before])))
      next => exact .inl before
    · exact .inr (List.mem_cons_of_mem entry later)

theorem get?_insertAll_of_not_mem {entries : List (String × α)} {name : String}
    (absent : name ∉ entries.map Prod.fst) (t : Table α) :
    (t.insertAll entries).get? name = t.get? name := by
  induction entries generalizing t with
  | nil => rfl
  | cons entry rest ih =>
    rw [List.map_cons, List.mem_cons, not_or] at absent
    refine (ih absent.2 (t.insert entry.1 entry.2)).trans ?_
    rw [get?_insert, if_neg (Ne.symm absent.1)]

theorem get?_insertAll_of_mem {entries : List (String × α)} {name : String}
    (member : name ∈ entries.map Prod.fst) (t : Table α) :
    ∃ value, (name, value) ∈ entries ∧ (t.insertAll entries).get? name = some value := by
  induction entries generalizing t with
  | nil => exact absurd member List.not_mem_nil
  | cons entry rest ih =>
    by_cases later : name ∈ rest.map Prod.fst
    · obtain ⟨value, listed, found⟩ := ih later (t.insert entry.1 entry.2)
      exact ⟨value, List.mem_cons_of_mem entry listed, found⟩
    · -- The first entry is the last of the name.
      obtain rfl := (List.mem_cons.1 member).resolve_right later
      refine ⟨entry.2, List.mem_cons_self, ?_⟩
      refine (get?_insertAll_of_not_mem later (t.insert entry.1 entry.2)).trans ?_
      rw [get?_insert, if_pos rfl]

theorem keys_insert (t : Table α) (name : String) (value : α) :
    (t.insert name value).keys = if name ∈ t.keys then t.keys else t.keys ++ [name] :=
  keys_upsert t name fun _ => value

end Table

end Lir
