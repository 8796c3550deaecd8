import Lir.Table

/-!
The entries of a table under insertion.

A new name goes behind the others, so entering the entries of a table one after the other builds
that table again. What holds of all entries and of a new one holds after the new one is entered.
-/

set_option autoImplicit false

namespace Lir.Table

variable {α : Type}

/-! ### A property of every entry -/

def Each (t : Table α) (P : String → α → Prop) : Prop := ∀ entry ∈ t.entries, P entry.1 entry.2

section

variable {P : String → α → Prop} {t : Table α}

theorem each_empty : (∅ : Table α).Each P := fun _ member => absurd member List.not_mem_nil

theorem Each.get? (each : t.Each P) {name : String} {value : α}
    (found : t.get? name = some value) : P name value :=
  each (name, value) ((t.get?_eq_some_iff name value).1 found)

theorem each_iff_get? : t.Each P ↔ ∀ name value, t.get? name = some value → P name value :=
  ⟨fun each _ _ found => each.get? found,
    fun all entry member => all entry.1 entry.2 ((t.get?_eq_some_iff _ _).2 member)⟩

theorem Each.upsert (each : t.Each P) {name : String} {update : Option α → α}
    (updated : P name (update (t.get? name))) : (t.upsert name update).Each P := by
  refine each_iff_get?.2 fun other value found => ?_
  rw [get?_upsert] at found
  split at found
  next same => exact same ▸ Option.some.inj found ▸ updated
  next => exact each.get? found

theorem Each.insert (each : t.Each P) {name : String} {value : α} (new : P name value) :
    (t.insert name value).Each P :=
  each.upsert new

theorem Each.insertNew (each : t.Each P) {name : String} {value : α} (new : P name value) :
    (t.insertNew name value).Each P := by
  refine each.upsert ?_
  cases found : t.get? name with
  | none => exact new
  | some old => exact each.get? found

theorem Each.insertAll (each : t.Each P) {entries : List (String × α)}
    (all : ∀ entry ∈ entries, P entry.1 entry.2) : (t.insertAll entries).Each P := by
  induction entries generalizing t with
  | nil => exact each
  | cons entry rest ih =>
    obtain ⟨first, later⟩ := List.forall_mem_cons.1 all
    exact ih (each.insert first) later

end

/-! ### Names that are new -/

theorem upsertEntries_of_not_mem {name : String} {entries : List (String × α)}
    (absent : name ∉ entries.map Prod.fst) (update : Option α → α) :
    upsertEntries name update entries = entries ++ [(name, update none)] := by
  induction entries with
  | nil => rfl
  | cons entry rest ih =>
    have other : ¬ entry.1 = name := fun same => absent (List.mem_cons.2 (.inl same.symm))
    rw [upsertEntries, if_neg other, ih fun later => absent (List.mem_cons_of_mem _ later)]
    rfl

theorem entries_insert_of_not_mem {t : Table α} {name : String} (absent : name ∉ t.keys)
    (value : α) : (t.insert name value).entries = t.entries ++ [(name, value)] :=
  upsertEntries_of_not_mem absent _

theorem insertNew_of_not_mem {t : Table α} {name : String} (absent : name ∉ t.keys) (value : α) :
    t.insertNew name value = t.insert name value :=
  Table.ext <| (upsertEntries_of_not_mem absent _).trans
    (entries_insert_of_not_mem absent value).symm

theorem insert_insert (t : Table α) (name : String) (first second : α) :
    (t.insert name first).insert name second = t.insert name second := by
  obtain ⟨entries, nodup⟩ := t
  refine Table.ext ?_
  change upsertEntries name _ (upsertEntries name _ entries) = upsertEntries name _ entries
  clear nodup
  induction entries with
  | nil => simp [upsertEntries]
  | cons entry rest ih =>
    by_cases same : entry.1 = name
    · simp [upsertEntries, same]
    · simp [upsertEntries, same, ih]

/-! ### Entering all entries of a table -/

theorem entries_insertAll {t : Table α} {entries : List (String × α)}
    (nodup : (t.keys ++ entries.map Prod.fst).Nodup) :
    (t.insertAll entries).entries = t.entries ++ entries := by
  induction entries generalizing t with
  | nil => exact (List.append_nil _).symm
  | cons entry rest ih =>
    rw [List.map_cons] at nodup
    have absent : entry.1 ∉ t.keys := fun present =>
      (List.nodup_append.1 nodup).2.2 _ present _ List.mem_cons_self rfl
    have moved : ((t.insert entry.1 entry.2).keys ++ rest.map Prod.fst).Nodup := by
      rw [keys_insert, if_neg absent, List.append_assoc]
      exact nodup
    have later := ih moved
    rw [entries_insert_of_not_mem absent, List.append_assoc] at later
    exact later

theorem ofList_entries (t : Table α) : ofList t.entries = t :=
  Table.ext (entries_insertAll t.nodup)

theorem foldl_insert_entries (t : Table α) :
    t.entries.foldl (fun table entry => table.insert entry.1 entry.2) ∅ = t :=
  t.ofList_entries

theorem foldl_insert_values {t : Table α} {nameOf : α → String}
    (named : t.Each fun name value => nameOf value = name) :
    t.values.foldl (fun table value => table.insert (nameOf value) value) ∅ = t := by
  have same : ∀ (s : Table α) (entries : List (String × α)),
      (∀ entry ∈ entries, nameOf entry.2 = entry.1) →
      (entries.map Prod.snd).foldl (fun table value => table.insert (nameOf value) value) s =
        s.insertAll entries := by
    intro s entries own
    induction entries generalizing s with
    | nil => rfl
    | cons entry rest ih =>
      obtain ⟨first, later⟩ := List.forall_mem_cons.1 own
      rw [List.map_cons, List.foldl_cons, ih _ later, first]
      rfl
  exact (same ∅ t.entries named).trans t.ofList_entries

end Lir.Table
