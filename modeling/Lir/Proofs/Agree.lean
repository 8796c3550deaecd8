import Lir.Table
import Mathlib.Data.List.Nodup
import Mathlib.Data.List.Perm.Subperm

/-!
Tables that hold the same, in whatever order.

`Table.agree` decides this. Two such tables list the same entries up to a permutation, and entering
both into tables that hold the same keeps them so, since the last entry of a name decides.
-/

set_option autoImplicit false

namespace Lir.Table

variable {α β : Type}

def Same (s t : Table α) : Prop := ∀ name, s.get? name = t.get? name

theorem Same.refl (t : Table α) : t.Same t := fun _ => rfl

theorem Same.symm {s t : Table α} (same : s.Same t) : t.Same s := fun name => (same name).symm

theorem Same.mem_entries_iff {s t : Table α} (same : s.Same t) (entry : String × α) :
    entry ∈ s.entries ↔ entry ∈ t.entries := by
  have left := s.get?_eq_some_iff entry.1 entry.2
  rw [same, t.get?_eq_some_iff] at left
  exact left.symm

theorem Same.perm {s t : Table α} (same : s.Same t) : s.entries.Perm t.entries :=
  (List.perm_ext_iff_of_nodup s.nodup.of_map t.nodup.of_map).2 same.mem_entries_iff

theorem Same.keys_perm {s t : Table α} (same : s.Same t) : s.keys.Perm t.keys :=
  same.perm.map Prod.fst

theorem Same.values_perm {s t : Table α} (same : s.Same t) : s.values.Perm t.values :=
  same.perm.map Prod.snd

theorem Same.contains_eq {s t : Table α} (same : s.Same t) (name : String) :
    s.contains name = t.contains name := by
  rw [← isSome_get?, ← isSome_get?, same]

theorem Same.size_eq {s t : Table α} (same : s.Same t) : s.size = t.size := same.perm.length_eq

theorem Same.mapValues {s t : Table α} (same : s.Same t) (change : String → α → β) :
    (s.mapValues change).Same (t.mapValues change) := by
  intro name
  rw [get?_mapValues, get?_mapValues, same]

/-! ### Entering names into tables that hold the same -/

theorem Same.insert {s t : Table α} (same : s.Same t) (name : String) (value : α) :
    (s.insert name value).Same (t.insert name value) := by
  intro other
  rw [get?_insert, get?_insert, same]

theorem Same.insertNew {s t : Table α} (same : s.Same t) (name : String) (value : α) :
    (s.insertNew name value).Same (t.insertNew name value) := by
  intro other
  rw [get?_insertNew, get?_insertNew, same, same]

theorem Same.insertAll {s t : Table α} (same : s.Same t) (entries : List (String × α)) :
    (s.insertAll entries).Same (t.insertAll entries) := by
  induction entries generalizing s t with
  | nil => exact same
  | cons entry rest ih => exact ih (same.insert entry.1 entry.2)

theorem insertAll_append (t : Table α) (first later : List (String × α)) :
    t.insertAll (first ++ later) = (t.insertAll first).insertAll later :=
  List.foldl_append

/-- Of names that are entered once each, every one gets the value that it is entered with. -/
theorem get?_insertAll_of_nodup {entries : List (String × α)}
    (nodup : (entries.map Prod.fst).Nodup) (t : Table α) (name : String) :
    (t.insertAll entries).get? name =
      ((entries.find? fun entry => entry.1 = name).map Prod.snd).or (t.get? name) := by
  induction entries generalizing t with
  | nil => rfl
  | cons entry rest ih =>
    obtain ⟨fresh, distinct⟩ := List.nodup_cons.1 nodup
    refine (ih distinct (t.insert entry.1 entry.2)).trans ?_
    rw [get?_insert]
    by_cases here : entry.1 = name
    · have absent : rest.find? (fun entry => entry.1 = name) = none := by
        rw [List.find?_eq_none]
        intro other member named
        exact fresh (List.mem_map.2 ⟨other, member, (of_decide_eq_true named).trans here.symm⟩)
      simp [here, absent]
    · simp [here]

theorem get?_insertAll_mapValues (t : Table β) (s : Table α) (change : String → α → β)
    (name : String) :
    (t.insertAll (s.mapValues change).entries).get? name =
      ((s.get? name).map (change name)).or (t.get? name) := by
  rw [get?_insertAll_of_nodup (s.mapValues change).nodup, ← get?_mapValues]
  rfl

theorem Same.insertAll_mapValues {s t : Table β} (same : s.Same t) {u v : Table α}
    (entered : u.Same v) (change : String → α → β) :
    (s.insertAll (u.mapValues change).entries).Same (t.insertAll (v.mapValues change).entries) := by
  intro name
  rw [get?_insertAll_mapValues, get?_insertAll_mapValues, same, entered]

/-! ### Deciding whether tables hold the same -/

theorem keys_perm_of_subset {s : Table α} {t : Table β} (within : s.keys ⊆ t.keys)
    (sizes : s.size = t.size) : s.keys.Perm t.keys := by
  apply (List.subperm_of_subset s.nodup within).perm_of_length_le
  change t.keys.length ≤ s.keys.length
  rw [length_keys, length_keys]
  omega

theorem mem_keys_iff_of_rel {r : α → β → Prop} {s : Table α} {t : Table β} {name : String}
    (related : Option.Rel r (s.get? name) (t.get? name)) : name ∈ s.keys ↔ name ∈ t.keys := by
  rw [mem_keys_iff, mem_keys_iff]
  revert related
  cases s.get? name <;> cases t.get? name <;> simp

theorem agree_iff (alike : α → α → Bool) (s t : Table α) :
    s.agree alike t = true ↔
      ∀ name, Option.Rel (fun a b => alike a b = true) (s.get? name) (t.get? name) := by
  unfold agree
  rw [Bool.and_eq_true, beq_iff_eq, List.all_eq_true]
  apply Iff.trans (b := s.size = t.size ∧ ∀ entry ∈ s.entries,
    Option.Rel (fun a b => alike a b = true) (some entry.2) (t.get? entry.1))
  · apply and_congr_right'
    apply forall₂_congr
    intro entry _
    cases t.get? entry.1 <;> simp
  constructor
  · rintro ⟨sizes, all⟩
    have listed : ∀ name value, s.get? name = some value →
        Option.Rel (fun a b => alike a b = true) (s.get? name) (t.get? name) := by
      intro name value found
      rw [found]
      exact all (name, value) ((s.get?_eq_some_iff name value).1 found)
    -- The names of the first table fill the second, so it has no others.
    have filled : s.keys.Perm t.keys := by
      apply keys_perm_of_subset _ sizes
      intro name member
      obtain ⟨value, found⟩ := (s.mem_keys_iff name).1 member
      exact (mem_keys_iff_of_rel (listed name value found)).1 member
    intro name
    cases found : s.get? name with
    | some value => exact found ▸ listed name value found
    | none =>
      cases there : t.get? name with
      | none => exact .none
      | some value =>
        have member := filled.mem_iff.2 ((t.mem_keys_iff name).2 ⟨value, there⟩)
        obtain ⟨old, stands⟩ := (s.mem_keys_iff name).1 member
        simp [found] at stands
  · intro all
    have names : ∀ name, name ∈ s.keys ↔ name ∈ t.keys := fun name => mem_keys_iff_of_rel (all name)
    constructor
    · rw [← length_keys, ← length_keys]
      exact ((List.perm_ext_iff_of_nodup s.nodup t.nodup).2 names).length_eq
    · intro entry member
      have related := all entry.1
      rwa [(s.get?_eq_some_iff entry.1 entry.2).2 member] at related

theorem agree_eq_iff [DecidableEq α] (s t : Table α) :
    s.agree (fun a b => decide (a = b)) t = true ↔ s.Same t := by
  rw [agree_iff]
  apply forall_congr'
  intro name
  cases s.get? name <;> cases t.get? name <;> simp

end Lir.Table
