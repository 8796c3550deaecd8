import Lir.Point
import Lir.Ty
import Std.Data.ExtTreeMap
import Std.Data.ExtTreeSet

/-!
Sorted sets and maps of the analyses: names by code points, types and points in their own orders.
They are equal exactly when they hold the same, so results can be compared as values.
-/

set_option autoImplicit false

namespace Lir

abbrev NameSet := Std.ExtTreeSet String

abbrev NameMap (α : Type) := Std.ExtTreeMap String α

abbrev PointSet := Std.ExtTreeSet Point

abbrev PointMap (α : Type) := Std.ExtTreeMap Point α

abbrev TySet := Std.ExtTreeSet Ty

abbrev TyMap (α : Type) := Std.ExtTreeMap Ty α

def NameSet.ofNames (names : List String) : NameSet := .ofList names

/-! ### What sets and maps hold, by equality of keys -/

section

variable {κ α : Type} [Ord κ] [Std.TransOrd κ]

theorem mem_map_iff (m : Std.ExtTreeMap κ α) (key : κ) :
    key ∈ m ↔ ∃ value, m[key]? = some value := by
  rw [Std.ExtTreeMap.mem_iff_isSome_getElem?, Option.isSome_iff_exists]

variable [Std.LawfulEqOrd κ]

theorem mem_insert_set (s : Std.ExtTreeSet κ) (added member : κ) :
    member ∈ s.insert added ↔ member = added ∨ member ∈ s := by
  rw [Std.ExtTreeSet.mem_insert, Std.compare_eq_iff_eq, eq_comm]

theorem mem_singleton_set (only member : κ) :
    member ∈ ({only} : Std.ExtTreeSet κ) ↔ member = only := by
  change member ∈ (∅ : Std.ExtTreeSet κ).insert only ↔ member = only
  rw [mem_insert_set]
  exact or_iff_left Std.ExtTreeSet.not_mem_empty

theorem mem_ofList_set (members : List κ) (member : κ) :
    member ∈ Std.ExtTreeSet.ofList members ↔ member ∈ members := by
  let _ : DecidableEq κ := Classical.typeDecidableEq κ
  rw [Std.ExtTreeSet.mem_ofList, List.contains_iff_mem]

theorem size_lt_size {smaller larger : Std.ExtTreeSet κ} {extra : κ}
    (subset : ∀ member ∈ smaller, member ∈ larger) (held : extra ∈ larger)
    (lacking : extra ∉ smaller) : smaller.size < larger.size := by
  have covered : smaller.insert extra ∪ larger = larger := by
    apply Std.ExtTreeSet.ext_mem
    intro member
    rw [Std.ExtTreeSet.mem_union_iff, mem_insert_set]
    exact or_iff_right_of_imp fun inside => inside.elim (fun same => same ▸ held) (subset member)
  have grown : (smaller.insert extra).size ≤ (smaller.insert extra ∪ larger).size :=
    Std.ExtTreeSet.size_left_le_size_union
  rw [covered, Std.ExtTreeSet.size_insert, if_neg (mt Std.ExtTreeSet.contains_iff_mem.1 lacking)]
    at grown
  exact grown

theorem nodup_keys_toList (m : Std.ExtTreeMap κ α) : (m.toList.map Prod.fst).Nodup := by
  rw [List.nodup_iff_pairwise_ne, List.pairwise_map]
  exact Std.ExtTreeMap.distinct_keys_toList.imp fun different same =>
    different (Std.compare_eq_iff_eq.2 same)

theorem getElem?_insert_map (m : Std.ExtTreeMap κ α) (key other : κ) (value : α) [DecidableEq κ] :
    (m.insert key value)[other]? = if key = other then some value else m[other]? := by
  simp [Std.ExtTreeMap.getElem?_insert]

end

/-- A loop over names that changes the entry of each changes those of the listed names, once if
changing an entry again makes no difference. -/
theorem getElem?_foldl_entry {α : Type} {step : NameMap α → String → NameMap α}
    {change : String → Option α → Option α}
    (idempotent : ∀ name entry, change name (change name entry) = change name entry)
    (step_eq : ∀ (m : NameMap α) (name other : String),
      (step m name)[other]? = if name = other then change name m[other]? else m[other]?)
    (names : List String) (m : NameMap α) (name : String) :
    (names.foldl step m)[name]? = if name ∈ names then change name m[name]? else m[name]? := by
  induction names generalizing m with
  | nil => simp
  | cons first rest ih =>
    rw [List.foldl_cons, ih, step_eq]
    by_cases here : first = name
    · subst here
      simp [idempotent]
    · simp [here, Ne.symm here]

theorem getElem?_foldl_change {α : Type} {step : NameMap α → String → NameMap α} {change : α → α}
    (idempotent : ∀ value, change (change value) = change value)
    (step_eq : ∀ (m : NameMap α) (name other : String),
      (step m name)[other]? = if name = other then m[other]?.map change else m[other]?)
    (names : List String) (m : NameMap α) (name : String) :
    (names.foldl step m)[name]? = if name ∈ names then m[name]?.map change else m[name]? := by
  have twice : ∀ (_ : String) (entry : Option α),
      (entry.map change).map change = entry.map change := fun _ entry => by
    cases entry <;> simp [idempotent]
  exact @getElem?_foldl_entry α step (fun _ entry => entry.map change) twice step_eq names m name

@[simp] theorem NameSet.mem_ofNames (names : List String) (name : String) :
    name ∈ NameSet.ofNames names ↔ name ∈ names :=
  mem_ofList_set names name

end Lir
