import Lir.Memory.Closure
import Lir.Proofs.Collecting
import Lir.Proofs.Counting
import Mathlib.Data.List.Nodup

/-!
The closure of a type is what chains of pointees and fields lead to.

A chain passes through no function type and no pointer that ends in one. Following a pointer takes
one layer off a type, and the fields of a record are followed once, so the search ends even where
records contain each other.
-/

set_option autoImplicit false

namespace Lir

namespace Ty

/-- A chain of pointees and fields leads from the root to the type. -/
inductive Leads (records : Table RecordDef) (root : Ty) : Ty → Prop where
  | root : root.endsInFunction = false → Leads records root root
  | part {ty part : Ty} : Leads records root ty → part ∈ ty.parts records →
      part.endsInFunction = false → Leads records root part

section

variable {records : Table RecordDef}

theorem Leads.data {root ty : Ty} (leads : Leads records root ty) : ty.endsInFunction = false := by
  cases leads with
  | root data => exact data
  | part _ _ data => exact data

theorem Leads.root_data {root ty : Ty} (leads : Leads records root ty) :
    root.endsInFunction = false := by
  induction leads with
  | root data => exact data
  | part _ _ _ ih => exact ih

theorem Leads.trans {root middle ty : Ty} (first : Leads records root middle)
    (second : Leads records middle ty) : Leads records root ty := by
  induction second with
  | root _ => exact first
  | part _ inside data ih => exact ih.part inside data

theorem Leads.pointee {root pointee : Ty} (leads : Leads records root (.pointer pointee)) :
    Leads records root pointee :=
  leads.part (by rw [parts]; exact List.mem_singleton.2 rfl) leads.data

end

/-! ### The search ends -/

def looks (types : List Ty) : Nat := (types.map fun ty => ty.layers + 1).sum

/-- Steps that the waiting types take, and the fields of records not collected so far. -/
def stepsLeft (records : Table RecordDef) (waiting : List Ty) (seen : TySet) : Nat :=
  looks waiting + ((records.keys.map record).map fun ty =>
    if ty ∈ seen then 0 else looks (ty.parts records)).sum

theorem looks_append (types others : List Ty) :
    looks (types ++ others) = looks types + looks others := by
  simp [looks]

/-- Collecting more types leaves no more fields to look at. -/
theorem sum_unseen_insert_le (records : Table RecordDef) (types : List Ty) (seen : TySet)
    (ty : Ty) :
    (types.map fun other => if other ∈ seen.insert ty then 0 else looks (other.parts records)).sum ≤
      (types.map fun other => if other ∈ seen then 0 else looks (other.parts records)).sum := by
  apply List.sum_le_sum
  intro other _
  by_cases before : other ∈ seen
  · simp [before]
  · simp only [before, if_false]
    split <;> omega

theorem nodup_records (records : Table RecordDef) : (records.keys.map record).Nodup :=
  List.Nodup.map (fun _ _ same => record.inj same) records.nodup

/-- Looking at a new type takes a step. -/
theorem stepsLeft_insert {records : Table RecordDef} {ty : Ty} {waiting : List Ty} {seen : TySet}
    (new : ty ∉ seen) (data : ty.endsInFunction = false) :
    stepsLeft records (ty.parts records ++ waiting) (seen.insert ty) + 1 ≤
      stepsLeft records (ty :: waiting) seen := by
  have others := sum_unseen_insert_le records (records.keys.map record) seen ty
  have first : looks (ty :: waiting) = ty.layers + 1 + looks waiting := by simp [looks]
  simp only [stepsLeft, looks_append, first]
  cases ty with
  | int => simp only [parts, looks, List.map_nil, List.sum_nil, layers] at others ⊢; omega
  | function _ _ => simp [Ty.endsInFunction] at data
  | pointer pointee =>
    have inner : looks (parts records (.pointer pointee)) = pointee.layers + 1 := by
      simp [parts, looks]
    rw [inner, layers]
    omega
  | record name =>
    by_cases defined : name ∈ records.keys
    · have entered := sum_unseen_insert (fun ty => looks (ty.parts records))
        (nodup_records records) (List.mem_map_of_mem defined) new
      simp only [layers]
      omega
    · have none_inside : parts records (.record name) = [] := by
        cases found : records.get? name with
        | none => simp [parts, found]
        | some definition =>
          exact absurd ((records.mem_keys_iff name).2 ⟨definition, found⟩) defined
      rw [none_inside]
      simp only [looks, List.map_nil, List.sum_nil, layers] at others ⊢
      omega

theorem closeSteps_ends {records : Table RecordDef} {root : Ty} {steps : Nat} {waiting : List Ty}
    {seen : TySet}
    (collecting : Collecting (parts records) (·.endsInFunction = false) (Leads records root) root
      waiting seen)
    (enough : stepsLeft records waiting seen ≤ steps) :
    Collecting (parts records) (·.endsInFunction = false) (Leads records root) root []
      (closeSteps records steps waiting seen) := by
  induction steps generalizing waiting seen with
  | zero =>
    cases waiting with
    | nil => exact collecting
    | cons ty waiting =>
      simp only [stepsLeft, looks, List.map_cons, List.sum_cons] at enough
      omega
  | succ steps ih =>
    cases waiting with
    | nil => exact collecting
    | cons ty waiting =>
      rw [closeSteps]
      split
      next dropped =>
        have known : ty.endsInFunction = false → ty ∈ seen := fun data => by
          simpa [data] using dropped
        refine ih (collecting.drop known) ?_
        simp only [stepsLeft, looks, List.map_cons, List.sum_cons] at enough ⊢
        omega
      next kept =>
        obtain ⟨data, new⟩ : ty.endsInFunction = false ∧ ty ∉ seen := by simpa using kept
        have less : stepsLeft records (ty.parts records ++ waiting) (seen.insert ty) + 1 ≤
            stepsLeft records (ty :: waiting) seen := stepsLeft_insert new data
        have entered := collecting.enter data
          (fun _ inside part_data leads => leads.part inside part_data) fun _ => List.mem_append
        exact ih entered (by omega)

theorem closureBound_eq (records : Table RecordDef) (root : Ty) :
    closureBound records root = stepsLeft records [root] ∅ := by
  have folded : ∀ (types : List Ty) (first : Nat),
      types.foldr (fun ty total => ty.layers + 1 + total) first = looks types + first := by
    intro types first
    induction types with
    | nil => simp [looks]
    | cons ty rest ih => simp only [List.foldr_cons, ih, looks, List.map_cons, List.sum_cons]; omega
  have fields : looks (records.values.flatMap fun r => r.fields.values) =
      ((records.keys.map record).map fun ty => looks (ty.parts records)).sum := by
    rw [Table.values, Table.keys, List.map_map, List.map_map, looks, List.map_flatMap,
      List.flatMap_map, List.flatMap, List.sum_flatten, List.map_map]
    congr 1
    apply List.map_congr_left
    intro entry member
    have found := (records.get?_eq_some_iff entry.1 entry.2).2 member
    simp [parts, found, looks]
  rw [closureBound, folded, fields, stepsLeft]
  simp only [Std.ExtTreeSet.not_mem_empty, if_false, looks, List.map_cons, List.map_nil,
    List.sum_cons, List.sum_nil]
  omega

/-! ### What the search collects -/

theorem mem_closure (records : Table RecordDef) (root ty : Ty) :
    ty ∈ root.closure records ↔ Leads records root ty := by
  have start : root.endsInFunction = false → Leads records root root := Leads.root
  have found := closeSteps_ends (collecting_start start) (closureBound_eq records root).ge
  constructor
  · exact found.reached_seen ty
  · intro leads
    induction leads with
    | root data => exact (found.started data).resolve_right List.not_mem_nil
    | part _ inside data seen =>
      exact (found.followed _ seen _ inside data).resolve_right List.not_mem_nil

end Ty

end Lir
