import Lir.Proofs.Checked.Memory
import Lir.Proofs.Memory.Members

/-!
Queries for closures, and the types that have a cell.

A query computes the closure of its root or looks it up among those remembered. Only closures are
remembered, so what was asked before makes no difference, and every search for one ends in time. The
cells of a function are those of the types that its roots lead to, and whatever one of these has
inside is among them too, unless it ends in a function.
-/

set_option autoImplicit false

namespace Lir

/-! ### One query after the other -/

namespace Checked

def closures (records : Table RecordDef) (known : TyMap TySet) :
    List Ty → Except Fault (List TySet)
  | [] => .ok []
  | root :: rest => do
    let (types, known) ← reachable records known root
    let others ← closures records known rest
    .ok (types :: others)

variable {records : Table RecordDef} {known : TyMap TySet}

theorem closures_eq (remembered : Remembered records known) (roots : List Ty) :
    closures records known roots = .ok (roots.map (Ty.closure records)) := by
  induction roots generalizing known with
  | nil => rfl
  | cons root rest ih =>
    obtain ⟨next, same, kept⟩ := gives_reachable remembered root
    rw [closures, same]
    simp only [ok_bind, ih kept, List.map_cons]

theorem remembered_closureKnown (remembered : Remembered records known) (root : Ty) :
    (Ty.closureKnown records known root).1 = root.closure records ∧
      Remembered records (Ty.closureKnown records known root).2 := by
  rw [Ty.closureKnown]
  split
  next types found => exact ⟨remembered root types found, remembered⟩
  next =>
    refine ⟨rfl, fun other types at_other => ?_⟩
    rw [getElem?_insert_map] at at_other
    split at at_other
    next same => rw [← Option.some.inj at_other, same]
    next => exact remembered other types at_other

end Checked

namespace Ty

theorem closures_eq_map {records : Table RecordDef} {known : TyMap TySet}
    (remembered : Checked.Remembered records known) (roots : List Ty) :
    closures records known roots = roots.map (closure records) := by
  induction roots generalizing known with
  | nil => rfl
  | cons root rest ih =>
    obtain ⟨first, kept⟩ := Checked.remembered_closureKnown remembered root
    rw [closures, List.map_cons]
    exact congrArg₂ List.cons first (ih kept)

end Ty

/-! ### Types with a cell -/

namespace Context

variable {p : Program} {f : Function}

theorem mem_cells_iff (ty : Ty) :
    ty ∈ (ofFunction p f).aliases.cells ↔
      ∃ root, p.CellRoot f (declaredVariables p f) root ∧ ty ∈ root.closure p.records := by
  simp only [mem_map_iff, cell_iff, Program.mem_cellTypes, Ty.mem_closure]
  constructor
  · rintro ⟨_, listed, _⟩
    exact listed
  · exact fun listed => ⟨cellName ty, listed, rfl⟩

/-- What is inside a type with a cell has a cell, unless it ends in a function. -/
theorem part_mem_cells_iff {ty part : Ty} (celled : ty ∈ (ofFunction p f).aliases.cells)
    (inside : part ∈ ty.parts p.records) :
    part ∈ (ofFunction p f).aliases.cells ↔ part.endsInFunction = false := by
  rw [mem_cells_iff] at celled ⊢
  obtain ⟨root, from_root, collected⟩ := celled
  constructor
  · rintro ⟨_, _, collected⟩
    exact ((Ty.mem_closure _ _ _).1 collected).data
  · intro data
    exact ⟨root, from_root, (Ty.mem_closure _ _ _).2
      (((Ty.mem_closure _ _ _).1 collected).part inside data)⟩

/-- Whatever is asked in which order, every query ends with the types that chains from its root lead
to. The types with a cell are those in the closures of the function's roots, and so is all that is
inside them and does not end in a function. -/
theorem closures_and_cells (p : Program) :
    (∀ roots, Checked.closures p.records ∅ roots = .ok (Ty.closures p.records ∅ roots) ∧
      Ty.closures p.records ∅ roots = roots.map (Ty.closure p.records)) ∧
    (∀ root ty, ty ∈ Ty.closure p.records root ↔ Ty.Leads p.records root ty) ∧
    ∀ name f, p.functions.get? name = some f → f.blocks.contains entryName = true →
      ∃ ctx, build p name = .ok ctx ∧
        (∀ ty, ty ∈ ctx.aliases.cells ↔
          ∃ root, p.CellRoot f (declaredVariables p f) root ∧ ty ∈ root.closure p.records) ∧
        ∀ ty ∈ ctx.aliases.cells, ∀ part ∈ ty.parts p.records,
          (part ∈ ctx.aliases.cells ↔ part.endsInFunction = false) := by
  have nothing := Checked.remembered_empty p.records
  refine ⟨fun roots => ⟨?_, Ty.closures_eq_map nothing roots⟩, Ty.mem_closure p.records, ?_⟩
  · rw [Checked.closures_eq nothing, Ty.closures_eq_map nothing]
  · intro name f listed entry
    exact ⟨_, build_eq_ok listed entry, mem_cells_iff,
      fun _ celled _ inside => part_mem_cells_iff celled inside⟩

end Context

end Lir
