import Lir.Block
import Lir.Table
import Lir.Ty

/-!
Functions: parameters in order, declared locals, and blocks kept under their names.
-/

set_option autoImplicit false

namespace Lir

def entryName : String := "entry"

structure Param where
  name : String
  ty : Ty
  deriving DecidableEq

structure Function where
  name : String
  params : List Param
  result : Option Ty
  locals : Table Ty
  blocks : Table Block
  deriving DecidableEq

namespace Function

def empty (name : String) : Function := ⟨name, [], none, ∅, ∅⟩

def signature (f : Function) : Signature := ⟨f.params.map Param.ty, f.result⟩

def instructions (f : Function) : List Instruction := f.blocks.values.flatMap Block.instructions

theorem mem_instructions (f : Function) (inst : Instruction) :
    inst ∈ f.instructions ↔
      ∃ name block, f.blocks.get? name = some block ∧ inst ∈ block.instructions := by
  simp only [instructions, Table.values, List.flatMap_map, List.mem_flatMap,
    Table.get?_eq_some_iff, Prod.exists]

def declareLocal (f : Function) (name : String) (ty : Ty) : Function :=
  { f with locals := f.locals.insert name ty }

def openBlock (f : Function) (name : String) : Function :=
  { f with blocks := f.blocks.insertNew name (.empty name) }

def updateBlock (f : Function) (name : String)
    (step : Block → Except BlockError (Point × Block)) : Except BlockError Function :=
  (step ((f.blocks.get? name).getD (.empty name))).map fun added =>
    { f with blocks := f.blocks.insert name added.2 }

end Function

end Lir
