import Lir.Context

/-!
Functions built in memory, block by block.

An instruction that a block refuses is left out; the first refusal is reported when the function
is taken.
-/

set_option autoImplicit false

namespace Lir

structure Draft where
  function : Function
  refused : Option BlockError

inductive DraftError where
  | refused (error : BlockError)
  | missingEntryBlock (function : String)
  deriving DecidableEq

namespace DraftError

def message : DraftError → String
  | .refused error => error.message
  | .missingEntryBlock function => (ContextError.missingEntryBlock function).message

end DraftError

namespace Draft

def start (name : String) : Draft := ⟨.empty name, none⟩

def param (d : Draft) (name : String) (ty : Ty) : Draft :=
  { d with function := { d.function with params := d.function.params ++ [⟨name, ty⟩] } }

def declareLocal (d : Draft) (name : String) (ty : Ty) : Draft :=
  { d with function := d.function.declareLocal name ty }

def returns (d : Draft) (ty : Ty) : Draft :=
  { d with function := { d.function with result := some ty } }

def openBlock (d : Draft) (name : String) : Draft :=
  { d with function := d.function.openBlock name }

def update (d : Draft) (block : String) (step : Block → Except BlockError (Point × Block)) :
    Draft :=
  match d.function.updateBlock block step with
  | .ok function => { d with function := function }
  | .error error => { d with refused := d.refused.or (some error) }

/-- Allocations of a draft have no name of their own. -/
def unnamed : Op → Op
  | .alloc dst size _ => .alloc dst size none
  | operation => operation

def addOp (d : Draft) (block : String) (operation : Op) : Draft :=
  d.update block (·.addOp (unnamed operation))

def setTerm (d : Draft) (block : String) (terminator : Terminator) : Draft :=
  d.update block (·.setTerm terminator)

def build (d : Draft) : Except DraftError Function :=
  match d.refused with
  | some error => .error (.refused error)
  | none =>
    if d.function.blocks.contains entryName then .ok d.function
    else .error (.missingEntryBlock d.function.name)

end Draft

end Lir
