import Lir.Instruction

/-!
Basic blocks: a log of operations that takes at most one terminator, which closes it.
-/

set_option autoImplicit false

namespace Lir

structure Block where
  name : String
  instructions : List Instruction
  deriving DecidableEq

inductive BlockError where
  | terminated (block : String)
  deriving DecidableEq

namespace BlockError

def message : BlockError → String
  | .terminated block => "Invalid instruction: block " ++ block ++ " already has a terminator"

end BlockError

namespace Block

def empty (name : String) : Block := ⟨name, []⟩

def isTerminated (b : Block) : Bool := b.instructions.getLast?.any Instruction.isTerm

def terminator? (b : Block) : Option Terminator :=
  match b.instructions.getLast? with
  | some (.term _ terminator) => some terminator
  | _ => none

def nextIndex (b : Block) : Nat := b.instructions.countP fun inst => !inst.isTerm

/-- Add an instruction at the end, unless the block is terminated. Gives the point it stands at. -/
def append (b : Block) (inst : Instruction) : Except BlockError (Point × Block) :=
  if b.isTerminated then .error (.terminated b.name)
  else .ok (inst.point, { b with instructions := b.instructions ++ [inst] })

def addOp (b : Block) (operation : Op) : Except BlockError (Point × Block) :=
  b.append (.op b.name b.nextIndex operation)

def setTerm (b : Block) (terminator : Terminator) : Except BlockError (Point × Block) :=
  b.append (.term b.name terminator)

/-- Successor names in edge order: continuations of calls, then the terminator's targets, each
name once. -/
def successors (b : Block) : List String :=
  (b.instructions.flatMap Instruction.successors).eraseDups

def get? (b : Block) (point : Point) : Option Instruction :=
  b.instructions.find? fun inst => inst.point = point

end Block

end Lir
