import Lir.Ty

/-!
Variables of an analysis: declared names, and cells that stand for memory without a name.
-/

set_option autoImplicit false

namespace Lir

inductive Target where
  | ty (pointee : Ty)
  | named (name : String)
  | cell (name : String)
  deriving DecidableEq

inductive VariableKind where
  | own
  | parameter
  | global
  | cell
  deriving DecidableEq

structure Variable where
  name : String
  ty : Ty
  kind : VariableKind
  target : Option Target
  deriving DecidableEq

def cellName (ty : Ty) : String := "fake_" ++ ty.mangled

namespace Variable

/-- A variable that points, if at all, to something of its pointee type. -/
def declared (name : String) (ty : Ty) (kind : VariableKind) : Variable :=
  ⟨name, ty, kind, ty.pointee?.map .ty⟩

def ofCell (ty : Ty) : Variable := declared (cellName ty) ty .cell

end Variable

end Lir
