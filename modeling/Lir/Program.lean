import Lir.Function

/-!
Programs: record definitions, globals, external signatures and functions, in declaration order.
-/

set_option autoImplicit false

namespace Lir

structure RecordDef where
  name : String
  fields : Table Ty
  deriving DecidableEq

namespace RecordDef

def addField (r : RecordDef) (name : String) (ty : Ty) : RecordDef :=
  { r with fields := r.fields.insert name ty }

def ofFields (name : String) (fields : List (String × Ty)) : RecordDef :=
  ⟨name, .ofList fields⟩

end RecordDef

structure Program where
  records : Table RecordDef
  globals : Table Ty
  externs : Table Signature
  functions : Table Function
  deriving DecidableEq

namespace Program

def empty : Program := ⟨∅, ∅, ∅, ∅⟩

def defineRecord (p : Program) (r : RecordDef) : Program :=
  { p with records := p.records.insert r.name r }

def declareGlobal (p : Program) (name : String) (ty : Ty) : Program :=
  { p with globals := p.globals.insert name ty }

def declareExternal (p : Program) (name : String) (signature : Signature) : Program :=
  { p with externs := p.externs.insert name signature }

def define (p : Program) (f : Function) : Program :=
  { p with functions := p.functions.insert f.name f }

/-- The declared signature of a function, an extern, or a global whose type is one. -/
def signature? (p : Program) (name : String) : Option Signature :=
  match p.functions.get? name with
  | some f => some f.signature
  | none =>
    match p.externs.get? name with
    | some signature => some signature
    | none => (p.globals.get? name).bind Ty.signature?

/-- Equality that ignores the order in which tables list their names. -/
def agree (p q : Program) : Bool :=
  p.records.agree sameRecord q.records &&
    p.globals.agree sameValue q.globals &&
    p.externs.agree sameValue q.externs &&
    p.functions.agree sameFunction q.functions
where
  sameValue {α : Type} [DecidableEq α] (a b : α) : Bool := a = b
  sameRecord (r s : RecordDef) : Bool := r.name = s.name && r.fields.agree sameValue s.fields
  sameFunction (f g : Function) : Bool :=
    f.name = g.name && f.params = g.params && f.result = g.result &&
      f.locals.agree sameValue g.locals && f.blocks.agree sameValue g.blocks

end Program

end Lir
