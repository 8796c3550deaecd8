import Lir.Flow.Graph
import Lir.Memory.Alias

/-!
What the analyses need to know about one function: its variables and its memory.
-/

set_option autoImplicit false

namespace Lir

inductive ContextError where
  | functionNotFound (name : String)
  | missingEntryBlock (function : String)
  deriving DecidableEq

namespace ContextError

def message : ContextError → String
  | .functionNotFound name => "Function not found: " ++ name
  | .missingEntryBlock function => "Function " ++ function ++ " has no entry block"

end ContextError

structure Context where
  program : Program
  function : Function
  memory : Memory

namespace Context

/-- Globals, then parameters, then locals. A later name hides an earlier one but takes its
place. -/
def declaredVariables (p : Program) (f : Function) : Table Variable :=
  Table.ofList (
    p.globals.entries.map (fun entry => (entry.1, .declared entry.1 entry.2 .global)) ++
    f.params.map (fun param => (param.name, .declared param.name param.ty .parameter)) ++
    f.locals.entries.map (fun entry => (entry.1, .declared entry.1 entry.2 .own)))

def ofFunction (p : Program) (f : Function) : Context :=
  ⟨p, f, .build p f (declaredVariables p f)⟩

def build (p : Program) (name : String) : Except ContextError Context :=
  match p.functions.get? name with
  | none => .error (.functionNotFound name)
  | some f =>
    if f.blocks.contains entryName then .ok (ofFunction p f)
    else .error (.missingEntryBlock name)

def vars (ctx : Context) : Table Variable := ctx.memory.vars

def aliases (ctx : Context) : AliasSets := ctx.memory.aliases

def graph (ctx : Context) : FlowGraph := ctx.function.graph

def typeOf? (ctx : Context) (name : String) : Option Ty :=
  (ctx.vars.get? name).map Variable.ty

def pointeeOf? (ctx : Context) (name : String) : Option Ty := (ctx.typeOf? name).bind Ty.pointee?

/-- The type of the memory that a store writes: that of the value, or what the pointer points at
if the value is not declared. -/
def storeType? (ctx : Context) (dst : String) : Operand → Option Ty
  | .const _ => some .int
  | .var name => (ctx.typeOf? name).or (ctx.pointeeOf? dst)

/-- The type of the memory that a load reads: that of the destination, or what the pointer points
at if the destination is not declared. -/
def loadType? (ctx : Context) (dst src : String) : Option Ty :=
  (ctx.typeOf? dst).or (ctx.pointeeOf? src)

def storeTargets (ctx : Context) (dst : String) (value : Operand) : NameSet :=
  match ctx.storeType? dst value with
  | some ty => ctx.aliases.mayPointTo ty
  | none => ∅

end Context

end Lir
