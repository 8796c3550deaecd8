import Lir.Memory.Closure
import Lir.Memory.Variable

/-!
Memory as the analyses see it, divided by type.

A pointer to a type may point at any variable of that type whose address the function takes, and
at the type's cell if it has one. Cells stand for memory that pointers from outside or from
allocations lead to. Nothing here depends on the order of execution.
-/

set_option autoImplicit false

namespace Lir

structure AliasSets where
  addressTaken : TyMap NameSet
  cells : TyMap String
  clobbers : PointMap NameSet

structure Memory where
  vars : Table Variable
  aliases : AliasSets

namespace AliasSets

def empty : AliasSets := ⟨∅, ∅, ∅⟩

def mayPointTo (t : AliasSets) (ty : Ty) : NameSet := t.addressTaken[ty]?.getD ∅

def clobbered (t : AliasSets) (point : Point) : NameSet := t.clobbers[point]?.getD ∅

def isAddressTaken (t : AliasSets) (name : String) : Bool :=
  t.addressTaken.toList.any fun entry => name ∈ entry.2

def addMember (t : AliasSets) (ty : Ty) (name : String) : AliasSets :=
  { t with addressTaken := t.addressTaken.insert ty ((t.mayPointTo ty).insert name) }

end AliasSets

namespace Program

def globalPointees (p : Program) : List Ty := p.globals.values.filterMap Ty.pointee?

/-- Types whose memory may come from outside the function or from its allocations. -/
def cellRoots (p : Program) (f : Function) (vars : Table Variable) : TySet :=
  .ofList (
    p.functions.values.flatMap (fun g => g.signature.exposed) ++
    p.globalPointees ++
    f.instructions.filterMap fun inst =>
      match inst with
      | .op _ _ (.alloc dst _ _) => (vars.get? dst).bind fun v => v.ty.pointee?
      | _ => none)

def cellTypes (p : Program) (f : Function) (vars : Table Variable) : List Ty :=
  (p.cellRoots f vars).toList.flatMap fun root => (root.closure p.records).toList

/-- The signature of a callee: from where the kind of call looks first, else from any place. -/
def calleeSignature? (p : Program) (vars : Table Variable) (site : Call) :
    Option Signature :=
  let first :=
    match site.kind with
    | .direct => (p.functions.get? site.callee).map Function.signature
    | .external => p.externs.get? site.callee
    | .indirect => (vars.get? site.callee).bind fun v => v.ty.signature?
  match first with
  | some signature => some signature
  | none => p.signature? site.callee

/-- Types of memory that a call may reach: what the pointers it can be given lead to, and what
global pointers lead to. -/
def exposedTypes (p : Program) (vars : Table Variable) (site : Call) : List Ty :=
  ((match p.calleeSignature? vars site with
    | some signature => signature.exposed
    | none => []) ++ p.globalPointees).flatMap
    fun pointee => (pointee.closure p.records).toList

end Program

namespace Memory

/-- Give a type its cell, unless it has one. A variable of the cell's name is kept, so two types
that spell their cells alike share the first one's variable. -/
def addCell (m : Memory) (ty : Ty) : Memory :=
  if ty ∈ m.aliases.cells then m
  else
    let aliases := m.aliases.addMember ty (cellName ty)
    { vars := m.vars.insertNew (cellName ty) (.ofCell ty)
      aliases := { aliases with cells := aliases.cells.insert ty (cellName ty) } }

def pointTo (m : Memory) (name : String) (target : Target) : Memory :=
  { m with vars := m.vars.modify name fun v => { v with target := some target } }

def noteAddress (m : Memory) : Instruction → Memory
  | .op _ _ (.addrOf dst src) =>
    match m.vars.get? src with
    | some v => { m with aliases := m.aliases.addMember v.ty src }.pointTo dst (.named src)
    | none => m
  | .op _ _ (.alloc dst _ _) =>
    match ((m.vars.get? dst).bind fun v => v.ty.pointee?).bind (m.aliases.cells[·]?) with
    | some cell => m.pointTo dst (.cell cell)
    | none => m
  | _ => m

/-- A call may overwrite every member of the types exposed to it and every global but the one it
calls through. -/
def clobberSet (p : Program) (m : Memory) (site : Call) : NameSet :=
  .ofNames (
    (p.exposedTypes m.vars site).flatMap (fun ty => (m.aliases.mayPointTo ty).toList) ++
    p.globals.keys.filter fun name => name ≠ site.callee)

def noteCall (p : Program) (m : Memory) (inst : Instruction) : Memory :=
  match inst.call? with
  | some site =>
    { m with aliases :=
      { m.aliases with clobbers := m.aliases.clobbers.insert inst.point (clobberSet p m site) } }
  | none => m

def build (p : Program) (f : Function) (vars : Table Variable) : Memory :=
  let start : Memory := ⟨vars, .empty⟩
  -- Cells come first, so that an allocation finds the one it points at, and calls come last, so
  -- that they see every address that is taken.
  let withCells := (p.cellTypes f vars).foldl addCell start
  let withAddresses := f.instructions.foldl noteAddress withCells
  f.instructions.foldl (noteCall p) withAddresses

end Memory

end Lir
