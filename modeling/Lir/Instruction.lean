import Lir.Point

/-!
Operands, operations, terminators and instructions.

An operation names what it writes (`Op.def?`) and what it reads (`Op.uses`); both speak of names
only, since what a name stands for is settled by the analyses.
-/

set_option autoImplicit false

namespace Lir

/-- A literal or a name. A name need not be declared. -/
inductive Operand where
  | const (value : Int32)
  | var (name : String)
  deriving DecidableEq, Inhabited

namespace Operand

def name? : Operand → Option String
  | .var name => some name
  | .const _ => none

end Operand

inductive ArithOp where
  | add
  | sub
  | mul
  | div
  deriving DecidableEq

namespace ArithOp

def name : ArithOp → String
  | .add => "add"
  | .sub => "sub"
  | .mul => "mul"
  | .div => "div"

def all : List ArithOp := [.add, .sub, .mul, .div]

def ofName? (text : String) : Option ArithOp := all.find? fun op => op.name = text

end ArithOp

inductive CmpOp where
  | eq
  | neq
  | lt
  | lte
  | gt
  | gte
  deriving DecidableEq

namespace CmpOp

def name : CmpOp → String
  | .eq => "eq"
  | .neq => "neq"
  | .lt => "lt"
  | .lte => "lte"
  | .gt => "gt"
  | .gte => "gte"

def all : List CmpOp := [.eq, .neq, .lt, .lte, .gt, .gte]

def ofName? (text : String) : Option CmpOp := all.find? fun op => op.name = text

def holds : CmpOp → Int32 → Int32 → Bool
  | .eq, a, b => a = b
  | .neq, a, b => a ≠ b
  | .lt, a, b => a < b
  | .lte, a, b => a ≤ b
  | .gt, a, b => b < a
  | .gte, a, b => b ≤ a

end CmpOp

inductive CallKind where
  | external
  | direct
  | indirect
  deriving DecidableEq

structure Call where
  dst : Option String
  kind : CallKind
  callee : String
  args : List Operand
  next : Option String
  deriving DecidableEq

inductive Op where
  | copy (dst : String) (src : Operand)
  | arith (dst : String) (op : ArithOp) (lhs rhs : Operand)
  | cmp (dst : String) (op : CmpOp) (lhs rhs : Operand)
  | gep (dst base : String) (index : Operand)
  | gfp (dst base field : String)
  | alloc (dst : String) (size : Operand) (id : Option String)
  | addrOf (dst src : String)
  | load (dst src : String)
  | store (dst : String) (value : Operand)
  | call (site : Call)
  deriving DecidableEq

inductive Terminator where
  | jump (target : String)
  | branch (cond : Operand) (thenBlock elseBlock : String)
  | ret (value : Option Operand)
  deriving DecidableEq

/-- An operation or terminator with the block, and for an operation the number, it stands at. -/
inductive Instruction where
  | op (block : String) (index : Nat) (operation : Op)
  | term (block : String) (terminator : Terminator)
  deriving DecidableEq

namespace CallKind

def word : CallKind → String
  | .external => "call_ext"
  | .direct => "call_dir"
  | .indirect => "call_idr"

def all : List CallKind := [.external, .direct, .indirect]

def ofWord? (text : String) : Option CallKind := all.find? fun kind => kind.word = text

end CallKind

namespace Op

def word : Op → String
  | .copy _ _ => "copy"
  | .arith _ _ _ _ => "arith"
  | .cmp _ _ _ _ => "cmp"
  | .gep _ _ _ => "gep"
  | .gfp _ _ _ => "gfp"
  | .alloc _ _ _ => "alloc"
  | .addrOf _ _ => "addrof"
  | .load _ _ => "load"
  | .store _ _ => "store"
  | .call site => site.kind.word

/-- The name that the operation assigns. A store writes through a pointer and assigns none. -/
def def? : Op → Option String
  | .copy dst _ | .arith dst _ _ _ | .cmp dst _ _ _ | .gep dst _ _ | .gfp dst _ _
  | .alloc dst _ _ | .addrOf dst _ | .load dst _ => some dst
  | .store _ _ => none
  | .call site => site.dst

/-- Names read, in operand order. A store reads the pointer it writes through; taking an address
does not read the name, and a field is not a variable. -/
def uses : Op → List String
  | .copy _ src => src.name?.toList
  | .arith _ _ lhs rhs | .cmp _ _ lhs rhs => [lhs, rhs].filterMap Operand.name?
  | .gep _ base index => base :: index.name?.toList
  | .gfp _ base _ => [base]
  | .alloc _ size _ => size.name?.toList
  | .addrOf _ _ => []
  | .load _ src => [src]
  | .store dst value => dst :: value.name?.toList
  | .call site =>
    match site.kind with
    | .indirect => site.callee :: site.args.filterMap Operand.name?
    | .external | .direct => site.args.filterMap Operand.name?

def next? : Op → Option String
  | .call site => site.next
  | _ => none

end Op

namespace Terminator

def word : Terminator → String
  | .jump _ => "jump"
  | .branch _ _ _ => "branch"
  | .ret _ => "ret"

def successors : Terminator → List String
  | .jump target => [target]
  | .branch _ thenBlock elseBlock => [thenBlock, elseBlock]
  | .ret _ => []

def uses : Terminator → List String
  | .jump _ => []
  | .branch cond _ _ => cond.name?.toList
  | .ret value => value.toList.filterMap Operand.name?

end Terminator

namespace Instruction

def word : Instruction → String
  | .op _ _ operation => operation.word
  | .term _ terminator => terminator.word

def point : Instruction → Point
  | .op block index _ => .op block index
  | .term block _ => .term block

def block : Instruction → String
  | .op block _ _ | .term block _ => block

def isTerm : Instruction → Bool
  | .op _ _ _ => false
  | .term _ _ => true

def call? : Instruction → Option Call
  | .op _ _ (.call site) => some site
  | _ => none

def def? : Instruction → Option String
  | .op _ _ operation => operation.def?
  | .term _ _ => none

def uses : Instruction → List String
  | .op _ _ operation => operation.uses
  | .term _ terminator => terminator.uses

/-- Every name mentioned as a variable: what is assigned, what is read, and the name whose
address is taken. -/
def mentions (inst : Instruction) : List String :=
  inst.def?.toList ++ inst.uses ++
    match inst with
    | .op _ _ (.addrOf _ src) => [src]
    | _ => []

def successors : Instruction → List String
  | .op _ _ operation => operation.next?.toList
  | .term _ terminator => terminator.successors

end Instruction

end Lir
