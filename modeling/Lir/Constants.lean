import Lir.Context
import Lir.Flow.Solver

/-!
Constant propagation over names that hold integers.

The values form a flat lattice: nothing known to arrive (`bottom`), one constant, or any value
(`top`). Arithmetic wraps at 32 bits; a division by zero yields no value.
-/

set_option autoImplicit false

namespace Lir

inductive FlatInt where
  | bottom
  | const (value : Int32)
  | top
  deriving DecidableEq

namespace FlatInt

def render : FlatInt → String
  | .bottom => "Bottom"
  | .const value => toString value.toInt
  | .top => "Top"

def flatJoin : FlatInt → FlatInt → FlatInt
  | .bottom, v => v
  | v, .bottom => v
  | .const a, .const b => if a = b then .const a else .top
  | _, _ => .top

instance : Join FlatInt where
  join := flatJoin
  absorb a b :=
    let joined := flatJoin a b
    if joined = a then (a, false) else (joined, true)

/-- The operation on words; division truncates, and the least word divided by -1 is itself. -/
def wordArith : ArithOp → Int32 → Int32 → Int32
  | .add, a, b => a + b
  | .sub, a, b => a - b
  | .mul, a, b => a * b
  | .div, a, b => a / b

/-- A product with zero and a quotient of zero are known even if the other side is not. -/
def arith : ArithOp → FlatInt → FlatInt → FlatInt
  | _, .bottom, _ => .bottom
  | _, _, .bottom => .bottom
  | op, lhs, rhs =>
    -- These hold for any word on the other side, so they come before asking whether it is known.
    if op = .mul ∧ (lhs = .const 0 ∨ rhs = .const 0) then .const 0
    else if op = .div ∧ rhs = .const 0 then .bottom
    else if op = .div ∧ lhs = .const 0 then .const 0
    else
      match lhs, rhs with
      | .const a, .const b => .const (wordArith op a b)
      | _, _ => .top

def compare : CmpOp → FlatInt → FlatInt → FlatInt
  | _, .bottom, _ => .bottom
  | _, _, .bottom => .bottom
  | op, .const a, .const b => .const (if op.holds a b then 1 else 0)
  | _, _, _ => .top

end FlatInt

abbrev ConstEnv := NameMap FlatInt

namespace ConstEnv

/-- A literal is itself; a name that is not followed may hold anything. -/
def value (s : ConstEnv) : Operand → FlatInt
  | .const value => .const value
  | .var name => s[name]?.getD .top

/-- Join a value into one name, if it is followed. -/
def joinInto (value : FlatInt) (s : ConstEnv) (name : String) : ConstEnv :=
  match s[name]? with
  | some old => s.insert name (join old value)
  | none => s

def joinAll (s : ConstEnv) (names : NameSet) (value : FlatInt) : ConstEnv :=
  names.toList.foldl (joinInto value) s

def forgetName (s : ConstEnv) (name : String) : ConstEnv :=
  match s[name]? with
  | some _ => s.insert name .top
  | none => s

def forgetAll (s : ConstEnv) (names : NameSet) : ConstEnv := names.toList.foldl forgetName s

end ConstEnv

namespace Constants

/-- Declared integers: locals have no value yet, the others may have any. -/
def start (ctx : Context) : ConstEnv :=
  (ctx.vars.values.filter fun v => v.ty.isInt).foldl
    (fun s v => s.insert v.name (if v.kind = .own then .bottom else .top)) ∅

/-- Names that may be followed: integers, and names that are not declared. -/
def tracks (ctx : Context) (name : String) : Bool :=
  match ctx.typeOf? name with
  | some ty => ty.isInt
  | none => true

def assign (ctx : Context) (s : ConstEnv) (dst : String) (value : FlatInt) : ConstEnv :=
  if tracks ctx dst then s.insert dst value else s

/-- Whether copying says nothing: neither is the source followed nor the destination declared. -/
def copiesUnknown (ctx : Context) (s : ConstEnv) (dst : String) : Operand → Bool
  | .var name => name ∉ s && (ctx.typeOf? dst).isNone
  | .const _ => false

def transfer (ctx : Context) : Instruction → ConstEnv → ConstEnv
  | .term _ _, s => s
  | .op block index operation, s =>
    match operation with
    | .copy dst src =>
      if copiesUnknown ctx s dst src then s else assign ctx s dst (ConstEnv.value s src)
    | .arith dst op lhs rhs =>
      assign ctx s dst (.arith op (ConstEnv.value s lhs) (ConstEnv.value s rhs))
    | .cmp dst op lhs rhs =>
      assign ctx s dst (.compare op (ConstEnv.value s lhs) (ConstEnv.value s rhs))
    | .load dst _ => assign ctx s dst .top
    | .store dst value =>
      if ctx.storeType? dst value = some .int then
        ConstEnv.joinAll s (ctx.aliases.mayPointTo .int) (ConstEnv.value s value)
      else s
    | .call site =>
      let s := ConstEnv.forgetAll s (ctx.aliases.clobbered (.op block index))
      match site.dst with
      | some dst => assign ctx s dst .top
      | none => s
    | .gep _ _ _ | .gfp _ _ _ | .alloc _ _ _ | .addrOf _ _ => s

def analysis (ctx : Context) : Analysis ConstEnv := ⟨start ctx, transfer ctx⟩

/-- How often a state can grow: each name enters it once and rises at most twice. -/
def height (ctx : Context) : Nat :=
  3 * (ctx.vars.size + ctx.function.instructions.length)

def solve (ctx : Context) : Fixpoint ConstEnv :=
  (analysis ctx).solve ctx.function (height ctx)

def mentioned (block : Block) : NameSet :=
  .ofNames (block.instructions.flatMap Instruction.mentions)

def valueAtStart (found : Fixpoint ConstEnv) (block name : String) : Option FlatInt :=
  found.pre[block]?.bind (·[name]?)

def valueAtEnd (found : Fixpoint ConstEnv) (block name : String) : Option FlatInt :=
  found.post[block]?.bind (·[name]?)

/-- For a state at the end of a block, the values of the names the block mentions, without those
that have none. -/
def knownValues (block : Block) (state : ConstEnv) : List (String × FlatInt) :=
  (mentioned block).toList.filterMap fun name =>
    match (state[name]? : Option FlatInt) with
    | some .bottom | none => none
    | some value => some (name, value)

def endValues (ctx : Context) (found : Fixpoint ConstEnv) :
    List (String × List (String × FlatInt)) :=
  found.post.toList.map fun entry =>
    (entry.1, match ctx.function.blocks.get? entry.1 with
      | some block => knownValues block entry.2
      | none => [])

end Constants

end Lir
