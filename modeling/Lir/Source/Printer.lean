import Lir.Program

/-!
The written form of points, types, instructions, blocks, functions and programs.

Every line that `Program.render` writes is a line that `Line.read` classifies back.
-/

set_option autoImplicit false

namespace Lir

namespace Point

def render : Point → String
  | .op block index => block ++ "." ++ toString index
  | .term block => block ++ ".term"

end Point

namespace Ty

mutual
def render : Ty → String
  | .int => "int"
  | .record name => name
  | .pointer pointee => "&" ++ pointee.render
  | .function params result =>
    "(" ++ ", ".intercalate (renderParams params) ++ ") -> " ++ renderResult result

def renderParams : List Ty → List String
  | [] => []
  | param :: rest => param.render :: renderParams rest

def renderResult : Option Ty → String
  | none => "_"
  | some result => result.render
end

end Ty

namespace Signature

def render (signature : Signature) : String := signature.toTy.render

end Signature

namespace Operand

def render : Operand → String
  | .const value => toString value.toInt
  | .var name => name

end Operand

namespace Call

def render (site : Call) : String :=
  (match site.dst with
    | some dst => dst ++ " = "
    | none => "") ++
  "$" ++ site.kind.word ++ " " ++ site.callee ++
  "(" ++ ", ".intercalate (site.args.map Operand.render) ++ ")" ++
  (match site.next with
    | some next => " then " ++ next
    | none => "")

end Call

namespace Op

/-- What stands between the name that an operation assigns and its operands. -/
def assigns (operation : Op) : String := " = $" ++ operation.word ++ " "

def render (operation : Op) : String :=
  match operation with
  | .copy dst src => dst ++ operation.assigns ++ src.render
  | .arith dst op lhs rhs =>
    dst ++ operation.assigns ++ op.name ++ " " ++ lhs.render ++ " " ++ rhs.render
  | .cmp dst op lhs rhs =>
    dst ++ operation.assigns ++ op.name ++ " " ++ lhs.render ++ " " ++ rhs.render
  | .gep dst base index => dst ++ operation.assigns ++ base ++ " " ++ index.render
  | .gfp dst base field => dst ++ operation.assigns ++ base ++ " " ++ field
  | .alloc dst size (some id) => dst ++ operation.assigns ++ size.render ++ " [" ++ id ++ "]"
  | .alloc dst size none => dst ++ operation.assigns ++ size.render
  | .addrOf dst src => dst ++ operation.assigns ++ src
  | .load dst src => dst ++ operation.assigns ++ src
  | .store dst value => "$" ++ operation.word ++ " " ++ dst ++ " " ++ value.render
  | .call site => site.render

end Op

namespace Terminator

def render (terminator : Terminator) : String :=
  match terminator with
  | .jump target => "$" ++ terminator.word ++ " " ++ target
  | .branch cond thenBlock elseBlock =>
    "$" ++ terminator.word ++ " " ++ cond.render ++ " " ++ thenBlock ++ " " ++ elseBlock
  | .ret (some value) => "$" ++ terminator.word ++ " " ++ value.render
  | .ret none => "$" ++ terminator.word

end Terminator

namespace Instruction

def render : Instruction → String
  | .op _ _ operation => operation.render
  | .term _ terminator => terminator.render

end Instruction

def renderTyped (name : String) (ty : Ty) : String := name ++ ": " ++ ty.render

def renderLines (lines : List String) : String := String.join (lines.map (· ++ "\n"))

namespace Block

def lines (b : Block) : List String :=
  (b.name ++ ":") :: b.instructions.map fun inst => "  " ++ inst.render

def render (b : Block) : String := renderLines b.lines

end Block

namespace Function

def headerLine (f : Function) : String :=
  "fn " ++ f.name ++
  "(" ++ ", ".intercalate (f.params.map fun param => renderTyped param.name param.ty) ++ ")" ++
  (match f.result with
    | some result => " -> " ++ result.render
    | none => "") ++
  " \x7b"

def localsLines (f : Function) : List String :=
  if f.locals.isEmpty then []
  else ["let " ++ ", ".intercalate (f.locals.entries.map fun entry => renderTyped entry.1 entry.2)]

def lines (f : Function) : List String :=
  f.headerLine :: f.localsLines ++ f.blocks.values.flatMap Block.lines ++ ["\x7d"]

def render (f : Function) : String := renderLines f.lines

end Function

namespace RecordDef

def lines (r : RecordDef) : List String :=
  ("struct " ++ r.name ++ " \x7b") ::
    r.fields.entries.map (fun entry => "  " ++ renderTyped entry.1 entry.2) ++ ["\x7d"]

end RecordDef

namespace Program

/-- Records, globals and externals, then each function after an empty line. -/
def lines (p : Program) : List String :=
  p.records.values.flatMap RecordDef.lines ++
  p.globals.entries.map (fun entry => renderTyped entry.1 entry.2) ++
  p.externs.entries.map (fun entry => "extern " ++ renderTyped entry.1 entry.2.toTy) ++
  p.functions.values.flatMap fun f => "" :: f.lines

def render (p : Program) : String := renderLines p.lines

end Program

end Lir
