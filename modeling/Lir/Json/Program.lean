import Lir.Json.Decode
import Lir.Json.Reader
import Lir.Program

/-!
The JSON form of programs and their parts.

Records become objects with one member a field, in field order; tables become objects with their
names in order; alternatives become tags.
-/

set_option autoImplicit false

namespace Lir

open Json (Decoder)

def Json.tag (name : String) (content : Json) : Json := .record [(name, content)]

def Table.toJson {α : Type} (encode : α → Json) (t : Table α) : Json :=
  .record (t.entries.map fun entry => (entry.1, encode entry.2))

def Json.ofList {α : Type} (encode : α → Json) (items : List α) : Json :=
  .array (items.map encode)

namespace Ty

mutual
def toJson : Ty → Json
  | .int => .str "Int"
  | .record name => .tag "Struct" (.str name)
  | .pointer pointee => .tag "Pointer" pointee.toJson
  | .function params result =>
    .tag "Function"
      (.record [("params", .array (toJsonParams params)), ("ret", toJsonResult result)])

def toJsonParams : List Ty → List Json
  | [] => []
  | param :: rest => param.toJson :: toJsonParams rest

def toJsonResult : Option Ty → Json
  | none => .null
  | some result => result.toJson
end

end Ty

namespace Signature

def toJson (s : Signature) : Json :=
  .record [("params", .ofList Ty.toJson s.params), ("ret", .ofOption Ty.toJson s.result)]

def decodeWith (decodeTy : Decoder Ty) : Decoder Signature := fun levels value => do
  match ← Json.allFields ["params", "ret"] levels value with
  | ([params, result], levels) => do
    let params ← Json.required (Json.list decodeTy) levels params
    let result ← Json.optional decodeTy levels result
    some ⟨params, result⟩
  | _ => none

end Signature

namespace Ty

/-- A type; each pointer or function takes one of the given steps. -/
def decodeSteps : Nat → Decoder Ty
  | 0, _, _ => none
  | steps + 1, levels, value => do
    let (tag, content, levels) ← Json.tagged levels value
    match tag with
    | "Int" => Json.unit .int content
    | "Struct" => do
      let name ← Json.required Json.string levels content
      some (.record name)
    | "Pointer" => do
      let pointee ← Json.required (decodeSteps steps) levels content
      some (.pointer pointee)
    | "Function" => do
      let signature ← Json.required (Signature.decodeWith (decodeSteps steps)) levels content
      some signature.toTy
    | _ => none

/-- Types nest no deeper than the text may, so that bounds the steps. -/
def decode : Decoder Ty := decodeSteps (Json.maxDepth + 1)

end Ty

namespace Signature

def decode : Decoder Signature := decodeWith Ty.decode

end Signature

namespace RecordDef

def toJson (r : RecordDef) : Json :=
  .record [("name", .str r.name), ("fields", r.fields.toJson Ty.toJson)]

def decode : Decoder RecordDef := fun levels value => do
  match ← Json.allFields ["name", "fields"] levels value with
  | ([name, fields], levels) => do
    let name ← Json.required Json.string levels name
    let fields ← Json.required (Json.table Ty.decode) levels fields
    some ⟨name, fields⟩
  | _ => none

end RecordDef

namespace Operand

def toJson : Operand → Json
  | .const value => .tag "Const" (.integer value.toInt)
  | .var name => .tag "Var" (.str name)

def decode : Decoder Operand := fun levels value => do
  let (tag, content, levels) ← Json.tagged levels value
  match tag with
  | "Const" => do
    let value ← Json.required (Json.integerIn (-2147483648) 2147483647) levels content
    some (.const (.ofInt value))
  | "Var" => do
    let name ← Json.required Json.string levels content
    some (.var name)
  | _ => none

end Operand

namespace ArithOp

def jsonName : ArithOp → String
  | .add => "Add"
  | .sub => "Sub"
  | .mul => "Mul"
  | .div => "Div"

def decode : Decoder ArithOp := Json.named jsonName all

end ArithOp

namespace CmpOp

def jsonName : CmpOp → String
  | .eq => "Eq"
  | .neq => "Neq"
  | .lt => "Lt"
  | .lte => "Lte"
  | .gt => "Gt"
  | .gte => "Gte"

def decode : Decoder CmpOp := Json.named jsonName all

end CmpOp

namespace CallKind

def jsonName : CallKind → String
  | .external => "External"
  | .direct => "Direct"
  | .indirect => "Indirect"

def decode : Decoder CallKind := Json.named jsonName all

end CallKind

namespace Call

def toJson (site : Call) : Json :=
  .record [
    ("dst", .ofOption .str site.dst),
    ("kind", .str site.kind.jsonName),
    ("callee", .str site.callee),
    ("args", .ofList Operand.toJson site.args),
    ("next", .ofOption .str site.next)]

def decode : Decoder Call := fun levels value => do
  match ← Json.allFields ["dst", "kind", "callee", "args", "next"] levels value with
  | ([dst, kind, callee, args, next], levels) => do
    let dst ← Json.optional Json.string levels dst
    let kind ← Json.required CallKind.decode levels kind
    let callee ← Json.required Json.string levels callee
    let args ← Json.required (Json.list Operand.decode) levels args
    let next ← Json.optional Json.string levels next
    some ⟨dst, kind, callee, args, next⟩
  | _ => none

end Call

namespace Op

def toJson : Op → Json
  | .copy dst src => .tag "Copy" (.record [("dst", .str dst), ("src", src.toJson)])
  | .arith dst op lhs rhs =>
    .tag "Arith" (.record [("dst", .str dst), ("op", .str op.jsonName), ("lhs", lhs.toJson),
      ("rhs", rhs.toJson)])
  | .cmp dst op lhs rhs =>
    .tag "Cmp" (.record [("dst", .str dst), ("op", .str op.jsonName), ("lhs", lhs.toJson),
      ("rhs", rhs.toJson)])
  | .gep dst base index =>
    .tag "Gep" (.record [("dst", .str dst), ("base", .str base), ("index", index.toJson)])
  | .gfp dst base field =>
    .tag "Gfp" (.record [("dst", .str dst), ("base", .str base), ("field", .str field)])
  | .alloc dst size id =>
    .tag "Alloc" (.record [("dst", .str dst), ("size", size.toJson), ("id", .ofOption .str id)])
  | .addrOf dst src => .tag "AddrOf" (.record [("dst", .str dst), ("src", .str src)])
  | .load dst src => .tag "Load" (.record [("dst", .str dst), ("src", .str src)])
  | .store dst value => .tag "Store" (.record [("dst", .str dst), ("value", value.toJson)])
  | .call site => .tag "Call" site.toJson

def decodeContent (tag : String) : Decoder Op := fun levels content =>
  match tag with
  | "Copy" => do
    match ← Json.allFields ["dst", "src"] levels content with
    | ([dst, src], levels) => do
      let dst ← Json.required Json.string levels dst
      let src ← Json.required Operand.decode levels src
      some (.copy dst src)
    | _ => none
  | "Arith" => do
    match ← Json.allFields ["dst", "op", "lhs", "rhs"] levels content with
    | ([dst, op, lhs, rhs], levels) => do
      let dst ← Json.required Json.string levels dst
      let op ← Json.required ArithOp.decode levels op
      let lhs ← Json.required Operand.decode levels lhs
      let rhs ← Json.required Operand.decode levels rhs
      some (.arith dst op lhs rhs)
    | _ => none
  | "Cmp" => do
    match ← Json.allFields ["dst", "op", "lhs", "rhs"] levels content with
    | ([dst, op, lhs, rhs], levels) => do
      let dst ← Json.required Json.string levels dst
      let op ← Json.required CmpOp.decode levels op
      let lhs ← Json.required Operand.decode levels lhs
      let rhs ← Json.required Operand.decode levels rhs
      some (.cmp dst op lhs rhs)
    | _ => none
  | "Gep" => do
    match ← Json.allFields ["dst", "base", "index"] levels content with
    | ([dst, base, index], levels) => do
      let dst ← Json.required Json.string levels dst
      let base ← Json.required Json.string levels base
      let index ← Json.required Operand.decode levels index
      some (.gep dst base index)
    | _ => none
  | "Gfp" => do
    match ← Json.allFields ["dst", "base", "field"] levels content with
    | ([dst, base, field], levels) => do
      let dst ← Json.required Json.string levels dst
      let base ← Json.required Json.string levels base
      let field ← Json.required Json.string levels field
      some (.gfp dst base field)
    | _ => none
  | "Alloc" => do
    match ← Json.allFields ["dst", "size", "id"] levels content with
    | ([dst, size, id], levels) => do
      let dst ← Json.required Json.string levels dst
      let size ← Json.required Operand.decode levels size
      let id ← Json.optional Json.string levels id
      some (.alloc dst size id)
    | _ => none
  | "AddrOf" => do
    match ← Json.allFields ["dst", "src"] levels content with
    | ([dst, src], levels) => do
      let dst ← Json.required Json.string levels dst
      let src ← Json.required Json.string levels src
      some (.addrOf dst src)
    | _ => none
  | "Load" => do
    match ← Json.allFields ["dst", "src"] levels content with
    | ([dst, src], levels) => do
      let dst ← Json.required Json.string levels dst
      let src ← Json.required Json.string levels src
      some (.load dst src)
    | _ => none
  | "Store" => do
    match ← Json.allFields ["dst", "value"] levels content with
    | ([dst, value], levels) => do
      let dst ← Json.required Json.string levels dst
      let value ← Json.required Operand.decode levels value
      some (.store dst value)
    | _ => none
  | "Call" => (Call.decode levels content).map .call
  | _ => none

def decode : Decoder Op := fun levels value => do
  let (tag, content, levels) ← Json.tagged levels value
  Json.required (decodeContent tag) levels content

end Op

namespace Terminator

def toJson : Terminator → Json
  | .jump target => .tag "Jump" (.str target)
  | .branch cond thenBlock elseBlock =>
    .tag "Branch" (.record [("cond", cond.toJson), ("then_block", .str thenBlock),
      ("else_block", .str elseBlock)])
  | .ret value => .tag "Ret" (.ofOption Operand.toJson value)

def decode : Decoder Terminator := fun levels value => do
  let (tag, content, levels) ← Json.tagged levels value
  match tag with
  | "Jump" => do
    let target ← Json.required Json.string levels content
    some (.jump target)
  | "Branch" => do
    let content ← content
    match ← Json.allFields ["cond", "then_block", "else_block"] levels content with
    | ([cond, thenBlock, elseBlock], levels) => do
      let cond ← Json.required Operand.decode levels cond
      let thenBlock ← Json.required Json.string levels thenBlock
      let elseBlock ← Json.required Json.string levels elseBlock
      some (.branch cond thenBlock elseBlock)
    | _ => none
  | "Ret" => do
    let value ← Json.required (Json.nullable Operand.decode) levels content
    some (.ret value)
  | _ => none

end Terminator

namespace Instruction

def toJson : Instruction → Json
  | .op block index operation =>
    .tag "NonTerminal" (.record [("block", .str block), ("index", .nat index),
      ("op", operation.toJson)])
  | .term block terminator =>
    .tag "Terminal" (.record [("block", .str block), ("term", terminator.toJson)])

def decodeIndex : Decoder Nat := fun levels value =>
  (Json.integerIn 0 18446744073709551615 levels value).map Int.toNat

def decode : Decoder Instruction := fun levels value => do
  let (tag, content, levels) ← Json.tagged levels value
  let content ← content
  match tag with
  | "NonTerminal" => do
    match ← Json.allFields ["block", "index", "op"] levels content with
    | ([block, index, operation], levels) => do
      let block ← Json.required Json.string levels block
      let index ← Json.required decodeIndex levels index
      let operation ← Json.required Op.decode levels operation
      some (.op block index operation)
    | _ => none
  | "Terminal" => do
    match ← Json.allFields ["block", "term"] levels content with
    | ([block, terminator], levels) => do
      let block ← Json.required Json.string levels block
      let terminator ← Json.required Terminator.decode levels terminator
      some (.term block terminator)
    | _ => none
  | _ => none

end Instruction

namespace Block

def toJson (b : Block) : Json :=
  .record [("name", .str b.name), ("instructions", .ofList Instruction.toJson b.instructions)]

def decode : Decoder Block := fun levels value => do
  match ← Json.allFields ["name", "instructions"] levels value with
  | ([name, instructions], levels) => do
    let name ← Json.required Json.string levels name
    let instructions ← Json.required (Json.list Instruction.decode) levels instructions
    some ⟨name, instructions⟩
  | _ => none

end Block

namespace Param

def toJson (p : Param) : Json :=
  .record [("name", .str p.name), ("param_type", p.ty.toJson)]

def decode : Decoder Param := fun levels value => do
  match ← Json.allFields ["name", "param_type"] levels value with
  | ([name, ty], levels) => do
    let name ← Json.required Json.string levels name
    let ty ← Json.required Ty.decode levels ty
    some ⟨name, ty⟩
  | _ => none

end Param

namespace Function

def toJson (f : Function) : Json :=
  .record [
    ("name", .str f.name),
    ("params", .ofList Param.toJson f.params),
    ("ret", .ofOption Ty.toJson f.result),
    ("locals", f.locals.toJson Ty.toJson),
    ("blocks", f.blocks.toJson Block.toJson)]

def decode : Decoder Function := fun levels value => do
  match ← Json.allFields ["name", "params", "ret", "locals", "blocks"] levels value with
  | ([name, params, result, locals, blocks], levels) => do
    let name ← Json.required Json.string levels name
    let params ← Json.required (Json.list Param.decode) levels params
    let result ← Json.optional Ty.decode levels result
    let locals ← Json.required (Json.table Ty.decode) levels locals
    let blocks ← Json.required (Json.table Block.decode) levels blocks
    some ⟨name, params, result, locals, blocks⟩
  | _ => none

end Function

namespace Program

def toJson (p : Program) : Json :=
  .record [
    ("structs", p.records.toJson RecordDef.toJson),
    ("globals", p.globals.toJson Ty.toJson),
    ("externs", p.externs.toJson Signature.toJson),
    ("functions", p.functions.toJson Function.toJson)]

def decode : Decoder Program := fun levels value => do
  match ← Json.allFields ["structs", "globals", "externs", "functions"] levels value with
  | ([records, globals, externs, functions], levels) => do
    let records ← Json.required (Json.table RecordDef.decode) levels records
    let globals ← Json.required (Json.table Ty.decode) levels globals
    let externs ← Json.required (Json.table Signature.decode) levels externs
    let functions ← Json.required (Json.table Function.decode) levels functions
    some ⟨records, globals, externs, functions⟩
  | _ => none

def ofJsonText? (text : String) : Option Program := (Json.parse text).bind (decode Json.maxDepth)

def toJsonText (p : Program) : String := p.toJson.render

end Program

end Lir
