import Lir.Instruction
import Lir.Source.Token
import Lir.Ty

/-!
One source line, classified.

`Line.ofTokens?` tries the kinds of line in a fixed order, and each must take all tokens. Words
such as `struct` are not reserved: a line that fails as one kind may still be another, so
`let: int` declares a name. A reader that may stop early always takes as much as it can.

`Line.read` adds the one check that the grammar leaves open: every literal fits in 32 bits.
-/

set_option autoImplicit false

namespace Lir

inductive Line where
  | blank
  /-- The start of a record; `closed` if its closing brace is on the same line. -/
  | recordHeader (name : String) (fields : List (String × Ty)) (closed : Bool)
  | functionHeader (name : String) (params : List (String × Ty)) (result : Option Ty)
  | external (name : String) (signature : Signature)
  | locals (names : List (String × Ty))
  /-- A field or a global, depending on where it stands. -/
  | declaration (name : String) (ty : Ty)
  | label (name : String)
  | close
  | op (operation : Op)
  | term (terminator : Terminator)
  deriving DecidableEq

inductive LineError where
  | malformed
  /-- A literal, as written, that does not fit in 32 bits. -/
  | integerOutOfRange (literal : String)
  deriving DecidableEq

namespace LineError

def message : LineError → String
  | .malformed => "Syntax error"
  | .integerOutOfRange literal =>
    "Unsupported construct: integer out of range: " ++ literal

end LineError

abbrev Reader (α : Type) := List Token → Option (α × List Token)

namespace Reader

variable {α : Type}

/-- Further items, each after a separator. Stops before a separator that no item follows. Every
item takes its separator, so as many steps as there are tokens are enough. -/
def more (separates : Token → Bool) (item : Reader α) : Nat → List Token → List α × List Token
  | 0, tokens => ([], tokens)
  | _, [] => ([], [])
  | steps + 1, token :: rest =>
    if separates token then
      match item rest with
      | some (value, rest) =>
        let (values, rest) := more separates item steps rest
        (value :: values, rest)
      | none => ([], token :: rest)
    else ([], token :: rest)

def list (separates : Token → Bool) (item : Reader α) : Reader (List α) := fun tokens => do
  let (value, rest) ← item tokens
  let (values, rest) := more separates item rest.length rest
  some (value :: values, rest)

def listOrNone (separates : Token → Bool) (item : Reader α) (tokens : List Token) :
    List α × List Token :=
  (list separates item tokens).getD ([], tokens)

def isComma (token : Token) : Bool := token = .punct .comma

def isSeparator (token : Token) : Bool := token = .punct .semicolon || token = .punct .comma

def dropSeparator : List Token → List Token
  | token :: rest => if isSeparator token then rest else token :: rest
  | [] => []

def result (ty : Reader Ty) : Reader (Option Ty)
  | .ident "_" :: rest => some (none, rest)
  | tokens => do
    let (type, rest) ← ty tokens
    some (some type, rest)

def signatureTail (ty : Reader Ty) : Reader Signature := fun tokens =>
  match listOrNone isComma ty tokens with
  | (params, .punct .closeParen :: .punct .arrow :: rest) => do
    let (result, rest) ← result ty rest
    some (⟨params, result⟩, rest)
  | _ => none

def tyWithin : Nat → Reader Ty
  | 0, _ => none
  | levels + 1, .punct .ampersand :: rest => do
    let (pointee, rest) ← tyWithin levels rest
    some (.pointer pointee, rest)
  | levels + 1, .punct .openParen :: rest => do
    let (signature, rest) ← signatureTail (tyWithin levels) rest
    some (signature.toTy, rest)
  | _ + 1, .ident name :: rest => some (if name = "int" then .int else .record name, rest)
  | _ + 1, _ => none

/-- Every level of nesting takes a token, so the token count bounds the levels. -/
def ty : Reader Ty := fun tokens => tyWithin tokens.length tokens

def signature : Reader Signature
  | .punct .openParen :: rest => signatureTail ty rest
  | _ => none

def operand : Reader Operand
  | .ident name :: rest => some (.var name, rest)
  | .number negative digits :: rest =>
    some (.const (.ofInt (Token.numberValue negative digits)), rest)
  | _ => none

def ident : Reader String
  | .ident name :: rest => some (name, rest)
  | _ => none

def typedName : Reader (String × Ty)
  | .ident name :: .punct .colon :: rest => do
    let (type, rest) ← ty rest
    some ((name, type), rest)
  | _ => none

def operands : List Token → List Operand × List Token := listOrNone isComma operand

def allocId : List Token → Option String × List Token
  | .punct .openBracket :: .ident id :: .punct .closeBracket :: rest => (some id, rest)
  | .ident id :: rest => (some id, rest)
  | rest => (none, rest)

def continuation : List Token → Option String × List Token
  | .ident "then" :: .ident block :: rest => (some block, rest)
  | rest => (none, rest)

def call (dst : Option String) : Reader Op
  | .opcode word :: .ident callee :: .punct .openParen :: rest => do
    let kind ← CallKind.ofWord? word
    match operands rest with
    | (args, .punct .closeParen :: rest) =>
      let (next, rest) := continuation rest
      some (.call ⟨dst, kind, callee, args, next⟩, rest)
    | _ => none
  | _ => none

def assigned (dst : String) : Reader Op
  | .opcode "copy" :: rest => do
    let (src, rest) ← operand rest
    some (.copy dst src, rest)
  | .opcode "arith" :: .ident name :: rest => do
    let op ← ArithOp.ofName? name
    let (lhs, rest) ← operand rest
    let (rhs, rest) ← operand rest
    some (.arith dst op lhs rhs, rest)
  | .opcode "cmp" :: .ident name :: rest => do
    let op ← CmpOp.ofName? name
    let (lhs, rest) ← operand rest
    let (rhs, rest) ← operand rest
    some (.cmp dst op lhs rhs, rest)
  | .opcode "gep" :: .ident base :: rest => do
    let (index, rest) ← operand rest
    some (.gep dst base index, rest)
  | .opcode "gfp" :: .ident base :: .ident field :: rest => some (.gfp dst base field, rest)
  | .opcode "alloc" :: rest => do
    let (size, rest) ← operand rest
    let (id, rest) := allocId rest
    some (.alloc dst size id, rest)
  | .opcode "addrof" :: .ident src :: rest => some (.addrOf dst src, rest)
  | .opcode "load" :: .ident src :: rest => some (.load dst src, rest)
  | tokens => call (some dst) tokens

def ret (tokens : List Token) : Line × List Token :=
  match operand tokens with
  | some (value, rest) => (.term (.ret (some value)), rest)
  | none => (.term (.ret none), tokens)

def instruction : Reader Line
  | .ident dst :: .punct .equals :: rest => do
    let (operation, rest) ← assigned dst rest
    some (.op operation, rest)
  | .opcode "store" :: .ident dst :: rest => do
    let (value, rest) ← operand rest
    some (.op (.store dst value), rest)
  | .opcode "jump" :: .ident target :: rest => some (.term (.jump target), rest)
  | .opcode "branch" :: rest => do
    let (cond, rest) ← operand rest
    let (thenBlock, rest) ← ident rest
    let (elseBlock, rest) ← ident rest
    some (.term (.branch cond thenBlock elseBlock), rest)
  | .opcode "ret" :: rest => some (ret rest)
  | .ident "ret" :: rest => some (ret rest)
  | tokens => do
    let (operation, rest) ← call none tokens
    some (.op operation, rest)

def recordHeader : Reader Line
  | .ident "struct" :: .ident name :: .punct .openBrace :: rest =>
    let (fields, after) := listOrNone isSeparator typedName rest
    match if fields.isEmpty then after else dropSeparator after with
    | .punct .closeBrace :: rest => some (.recordHeader name fields true, rest)
    | _ => some (.recordHeader name [] false, rest)
  | _ => none

def headerResult : List Token → Option Ty × List Token
  | .punct .arrow :: rest => (result ty rest).getD (none, .punct .arrow :: rest)
  | rest => (none, rest)

def functionHeader : Reader Line
  | .ident "fn" :: .ident name :: .punct .openParen :: rest =>
    match listOrNone isComma typedName rest with
    | (params, .punct .closeParen :: rest) =>
      match headerResult rest with
      | (result, .punct .openBrace :: rest) => some (.functionHeader name params result, rest)
      | _ => none
    | _ => none
  | _ => none

def external : Reader Line
  | .ident "extern" :: .ident name :: .punct .colon :: rest => do
    let (signature, rest) ← signature rest
    some (.external name signature, rest)
  | _ => none

def locals : Reader Line
  | .ident "let" :: rest => do
    let (names, rest) ← list isComma typedName rest
    some (.locals names, dropSeparator rest)
  | _ => none

def close : Reader Line
  | .punct .closeBrace :: rest => some (.close, rest)
  | _ => none

def label : Reader Line
  | .ident name :: .punct .colon :: rest => some (.label name, rest)
  | _ => none

def declaration : Reader Line := fun tokens => do
  let ((name, type), rest) ← typedName tokens
  some (.declaration name type, dropSeparator rest)

def blank : Reader Line := fun tokens => some (.blank, tokens)

/-- The kinds of line, in the order in which they are tried. `blank` takes no token, so it is
complete only on an empty line. -/
def kinds : List (Reader Line) :=
  [recordHeader, functionHeader, external, locals, close, instruction, label, declaration, blank]

def complete (reader : Reader α) (tokens : List Token) : Option α :=
  match reader tokens with
  | some (value, []) => some value
  | _ => none

end Reader

namespace Line

def ofTokens? (tokens : List Token) : Option Line :=
  Reader.kinds.findSome? fun reader => reader.complete tokens

/-- The line that a text holds. Of several literals that do not fit, the first is reported. -/
def read (text : String) : Except LineError Line :=
  match Token.scan text.toList with
  | none => .error .malformed
  | some tokens =>
    match ofTokens? tokens with
    | none => .error .malformed
    | some line =>
      -- Numbers stand only where operands do, so these are the literals of the line in order.
      match tokens.findSome? Token.outOfRange? with
      | some literal => .error (.integerOutOfRange literal)
      | none => .ok line

end Line

end Lir
