import Lir.Program
import Lir.Source.Blank
import Lir.Source.Line

/-!
A program from its source text.

The text is read line by line. A line either moves the loading one step on or is refused; a
refused line changes nothing and leaves a warning. What stays open at the end is kept, with a
warning of its own.
-/

set_option autoImplicit false

namespace Lir

inductive Place where
  | top
  | inRecord (definition : RecordDef)
  /-- Inside a function, and in the block of the last label if there was one. -/
  | inFunction (function : Function) (block : Option String)

structure Loading where
  program : Program
  place : Place

inductive InstructionKind where
  | operation
  | terminator
  deriving DecidableEq

inductive Refusal where
  | misplaced
  | outsideBlock (kind : InstructionKind)
  | blockError (kind : InstructionKind) (error : BlockError)
  deriving DecidableEq

inductive Warning where
  | malformed (line : Nat) (text : String) (error : LineError)
  | refused (line : Nat) (text : String) (refusal : Refusal)
  | unclosedRecord (name : String)
  | unclosedFunction (name : String)
  deriving DecidableEq

namespace Warning

def message : Warning → String
  | .malformed _ _ _ => "skipping malformed line"
  | .refused _ _ .misplaced => "line not valid here, skipping"
  | .refused _ _ (.outsideBlock .operation) => "instruction outside a block"
  | .refused _ _ (.outsideBlock .terminator) => "terminator outside a block"
  | .refused _ _ (.blockError .operation _) => "skipping instruction"
  | .refused _ _ (.blockError .terminator _) => "skipping terminator"
  | .unclosedRecord _ => "struct not closed at end of input"
  | .unclosedFunction _ => "function not closed at end of input"

def line? : Warning → Option Nat
  | .malformed line _ _ | .refused line _ _ => some line
  | .unclosedRecord _ | .unclosedFunction _ => none

def text? : Warning → Option String
  | .malformed _ text _ | .refused _ text .misplaced | .refused _ text (.outsideBlock _) =>
    some text
  | _ => none

def error? : Warning → Option String
  | .malformed _ _ error => some error.message
  | .refused _ _ (.blockError _ error) => some error.message
  | _ => none

def name? : Warning → Option String
  | .unclosedRecord name | .unclosedFunction name => some name
  | _ => none

def render (w : Warning) : String :=
  "WARN " ++ w.message ++ field "line" (w.line?.map toString) ++ field "text" w.text? ++
    field "error" w.error? ++ field "name" w.name?
where
  field (name : String) : Option String → String
    | some value => " " ++ name ++ "=" ++ value
    | none => ""

end Warning

namespace Loading

def start : Loading := ⟨.empty, .top⟩

def addToBlock (s : Loading) (f : Function) (block : Option String) (kind : InstructionKind)
    (step : Block → Except BlockError (Point × Block)) : Except Refusal Loading :=
  match block with
  | none => .error (.outsideBlock kind)
  | some name =>
    match f.updateBlock name step with
    | .error error => .error (.blockError kind error)
    | .ok f => .ok { s with place := .inFunction f block }

def accept (s : Loading) : Line → Except Refusal Loading
  | .blank => .ok s
  | .recordHeader name fields closed =>
    match s.place with
    | .top =>
      let definition := RecordDef.ofFields name fields
      if closed then .ok { s with program := s.program.defineRecord definition }
      else .ok { s with place := .inRecord definition }
    | _ => .error .misplaced
  | .functionHeader name params result =>
    match s.place with
    | .top =>
      let params := params.map fun param => ⟨param.1, param.2⟩
      .ok { s with place := .inFunction { Function.empty name with params, result } none }
    | _ => .error .misplaced
  | .external name signature =>
    match s.place with
    | .top => .ok { s with program := s.program.declareExternal name signature }
    | _ => .error .misplaced
  | .declaration name ty =>
    match s.place with
    | .top => .ok { s with program := s.program.declareGlobal name ty }
    | .inRecord definition => .ok { s with place := .inRecord (definition.addField name ty) }
    | .inFunction _ _ => .error .misplaced
  | .locals names =>
    match s.place with
    | .inFunction f block =>
      .ok { s with place := .inFunction { f with locals := f.locals.insertAll names } block }
    | _ => .error .misplaced
  | .label name =>
    match s.place with
    | .inFunction f _ => .ok { s with place := .inFunction (f.openBlock name) (some name) }
    | _ => .error .misplaced
  | .close =>
    match s.place with
    | .top => .error .misplaced
    | .inRecord definition => .ok ⟨s.program.defineRecord definition, .top⟩
    | .inFunction f _ => .ok ⟨s.program.define f, .top⟩
  | .op operation =>
    match s.place with
    | .inFunction f block => s.addToBlock f block .operation (·.addOp operation)
    | _ => .error .misplaced
  | .term terminator =>
    match s.place with
    | .inFunction f block => s.addToBlock f block .terminator (·.setTerm terminator)
    | _ => .error .misplaced

/-- Read one trimmed line. An empty or refused line leaves everything as it is. -/
def readLine (s : Loading) (number : Nat) (text : String) : Loading × Option Warning :=
  match Line.read text with
  | .error error => (s, some (.malformed number text error))
  | .ok line =>
    match s.accept line with
    | .error refusal => (s, some (.refused number text refusal))
    | .ok next => (next, none)

def readLines (s : Loading) (number : Nat) : List String → Loading × List Warning
  | [] => (s, [])
  | text :: rest =>
    let (next, warning) := s.readLine number text
    let (last, warnings) := next.readLines (number + 1) rest
    (last, warning.toList ++ warnings)

def finish (s : Loading) : Program × Option Warning :=
  match s.place with
  | .top => (s.program, none)
  | .inRecord definition =>
    (s.program.defineRecord definition, some (.unclosedRecord definition.name))
  | .inFunction f _ => (s.program.define f, some (.unclosedFunction f.name))

end Loading

def sourceLines (source : String) : List String :=
  (splitLines source.toList).map fun line => .ofList (trimBlanks line)

namespace Program

def load (source : String) : Program × List Warning :=
  let (last, warnings) := Loading.start.readLines 1 (sourceLines source)
  let (program, warning) := last.finish
  (program, warnings ++ warning.toList)

end Program

end Lir
