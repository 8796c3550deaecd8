import Lir.Request
import Lir.Source.File

/-!
The command line: its arguments, and what it prints for them.

Arguments are taken from left to right and the first that asks for help or the version, or that
is wrong, decides. Two dashes alone make everything after them a plain argument.
-/

set_option autoImplicit false

namespace Lir

inductive RunError where
  | file (error : FileError)
  | context (error : ContextError)
  deriving DecidableEq

namespace RunError

def message : RunError → String
  | .file error =>
    "cannot load " ++ error.path ++ ": " ++ error.message ++ ": " ++ error.cause.reason
  | .context error => error.message

end RunError

namespace Request

def answerFile (r : Request) (path : String) (contents : Except ReadError ByteArray) :
    Except RunError String :=
  match Program.loadFile path contents with
  | .error error => .error (.file error)
  | .ok (program, _) =>
    match r.answer program with
    | .error error => .error (.context error)
    | .ok text => .ok text

end Request

inductive Command where
  | help
  | version
  | misuse
  /-- Answer a request on the file at a path, and say first what is asked if `verbose`. -/
  | run (input : String) (request : Request) (verbose : Bool)

inductive ValueOption where
  | analysis
  | format
  deriving DecidableEq

structure Arguments where
  /-- Input, an unused second path, and a function name. -/
  plain : List String
  analysis : Option AnalysisKind
  format : Option ReportFormat
  includeEmpty : Bool
  verbose : Bool
  awaiting : Option ValueOption

namespace Arguments

def start : Arguments := ⟨[], none, none, false, false, none⟩

/-- Give an option its value: one of its words as they are written, and only once. -/
def setOption? (a : Arguments) (option : ValueOption) (value : String) : Option Arguments :=
  match option with
  | .analysis =>
    match a.analysis, AnalysisKind.all.find? (fun kind => kind.name = value) with
    | none, some kind => some { a with analysis := some kind, awaiting := none }
    | _, _ => none
  | .format =>
    match a.format, ReportFormat.all.find? (fun format => format.name = value) with
    | none, some format => some { a with format := some format, awaiting := none }
    | _, _ => none

def setIncludeEmpty? (a : Arguments) : Option Arguments :=
  if a.includeEmpty then none else some { a with includeEmpty := true }

/-- At most three plain arguments; the first two are paths and not empty. -/
def addPlain? (a : Arguments) (value : String) : Option Arguments :=
  match a.plain with
  | [] | [_] => if value.isEmpty then none else some { a with plain := a.plain ++ [value] }
  | [_, _] => some { a with plain := a.plain ++ [value] }
  | _ => none

def await (a : Arguments) (option : ValueOption) : Arguments := { a with awaiting := some option }

def finish (a : Arguments) : Command :=
  let request := fun (function : String) =>
    { Request.default.about function with
      analyses := [a.analysis.getD .reachingDefs]
      options := ⟨a.format.getD .text, a.includeEmpty⟩ }
  match a.awaiting, a.plain with
  | none, [input, _] => .run input (request "") a.verbose
  | none, [input, _, function] => .run input (request function) a.verbose
  | _, _ => .misuse

end Arguments

abbrev ArgumentStep := Except Command Arguments

namespace ArgumentStep

def ofOption : Option Arguments → ArgumentStep
  | some a => .ok a
  | none => .error .misuse

def long (a : Arguments) (name : String) (value : Option String) : ArgumentStep :=
  match name, value with
  | "analysis", some value => ofOption (a.setOption? .analysis value)
  | "analysis", none => .ok (a.await .analysis)
  | "format", some value => ofOption (a.setOption? .format value)
  | "format", none => .ok (a.await .format)
  | "include-empty", none => ofOption a.setIncludeEmpty?
  | "verbose", none => .ok { a with verbose := true }
  | "help", none => .error .help
  | "version", none => .error .version
  | _, _ => .error .misuse

/-- An option's value that follows its letter, with or without an equals sign. -/
def attached (a : Arguments) (option : ValueOption) : List Char → ArgumentStep
  | [] => .ok (a.await option)
  | '=' :: value => ofOption (a.setOption? option (.ofList value))
  | value => ofOption (a.setOption? option (.ofList value))

def short (a : Arguments) : List Char → ArgumentStep
  | [] => .ok a
  | 'v' :: rest => short { a with verbose := true } rest
  | 'h' :: _ => .error .help
  | 'V' :: _ => .error .version
  | 'a' :: rest => attached a .analysis rest
  | 'f' :: rest => attached a .format rest
  | _ :: _ => .error .misuse

def splitLong (text : List Char) : String × Option String :=
  match text.dropWhile (· ≠ '=') with
  | '=' :: value => (.ofList (text.takeWhile (· ≠ '=')), some (.ofList value))
  | _ => (.ofList text, none)

def option (a : Arguments) (argument : String) : ArgumentStep :=
  match argument.toList with
  | '-' :: '-' :: text =>
    let (name, value) := splitLong text
    long a name value
  | '-' :: c :: text => short a (c :: text)
  | _ => ofOption (a.addPlain? argument)

end ArgumentStep

namespace Command

def isOption (argument : String) : Bool :=
  match argument.toList with
  | '-' :: _ :: _ => true
  | _ => false

def readFrom (a : Arguments) : List String → Command
  | [] => a.finish
  | argument :: rest =>
    let step : ArgumentStep :=
      match a.awaiting with
      | some option =>
        if isOption argument then .error .misuse
        else .ofOption (a.setOption? option argument)
      | none => .option a argument
    -- An option that awaits its value does not take two dashes for it.
    if a.awaiting.isNone && argument = "--" then
      match rest.foldlM Arguments.addPlain? a with
      | some a => a.finish
      | none => .misuse
    else
      match step with
      | .ok a => readFrom a rest
      | .error command => command

def ofArguments (arguments : List String) : Command := readFrom .start arguments

end Command

structure Output where
  code : UInt8
  stdout : String
  stderr : String

namespace Output

def versionText : String := "lirflow 0.1.0\n"

def usageLine : String := "Usage: lirflow [OPTIONS] <INPUT> <SECONDARY> [FUNCTION]"

def helpText : String :=
  renderLines [
    "lirflow - dominance and reaching-definitions analysis for LIR programs",
    "",
    usageLine,
    "",
    "Arguments:",
    "  <INPUT>      LIR file to analyse",
    "  <SECONDARY>  Accepted for compatibility; not read",
    "  [FUNCTION]   Function to analyse; defaults to `test`",
    "",
    "Options:",
    "  -a, --analysis <ANALYSIS>  [default: rdef] " ++
      "[possible values: rdef, dom, dominators, constants]",
    "  -f, --format <FORMAT>      [default: text] [possible values: text, json]",
    "      --include-empty        Also print points and blocks with empty results",
    "  -v, --verbose...           Repeat for more log output on stderr",
    "  -h, --help                 Print help",
    "  -V, --version              Print version"]

def preamble (input : String) (request : Request) : List String :=
  [" lirflow",
    "==================================================",
    " Input: " ++ input,
    " Function: " ++ request.function,
    " Analysis: " ++ ", ".intercalate (request.analyses.map AnalysisKind.name),
    ""]

def warnings (request : Request) (path : String) (contents : Except ReadError ByteArray) :
    List String :=
  match Program.loadFile path contents with
  | .error _ => []
  | .ok (program, warnings) =>
    warnings.map Warning.render ++
      match Context.build program request.function with
      | .error _ => []
      | .ok ctx => ctx.function.danglingEdges.map DanglingEdge.render

def ofCommand (contents : String → Except ReadError ByteArray) : Command → Output
  | .help => ⟨0, helpText, ""⟩
  | .version => ⟨0, versionText, ""⟩
  | .misuse => ⟨1, "", renderLines ["error: invalid arguments", "", usageLine]⟩
  | .run input request verbose =>
    let log := (if verbose then preamble input request else []) ++
      warnings request input (contents input)
    match request.answerFile input (contents input) with
    | .ok text => ⟨0, text, renderLines log⟩
    | .error error => ⟨1, "", renderLines (log ++ ["error: " ++ error.message])⟩

end Output

end Lir
