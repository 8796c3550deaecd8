import Lir.Json.Program
import Lir.Report
import Lir.Source.Loader

/-!
Requests: which function to analyse, by which analyses, and how to report.

A request has a JSON form in which anything may be left out, and running it gives the reports in
the order in which they were asked for.
-/

set_option autoImplicit false

namespace Lir

inductive AnalysisKind where
  | reachingDefs
  | frontiers
  | dominators
  | constants
  deriving DecidableEq

inductive WordError where
  | unknownAnalysis (word : String)
  | unknownFormat (word : String)
  deriving DecidableEq

namespace WordError

def message : WordError → String
  | .unknownAnalysis word => "unknown analysis: " ++ word
  | .unknownFormat word => "unknown output format: " ++ word

end WordError

def lowercase (text : String) : String := .ofList (text.toList.map Char.toLower)

namespace AnalysisKind

def name : AnalysisKind → String
  | .reachingDefs => "rdef"
  | .frontiers => "dom"
  | .dominators => "dominators"
  | .constants => "constants"

def all : List AnalysisKind := [.reachingDefs, .frontiers, .dominators, .constants]

def ofWord (word : String) : Except WordError AnalysisKind :=
  match all.find? fun kind => kind.name = lowercase word with
  | some kind => .ok kind
  | none => .error (.unknownAnalysis (lowercase word))

def decode : Json.Decoder AnalysisKind := Json.named name all

end AnalysisKind

namespace ReportFormat

def ofWord (word : String) : Except WordError ReportFormat :=
  match all.find? fun format => format.name = lowercase word with
  | some format => .ok format
  | none => .error (.unknownFormat (lowercase word))

def decode : Json.Decoder ReportFormat := Json.named name all

end ReportFormat

namespace ReportOptions

def default : ReportOptions := ⟨.text, false⟩

def toJson (options : ReportOptions) : Json :=
  .record [("format", .str options.format.name), ("include_empty", .bool options.includeEmpty)]

def decode : Json.Decoder ReportOptions := fun levels value => do
  match ← Json.allFields ["format", "include_empty"] levels value with
  | ([format, includeEmpty], levels) => do
    let format ← Json.required ReportFormat.decode levels format
    let includeEmpty ← Json.required Json.boolean levels includeEmpty
    some ⟨format, includeEmpty⟩
  | _ => none

end ReportOptions

structure Request where
  function : String
  analyses : List AnalysisKind
  options : ReportOptions
  deriving DecidableEq

namespace Request

def defaultFunction : String := "test"

def default : Request := ⟨defaultFunction, [.reachingDefs], .default⟩

/-- Ask for a function by name; an empty name asks for the default one. -/
def about (r : Request) (name : String) : Request :=
  { r with function := if name.isEmpty then defaultFunction else name }

def toJson (r : Request) : Json :=
  .record [
    ("function", .str r.function),
    ("analyses", .ofList (fun kind => .str kind.name) r.analyses),
    ("report", r.options.toJson)]

def decode : Json.Decoder Request := fun levels value => do
  match ← Json.fields ["function", "analyses", "report"] 0 levels value with
  | ([function, analyses, options], levels) => do
    let function ← Json.defaulting Json.string default.function levels function
    let analyses ←
      Json.defaulting (Json.list AnalysisKind.decode) default.analyses levels analyses
    let options ← Json.defaulting ReportOptions.decode default.options levels options
    some ⟨function, analyses, options⟩
  | _ => none

def ofJsonText? (text : String) : Option Request := (Json.parse text).bind (decode Json.maxDepth)

def analyse (ctx : Context) (includeEmpty : Bool) : AnalysisKind → Report
  | .reachingDefs => .ofReachingDefs (.compute ctx) includeEmpty
  | .frontiers => .ofBlockSets (Dominance.build ctx.graph).frontiers
  | .dominators => .ofBlockSets (Dominance.build ctx.graph).dominators
  | .constants => .ofConstants (Constants.endValues ctx (Constants.solve ctx)) includeEmpty

def report (r : Request) (ctx : Context) : String :=
  String.join (r.analyses.map fun kind =>
    (analyse ctx r.options.includeEmpty kind).render r.options.format)

def answer (r : Request) (p : Program) : Except ContextError String :=
  (Context.build p r.function).map r.report

def answerSource (r : Request) (source : String) : Except ContextError String :=
  r.answer (Program.load source).1

end Request

end Lir
