import Lir.Constants
import Lir.Flow.Dominance
import Lir.Json.Value
import Lir.Reaching
import Lir.Source.Printer

/-!
Reports on the results of an analysis: rows under sorted keys, as text or as JSON.
-/

set_option autoImplicit false

namespace Lir

inductive ReportFormat where
  | text
  | json
  deriving DecidableEq

namespace ReportFormat

def name : ReportFormat → String
  | .text => "text"
  | .json => "json"

def all : List ReportFormat := [.text, .json]

end ReportFormat

structure ReportOptions where
  format : ReportFormat
  includeEmpty : Bool
  deriving DecidableEq

def rowLine (key : String) (items : List String) : String :=
  key ++ " -> \x7b" ++ ", ".intercalate items ++ "\x7d"

inductive Report where
  | sets (rows : List (String × List String))
  | values (rows : List (String × List (String × String)))
  deriving DecidableEq

namespace Report

def lines : Report → List String
  | .sets rows => rows.map fun row => rowLine row.1 row.2
  | .values rows =>
    rows.map fun row => rowLine row.1 (row.2.map fun value => value.1 ++ " -> " ++ value.2)

def toJson : Report → Json
  | .sets rows => .record (rows.map fun row => (row.1, .array (row.2.map .str)))
  | .values rows =>
    .record (rows.map fun row => (row.1, .record (row.2.map fun value => (value.1, .str value.2))))

def render (report : Report) : ReportFormat → String
  | .text => renderLines report.lines
  | .json => renderLines [report.toJson.renderIndented 0]

def ofReachingDefs (result : ReachingDefs) (includeEmpty : Bool) : Report :=
  let kept := result.solution.toList.filter fun row => includeEmpty || !row.2.isEmpty
  -- Points are sorted by number and rows by text, so rows are entered again under their keys.
  let rows := kept.foldl
    (fun (rows : NameMap NameSet) row =>
      rows.insert row.1.render (.ofNames (row.2.toList.map Point.render)))
    ∅
  .sets (rows.toList.map fun row => (row.1, row.2.toList))

def ofBlockSets (sets : NameMap NameSet) : Report :=
  .sets (sets.toList.map fun row => (row.1, row.2.toList))

def ofConstants (rows : List (String × List (String × FlatInt))) (includeEmpty : Bool) :
    Report :=
  .values ((rows.filter fun row => includeEmpty || !row.2.isEmpty).map fun row =>
    (row.1, row.2.map fun value => (value.1, value.2.render)))

end Report

end Lir
