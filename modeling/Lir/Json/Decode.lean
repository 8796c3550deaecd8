import Lir.Json.Value
import Lir.Table

/-!
Reading values out of JSON.

A decoder is given how many levels of arrays and objects it may still enter. Records may be
written as objects, in any order and with unknown members skipped, or as arrays of all their
fields; a tagged value is a name alone, or an object whose only member has that name.
-/

set_option autoImplicit false

namespace Lir.Json

/-- Reads a value that nests no deeper than the given number of levels. -/
abbrev Decoder (α : Type) := Nat → Json → Option α

variable {α : Type}

def maxDepth : Nat := 127

def string : Decoder String
  | _, .text value => value
  | _, _ => none

def boolean : Decoder Bool
  | _, .bool value => some value
  | _, _ => none

def integerIn (low high : Int) : Decoder Int
  | _, .integer value => if low ≤ value ∧ value ≤ high then some value else none
  | _, _ => none

def nullable (decode : Decoder α) : Decoder (Option α)
  | _, .null => some none
  | levels, value => (decode levels value).map some

def list (decode : Decoder α) : Decoder (List α)
  | levels + 1, .array items => items.mapM (decode levels)
  | _, _ => none

def entry (decode : Decoder α) (levels : Nat) (member : Option String × Json) :
    Option (String × α) := do
  let name ← member.1
  let value ← decode levels member.2
  some (name, value)

/-- Members entered one after the other; a repeated name keeps its first place and takes its last
value. -/
def table (decode : Decoder α) : Decoder (Table α)
  | levels + 1, .object members => (members.mapM (entry decode levels)).map Table.ofList
  | _, _ => none

def membersNamed (name : String) (members : List (Option String × Json)) : List Json :=
  (members.filter fun member => member.1 = some name).map Prod.snd

/-- The values of named fields in the order of the names, and the levels left inside. A field that
an object does not mention is missing; a field mentioned twice is an error, and so is a member
whose name is no string. An array holds at least the given number of fields, in order. -/
def fields (names : List String) (fewest : Nat) : Decoder (List (Option Json) × Nat)
  | levels + 1, .object members =>
    if members.any fun member => member.1.isNone then none
    else
      (names.mapM fun name =>
        match membersNamed name members with
        | [] => some none
        | [value] => some (some value)
        | _ => none).map (·, levels)
  | levels + 1, .array items =>
    if fewest ≤ items.length ∧ items.length ≤ names.length then
      some (items.map some ++ List.replicate (names.length - items.length) none, levels)
    else none
  | _, _ => none

def allFields (names : List String) : Decoder (List (Option Json) × Nat) :=
  fields names names.length

def required (decode : Decoder α) (levels : Nat) (field : Option Json) : Option α :=
  field.bind (decode levels)

def optional (decode : Decoder α) (levels : Nat) : Option Json → Option (Option α)
  | none => some none
  | some value => nullable decode levels value

def defaulting (decode : Decoder α) (default : α) (levels : Nat) : Option Json → Option α
  | none => some default
  | some value => decode levels value

/-- The name of a tagged value, its content if there is any, and the levels left inside. -/
def tagged : Decoder (String × Option Json × Nat)
  | levels, .text name => name.map (·, none, levels)
  | levels + 1, .object [(name, content)] => name.map (·, some content, levels)
  | _, _ => none

def unit (value : α) : Option Json → Option α
  | none | some .null => some value
  | some _ => none

def named (name : α → String) (values : List α) : Decoder α := fun levels value => do
  let (tag, content, _) ← tagged levels value
  let found ← values.find? fun candidate => name candidate = tag
  unit found content

end Lir.Json
