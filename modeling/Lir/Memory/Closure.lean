import Lir.Program
import Lir.Sorted

/-!
The types reachable from a type through pointees and record fields.

Function types, and pointers that end in one, are never part of a closure and are not followed.
-/

set_option autoImplicit false

namespace Lir

namespace Ty

def parts (records : Table RecordDef) : Ty → List Ty
  | .pointer pointee => [pointee]
  | .record name =>
    match records.get? name with
    | some definition => definition.fields.values
    | none => []
  | .int | .function _ _ => []

def layers : Ty → Nat
  | .pointer pointee => pointee.layers + 1
  | .int | .record _ | .function _ _ => 0

def closeSteps (records : Table RecordDef) : Nat → List Ty → TySet → TySet
  | 0, _, seen => seen
  | _ + 1, [], seen => seen
  | steps + 1, ty :: rest, seen =>
    if ty.endsInFunction || ty ∈ seen then closeSteps records steps rest seen
    else closeSteps records steps (ty.parts records ++ rest) (seen.insert ty)

/-- Types to look at: the root, each field, and each pointee inside those. -/
def closureBound (records : Table RecordDef) (root : Ty) : Nat :=
  (records.values.flatMap fun r => r.fields.values).foldr
    (fun ty total => ty.layers + 1 + total) (1 + root.layers)

def closure (records : Table RecordDef) (root : Ty) : TySet :=
  closeSteps records (closureBound records root) [root] ∅

/-- The closure of a root, looked up among those known already or computed and remembered. -/
def closureKnown (records : Table RecordDef) (known : TyMap TySet) (root : Ty) :
    TySet × TyMap TySet :=
  match known[root]? with
  | some types => (types, known)
  | none =>
    let types := root.closure records
    (types, known.insert root types)

def closures (records : Table RecordDef) (known : TyMap TySet) : List Ty → List TySet
  | [] => []
  | root :: rest =>
    let (types, known) := closureKnown records known root
    types :: closures records known rest

end Ty

end Lir
