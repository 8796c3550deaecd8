/-!
Types of the intermediate language, and signatures of what can be called.

Types have a total order: `int`, then records by name, then pointers by pointee, then functions
by parameters and result. It is the order of `Ty.orderKey`, a sequence of texts that no other
type's sequence begins with, so comparing sequences compares types part by part.
-/

set_option autoImplicit false

namespace Lir

inductive Ty where
  | int
  | record (name : String)
  | pointer (pointee : Ty)
  | function (params : List Ty) (result : Option Ty)

/-- What a callee takes and returns; no result is written `_`. -/
structure Signature where
  params : List Ty
  result : Option Ty

namespace Ty

mutual
/-- The sequence that places a type in the order of types. -/
def orderKey : Ty → List String
  | .int => ["0"]
  | .record name => ["1", name]
  | .pointer pointee => "2" :: pointee.orderKey
  | .function params result => "3" :: (orderKeyParams params ++ orderKeyResult result)

def orderKeyParams : List Ty → List String
  | [] => ["0"]
  | param :: rest => "1" :: (param.orderKey ++ orderKeyParams rest)

def orderKeyResult : Option Ty → List String
  | none => ["0"]
  | some result => "1" :: result.orderKey
end

mutual
/-- No type's sequence begins with another's. -/
theorem orderKey_append_inj : (a b : Ty) → (r s : List String) →
    a.orderKey ++ r = b.orderKey ++ s → a = b ∧ r = s
  | .int, b, r, s, same => by cases b <;> simp_all [orderKey]
  | .record name, b, r, s, same => by cases b <;> simp_all [orderKey]
  | .pointer a, b, r, s, same => by
    cases b with
    | pointer b =>
      simp only [orderKey, List.cons_append, List.cons.injEq, true_and] at same
      have := orderKey_append_inj a b r s same
      simp [this]
    | _ => simp [orderKey] at same
  | .function params result, b, r, s, same => by
    cases b with
    | function params' result' =>
      simp only [orderKey, List.cons_append, List.append_assoc, List.cons.injEq, true_and] at same
      have first := orderKeyParams_append_inj params params' _ _ same
      have second := orderKeyResult_append_inj result result' r s first.2
      simp [first.1, second]
    | _ => simp [orderKey] at same

theorem orderKeyParams_append_inj : (a b : List Ty) → (r s : List String) →
    orderKeyParams a ++ r = orderKeyParams b ++ s → a = b ∧ r = s
  | [], b, r, s, same => by cases b <;> simp_all [orderKeyParams]
  | param :: rest, b, r, s, same => by
    cases b with
    | nil => simp [orderKeyParams] at same
    | cons param' rest' =>
      simp only [orderKeyParams, List.cons_append, List.append_assoc, List.cons.injEq,
        true_and] at same
      have first := orderKey_append_inj param param' _ _ same
      have second := orderKeyParams_append_inj rest rest' r s first.2
      simp [first.1, second]

theorem orderKeyResult_append_inj : (a b : Option Ty) → (r s : List String) →
    orderKeyResult a ++ r = orderKeyResult b ++ s → a = b ∧ r = s
  | none, b, r, s, same => by cases b <;> simp_all [orderKeyResult]
  | some result, b, r, s, same => by
    cases b with
    | none => simp [orderKeyResult] at same
    | some result' =>
      simp only [orderKeyResult, List.cons_append, List.cons.injEq, true_and] at same
      have := orderKey_append_inj result result' r s same
      simp [this]
end

theorem orderKey_inj {a b : Ty} (same : a.orderKey = b.orderKey) : a = b :=
  (orderKey_append_inj a b [] [] (by simp [same])).1

-- An order on keys is lawful because keys are: transitivity and the rest come from lists of
-- texts, and only injectivity has to be shown for types.
instance : Ord Ty := ⟨compareOn orderKey⟩

instance : Std.TransOrd Ty := inferInstanceAs (Std.TransCmp (compareOn orderKey))

instance : Std.LawfulEqOrd Ty where
  eq_of_compare same := orderKey_inj (Std.LawfulEqOrd.eq_of_compare same)

instance : DecidableEq Ty := fun _ _ =>
  decidable_of_iff _ Std.LawfulEqOrd.compare_eq_iff_eq

instance : Inhabited Ty := ⟨.int⟩

def isInt : Ty → Bool
  | .int => true
  | _ => false

def isPointer : Ty → Bool
  | .pointer _ => true
  | _ => false

def pointee? : Ty → Option Ty
  | .pointer pointee => some pointee
  | _ => none

/-- Function types, and pointers to pointers to one. They never name a memory cell. -/
def endsInFunction : Ty → Bool
  | .function _ _ => true
  | .pointer pointee => pointee.endsInFunction
  | .int | .record _ => false

/-- The signature of a callee declared with this type, through any number of pointers. -/
def signature? : Ty → Option Signature
  | .function params result => some ⟨params, result⟩
  | .pointer pointee => pointee.signature?
  | .int | .record _ => none

mutual
def mangled : Ty → String
  | .int => "int"
  | .record name => name
  | .pointer pointee => "ptr_" ++ pointee.mangled
  | .function params result =>
    "fn_" ++ "_".intercalate (mangledParams params) ++ "_to_" ++ mangledResult result

def mangledParams : List Ty → List String
  | [] => []
  | param :: rest => param.mangled :: mangledParams rest

def mangledResult : Option Ty → String
  | none => "void"
  | some result => result.mangled
end

end Ty

namespace Signature

deriving instance DecidableEq for Signature

def toTy (signature : Signature) : Ty := .function signature.params signature.result

def exposed (signature : Signature) : List Ty := signature.params.filterMap Ty.pointee?

end Signature

end Lir
