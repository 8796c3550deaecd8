import Lir.Proofs.Entries
import Lir.Proofs.WellFormed
import Lir.Program
import Lir.Source.Line

/-!
What a source can spell.

A source spells names by identifiers, and it has no word for a record named `int` nor for a result
that is the record `_`: the one reads as the integers, the other as no result.
-/

set_option autoImplicit false

namespace Lir

/-- A letter or underscore, then letters, digits and underscores. -/
def isIdentifier (name : String) : Bool :=
  match name.toList with
  | [] => false
  | c :: rest => Token.isNameStart c && rest.all Token.isWordChar

theorem isIdentifier_iff (name : String) :
    isIdentifier name ↔ ∃ c rest, name.toList = c :: rest ∧ Token.isNameStart c = true ∧
      ∀ d ∈ rest, Token.isWordChar d = true := by
  rw [isIdentifier]
  cases name.toList with
  | nil => simp
  | cons c rest =>
    simp only [Bool.and_eq_true, List.all_eq_true]
    exact ⟨fun spelled => ⟨c, rest, rfl, spelled⟩,
      fun ⟨_, _, same, spelled⟩ => by rwa [(List.cons.inj same).1, (List.cons.inj same).2]⟩

/-- Types that a source can spell. -/
inductive Ty.Writable : Ty → Prop where
  | int : Writable .int
  | record {name : String} (identifier : isIdentifier name) (not_int : name ≠ "int") :
      Writable (.record name)
  | pointer {pointee : Ty} (writable : Writable pointee) : Writable (.pointer pointee)
  | function {params : List Ty} {result : Option Ty}
      (params_writable : ∀ param ∈ params, Writable param)
      (result_writable : ∀ type ∈ result, Writable type)
      (result_not_blank : ∀ type ∈ result, type ≠ .record "_") :
      Writable (.function params result)

structure WritableResult (result : Option Ty) : Prop where
  writable : ∀ type ∈ result, type.Writable
  not_blank : ∀ type ∈ result, type ≠ .record "_"

structure WritableTyped (name : String) (ty : Ty) : Prop where
  identifier : isIdentifier name
  writable : ty.Writable

namespace Op

def names : Op → List String
  | .copy dst src => dst :: src.name?.toList
  | .arith dst _ lhs rhs | .cmp dst _ lhs rhs => dst :: (lhs.name?.toList ++ rhs.name?.toList)
  | .gep dst base index => dst :: base :: index.name?.toList
  | .gfp dst base field => [dst, base, field]
  | .alloc dst size id => dst :: (size.name?.toList ++ id.toList)
  | .addrOf dst src | .load dst src => [dst, src]
  | .store dst value => dst :: value.name?.toList
  | .call site =>
    site.dst.toList ++ site.callee :: (site.args.filterMap Operand.name? ++ site.next.toList)

end Op

namespace Terminator

def names : Terminator → List String
  | .jump target => [target]
  | .branch cond thenBlock elseBlock => cond.name?.toList ++ [thenBlock, elseBlock]
  | .ret value => value.toList.filterMap Operand.name?

end Terminator

def Instruction.names : Instruction → List String
  | .op _ _ operation => operation.names
  | .term _ terminator => terminator.names

def Identifiers (names : List String) : Prop := ∀ name ∈ names, isIdentifier name

@[simp] theorem identifiers_nil : Identifiers [] := fun _ member => absurd member List.not_mem_nil

@[simp] theorem identifiers_cons (name : String) (names : List String) :
    Identifiers (name :: names) ↔ isIdentifier name ∧ Identifiers names :=
  List.forall_mem_cons

@[simp] theorem identifiers_append (names others : List String) :
    Identifiers (names ++ others) ↔ Identifiers names ∧ Identifiers others :=
  List.forall_mem_append

@[simp] theorem identifiers_toList (name : Option String) :
    Identifiers name.toList ↔ ∀ n ∈ name, isIdentifier n := by
  simp [Identifiers]

@[simp] theorem identifiers_filterMap {α : Type} (name? : α → Option String) (items : List α) :
    Identifiers (items.filterMap name?) ↔
      ∀ item ∈ items, ∀ name ∈ name? item, isIdentifier name := by
  simp only [Identifiers, List.mem_filterMap, Option.mem_def]
  exact ⟨fun all item member name found => all name ⟨item, member, found⟩,
    fun all name ⟨item, member, found⟩ => all item member name found⟩

/-- Blocks that a source can spell: also, their instructions stand where their points say. -/
structure Block.Writable (b : Block) : Prop where
  identifier : isIdentifier b.name
  wellFormed : b.WellFormed
  instructions : ∀ inst ∈ b.instructions, Identifiers inst.names

structure Function.Writable (f : Function) : Prop where
  identifier : isIdentifier f.name
  params : ∀ param ∈ f.params, WritableTyped param.name param.ty
  result : WritableResult f.result
  locals : f.locals.Each WritableTyped
  blocks : f.blocks.Each fun name block => block.name = name ∧ block.Writable

structure RecordDef.Writable (r : RecordDef) : Prop where
  identifier : isIdentifier r.name
  fields : r.fields.Each WritableTyped

/-- Programs that a source can spell: also, everything stands under its own name. -/
structure Program.Writable (p : Program) : Prop where
  records : p.records.Each fun name definition => definition.name = name ∧ definition.Writable
  globals : p.globals.Each WritableTyped
  externs : p.externs.Each fun name signature => WritableTyped name signature.toTy
  functions : p.functions.Each fun name function => function.name = name ∧ function.Writable

end Lir
