import Lir.Proofs.Source.Loaded

/-!
Every name and every type in a loaded program.

The lists here are long on purpose: they leave nothing out, down to the types inside function types
and the blocks that jumps lead to. What a source can spell is a matter of each part on its own, so
what holds of the parts holds of all that the lists collect.
-/

set_option autoImplicit false

namespace Lir

/-! ### Types -/

namespace Ty

mutual
def within : Ty → List Ty
  | .int => [.int]
  | .record name => [.record name]
  | .pointer pointee => .pointer pointee :: pointee.within
  | .function params result =>
    .function params result :: (withinParams params ++ withinResult result)

def withinParams : List Ty → List Ty
  | [] => []
  | param :: rest => param.within ++ withinParams rest

def withinResult : Option Ty → List Ty
  | none => []
  | some result => result.within
end

def recordName? : Ty → Option String
  | .record name => some name
  | _ => none

def result? : Ty → Option Ty
  | .function _ result => result
  | _ => none

theorem mem_withinParams {params : List Ty} {ty : Ty} :
    ty ∈ withinParams params ↔ ∃ param ∈ params, ty ∈ param.within := by
  induction params with
  | nil => simp [withinParams]
  | cons param rest ih => simp [withinParams, ih]

theorem mem_withinResult {result : Option Ty} {ty : Ty} :
    ty ∈ withinResult result ↔ ∃ type ∈ result, ty ∈ type.within := by
  cases result <;> simp [withinResult]

theorem Writable.within {ty inner : Ty} (writable : ty.Writable) (member : inner ∈ ty.within) :
    inner.Writable := by
  induction writable with
  | int =>
    rw [List.mem_singleton.1 member]
    exact .int
  | record identifier not_int =>
    rw [List.mem_singleton.1 member]
    exact .record identifier not_int
  | pointer pointee ih =>
    rcases List.mem_cons.1 member with rfl | deeper
    · exact .pointer pointee
    · exact ih deeper
  | function params result result_not_blank params_ih result_ih =>
    rcases List.mem_cons.1 member with rfl | deeper
    · exact .function params result result_not_blank
    · rcases List.mem_append.1 deeper with in_params | in_result
      · obtain ⟨param, listed, deeper⟩ := mem_withinParams.1 in_params
        exact params_ih param listed deeper
      · obtain ⟨type, given, deeper⟩ := mem_withinResult.1 in_result
        exact result_ih type given deeper

theorem Writable.ne_record_int {ty : Ty} (writable : ty.Writable) : ty ≠ .record "int" := by
  rintro rfl
  cases writable with
  | record _ not_int => exact not_int rfl

theorem Writable.result_ne_blank {ty : Ty} (writable : ty.Writable) :
    ty.result? ≠ some (.record "_") := by
  intro blank
  cases writable with
  | function _ _ result_not_blank => exact result_not_blank _ blank rfl
  | _ => simp [result?] at blank

theorem Writable.recordName? {ty : Ty} (writable : ty.Writable) :
    ∀ name ∈ ty.recordName?, isIdentifier name := by
  intro name named
  cases writable with
  | record identifier _ => exact Option.some.inj named ▸ identifier
  | _ => simp [Ty.recordName?] at named

end Ty

/-! ### All types and names of a program -/

def Block.names (b : Block) : List String :=
  b.name :: b.instructions.flatMap fun inst => inst.block :: inst.names

namespace Function

def types (f : Function) : List Ty := f.signature.toTy :: f.locals.values

def names (f : Function) : List String :=
  f.name :: (f.params.map Param.name ++ f.locals.keys ++ f.blocks.keys ++
    f.blocks.values.flatMap Block.names)

end Function

namespace Program

/-- Every type in a program, those inside other types included. -/
def types (p : Program) : List Ty :=
  (p.records.values.flatMap (fun r => r.fields.values) ++ p.globals.values ++
    p.externs.values.map Signature.toTy ++ p.functions.values.flatMap Function.types).flatMap
    Ty.within

/-- Every name in a program: of records and their fields, globals, externs, functions, and what
stands in those. -/
def names (p : Program) : List String :=
  p.records.keys ++ p.records.values.flatMap (fun r => r.name :: r.fields.keys) ++
    p.globals.keys ++ p.externs.keys ++ p.functions.keys ++
    p.functions.values.flatMap Function.names ++ p.types.filterMap Ty.recordName?

/-- Everything stands under its own name and at its own point, every name is an identifier, and no
type is one that a source reads as another. -/
structure WellBuilt (p : Program) : Prop where
  record_named : ∀ name definition, p.records.get? name = some definition → definition.name = name
  function_named : ∀ name f, p.functions.get? name = some f → f.name = name
  wellFormed : ∀ name f, p.functions.get? name = some f → f.WellFormed
  points : ∀ name f, p.functions.get? name = some f →
    (f.instructions.map Instruction.point).Nodup
  identifiers : ∀ name ∈ p.names, isIdentifier name
  /-- The record would read as the integers. -/
  not_int : ∀ ty ∈ p.types, ty ≠ .record "int"
  /-- The result would read as none. -/
  not_blank : ∀ ty ∈ p.types, ty.result? ≠ some (.record "_")

end Program

/-! ### What a source can spell -/

namespace Table

variable {α : Type} {t : Table α} {P : String → α → Prop}

theorem Each.keys (each : t.Each P) {name : String} (member : name ∈ t.keys) :
    ∃ value, P name value := by
  obtain ⟨value, found⟩ := (t.mem_keys_iff name).1 member
  exact ⟨value, each.get? found⟩

theorem Each.values (each : t.Each P) {value : α} (member : value ∈ t.values) :
    ∃ name, P name value := by
  obtain ⟨entry, listed, rfl⟩ := List.mem_map.1 member
  exact ⟨entry.1, each entry listed⟩

end Table

@[simp] theorem identifiers_flatMap {α : Type} (names : α → List String) (items : List α) :
    Identifiers (items.flatMap names) ↔ ∀ item ∈ items, Identifiers (names item) := by
  unfold Identifiers
  simp only [List.mem_flatMap]
  constructor
  · intro all item listed name inside
    exact all name ⟨item, listed, inside⟩
  · rintro all name ⟨item, listed, inside⟩
    exact all item listed name inside

theorem Block.Writable.names {b : Block} (writable : b.Writable) : Identifiers b.names := by
  unfold Block.names
  rw [identifiers_cons, identifiers_flatMap]
  refine ⟨writable.identifier, fun inst member => ?_⟩
  rw [identifiers_cons, writable.wellFormed.owned inst member]
  exact ⟨writable.identifier, writable.instructions inst member⟩

namespace Function

variable {f : Function}

theorem Writable.types (writable : f.Writable) {ty : Ty} (member : ty ∈ f.types) :
    ty.Writable := by
  rcases List.mem_cons.1 member with rfl | in_locals
  · apply Ty.Writable.function
    · intro type listed
      obtain ⟨param, param_listed, rfl⟩ := List.mem_map.1 listed
      exact (writable.params param param_listed).writable
    · exact writable.result.writable
    · exact writable.result.not_blank
  · obtain ⟨name, spelled⟩ := writable.locals.values in_locals
    exact spelled.writable

theorem Writable.names (writable : f.Writable) : Identifiers f.names := by
  unfold Function.names
  simp only [identifiers_cons, identifiers_append]
  refine ⟨writable.identifier, ⟨⟨?_, ?_⟩, ?_⟩, ?_⟩
  · intro name member
    obtain ⟨param, listed, rfl⟩ := List.mem_map.1 member
    exact (writable.params param listed).identifier
  · intro name member
    obtain ⟨ty, spelled⟩ := writable.locals.keys member
    exact spelled.identifier
  · intro name member
    obtain ⟨block, same, block_writable⟩ := writable.blocks.keys member
    exact same ▸ block_writable.identifier
  · rw [identifiers_flatMap]
    intro block member
    obtain ⟨name, _, block_writable⟩ := writable.blocks.values member
    exact block_writable.names

end Function

namespace Program

variable {p : Program}

theorem Writable.types (writable : p.Writable) {ty : Ty} (member : ty ∈ p.types) :
    ty.Writable := by
  obtain ⟨outer, listed, inside⟩ := List.mem_flatMap.1 member
  refine Ty.Writable.within ?_ inside
  simp only [List.mem_append, List.mem_flatMap] at listed
  rcases listed with ((⟨r, in_records, field⟩ | global) | external) | ⟨f, in_functions, typed⟩
  · obtain ⟨name, _, definition⟩ := writable.records.values in_records
    obtain ⟨field_name, spelled⟩ := definition.fields.values field
    exact spelled.writable
  · obtain ⟨name, spelled⟩ := writable.globals.values global
    exact spelled.writable
  · obtain ⟨signature, in_externs, rfl⟩ := List.mem_map.1 external
    obtain ⟨name, spelled⟩ := writable.externs.values in_externs
    exact spelled.writable
  · obtain ⟨name, _, function⟩ := writable.functions.values in_functions
    exact function.types typed

theorem Writable.names (writable : p.Writable) : Identifiers p.names := by
  unfold Program.names
  simp only [identifiers_append, identifiers_filterMap]
  refine ⟨⟨⟨⟨⟨⟨?_, ?_⟩, ?_⟩, ?_⟩, ?_⟩, ?_⟩, ?_⟩
  · intro name member
    obtain ⟨r, same, definition⟩ := writable.records.keys member
    exact same ▸ definition.identifier
  · rw [identifiers_flatMap]
    intro r member
    obtain ⟨name, _, definition⟩ := writable.records.values member
    rw [identifiers_cons]
    refine ⟨definition.identifier, fun field field_member => ?_⟩
    obtain ⟨ty, spelled⟩ := definition.fields.keys field_member
    exact spelled.identifier
  · intro name member
    obtain ⟨ty, spelled⟩ := writable.globals.keys member
    exact spelled.identifier
  · intro name member
    obtain ⟨signature, spelled⟩ := writable.externs.keys member
    exact spelled.identifier
  · intro name member
    obtain ⟨f, same, function⟩ := writable.functions.keys member
    exact same ▸ function.identifier
  · rw [identifiers_flatMap]
    intro f member
    obtain ⟨name, _, function⟩ := writable.functions.values member
    exact function.names
  · intro ty member
    exact (writable.types member).recordName?

theorem Writable.wellBuilt (writable : p.Writable) : p.WellBuilt := by
  constructor
  · intro name definition listed
    exact (writable.records.get? listed).1
  · intro name f listed
    exact (writable.functions.get? listed).1
  · intro name f listed
    exact (writable.functions.get? listed).2.wellFormed
  · intro name f listed
    exact (writable.functions.get? listed).2.wellFormed.nodup_points
  · exact writable.names
  · intro ty member
    exact (writable.types member).ne_record_int
  · intro ty member
    exact (writable.types member).result_ne_blank

/-- Whatever its text, a source gives a program that is well built. -/
theorem wellBuilt_load (source : String) : (Program.load source).1.WellBuilt := by
  -- Every line keeps what is read a program that a source can spell.
  have writable := Program.writable_load source
  exact writable.wellBuilt

end Program

end Lir
