import Lir.Proofs.Json.Decoding
import Lir.Proofs.Json.Parsing

/-!
A program is read back from its JSON form.

Each part of a program is read from what it is encoded as, with only its own members in view: a
record needs that its members are read, a tag that its content is. Types are the only parts that
nest without a bound, so they are read by induction on the levels that are left. Nothing is asked of
names; an operation's number has to fit where it is kept.
-/

set_option autoImplicit false

namespace Lir

open Json (Reads)

variable {bound : Nat}

/-! ### Types -/

theorem Ty.toJson_ne_null (ty : Ty) : ty.toJson ≠ .null := by
  cases ty <;> exact nofun

theorem Ty.reads_option {decodeTy : Json.Decoder Ty}
    (each : ∀ ty, Reads bound decodeTy ty.toJson ty) (result : Option Ty) :
    Reads bound (Json.nullable decodeTy) (.ofOption Ty.toJson result) result :=
  Json.reads_nullable fun ty _ => ⟨ty.toJson_ne_null, each ty⟩

theorem Signature.reads_decodeWith {decodeTy : Json.Decoder Ty}
    (each : ∀ ty, Reads bound decodeTy ty.toJson ty) (s : Signature) :
    Reads bound (decodeWith decodeTy) s.toJson s := by
  refine Json.reads_record (by simp) fun levels below fits => ?_
  simp only [List.forall_mem_cons] at fits
  obtain ⟨params_fit, result_fit, -⟩ := fits
  have params_read := Json.reads_list (fun ty _ => each ty) levels below params_fit
  have result_read := Ty.reads_option each s.result levels below result_fit
  simp [params_read, result_read]

namespace Ty

theorem toJsonParams_eq_map (params : List Ty) : toJsonParams params = params.map toJson := by
  induction params with
  | nil => rfl
  | cons param rest ih => rw [toJsonParams, ih, List.map_cons]

theorem toJsonResult_eq_ofOption (result : Option Ty) :
    toJsonResult result = .ofOption toJson result := by
  cases result <;> rfl

theorem toJson_function (params : List Ty) (result : Option Ty) :
    (function params result).toJson = .tag "Function" (Signature.toJson ⟨params, result⟩) := by
  rw [toJson, toJsonParams_eq_map, toJsonResult_eq_ofOption]
  rfl

theorem reads_decodeSteps (ty : Ty) : Reads bound (decodeSteps bound) ty.toJson ty := by
  -- Each tag costs a level and a step, so induction on the bound serves the types in lists too.
  induction bound generalizing ty with
  | zero => exact fun _ below => absurd below (Nat.not_lt_zero _)
  | succ steps ih =>
    cases ty with
    | int => exact fun levels _ _ => by cases levels <;> rfl
    | record name => exact Json.reads_tag fun levels below fits => rfl
    | pointer pointee =>
      refine Json.reads_tag fun levels below fits => ?_
      have read := ih pointee levels (by omega) fits
      simp [read]
    | function params result =>
      rw [toJson_function]
      refine Json.reads_tag fun levels below fits => ?_
      have read := Signature.reads_decodeWith ih ⟨params, result⟩ levels (by omega) fits
      simp [read, Signature.toTy]

theorem reads (ty : Ty) : Reads (Json.maxDepth + 1) decode ty.toJson ty := ty.reads_decodeSteps

end Ty

/-! ### Headers -/

theorem Signature.reads (s : Signature) : Reads (Json.maxDepth + 1) decode s.toJson s :=
  s.reads_decodeWith Ty.reads

theorem Ty.reads_table (t : Table Ty) :
    Reads (Json.maxDepth + 1) (Json.table Ty.decode) (t.toJson Ty.toJson) t :=
  Json.reads_table fun entry _ => entry.2.reads

theorem RecordDef.reads (r : RecordDef) : Reads (Json.maxDepth + 1) decode r.toJson r := by
  refine Json.reads_record (by simp) fun levels below fits => ?_
  simp only [List.forall_mem_cons] at fits
  obtain ⟨-, fields_fit, -⟩ := fits
  have fields_read := Ty.reads_table r.fields levels below fields_fit
  simp [fields_read]

theorem Param.reads (p : Param) : Reads (Json.maxDepth + 1) decode p.toJson p := by
  refine Json.reads_record (by simp) fun levels below fits => ?_
  simp only [List.forall_mem_cons] at fits
  obtain ⟨-, ty_fits, -⟩ := fits
  have ty_read := p.ty.reads levels below ty_fits
  simp [ty_read]

/-! ### Instructions -/

theorem Operand.reads (value : Operand) : Reads bound decode value.toJson value := by
  cases value with
  | const value =>
    refine Json.reads_tag fun levels below fits => ?_
    have low := value.le_toInt
    have high := value.toInt_lt
    have inside : -2147483648 ≤ value.toInt ∧ value.toInt ≤ 2147483647 := by omega
    simp [Json.integerIn, inside]
  | var name => exact Json.reads_tag fun levels below fits => rfl

theorem Operand.toJson_ne_null (value : Operand) : value.toJson ≠ .null := by
  cases value <;> exact nofun

theorem ArithOp.jsonName_injective : Function.Injective ArithOp.jsonName := by
  intro first second same
  cases first <;> cases second <;> first | rfl | exact absurd same (by decide)

theorem CmpOp.jsonName_injective : Function.Injective CmpOp.jsonName := by
  intro first second same
  cases first <;> cases second <;> first | rfl | exact absurd same (by decide)

theorem CallKind.jsonName_injective : Function.Injective CallKind.jsonName := by
  intro first second same
  cases first <;> cases second <;> first | rfl | exact absurd same (by decide)

theorem ArithOp.reads (op : ArithOp) : Reads bound decode (.str op.jsonName) op :=
  Json.reads_named jsonName_injective (by cases op <;> decide)

theorem CmpOp.reads (op : CmpOp) : Reads bound decode (.str op.jsonName) op :=
  Json.reads_named jsonName_injective (by cases op <;> decide)

theorem CallKind.reads (kind : CallKind) : Reads bound decode (.str kind.jsonName) kind :=
  Json.reads_named jsonName_injective (by cases kind <;> decide)

theorem Call.reads (site : Call) : Reads bound decode site.toJson site := by
  refine Json.reads_record (by simp) fun levels below fits => ?_
  simp only [List.forall_mem_cons] at fits
  obtain ⟨-, kind_fits, -, args_fit, -⟩ := fits
  have kind_read := site.kind.reads levels below kind_fits
  have args_read := Json.reads_list (fun value _ => Operand.reads value) levels below args_fit
  simp [kind_read, args_read]

theorem Op.reads_of_content {name : String} {content : Json} {operation : Op}
    (reads : Reads bound (decodeContent name) content operation) :
    Reads bound decode (.tag name content) operation :=
  Json.reads_tag fun levels below fits => reads levels (Nat.lt_of_succ_lt below) fits

theorem Op.reads (operation : Op) : Reads bound decode operation.toJson operation := by
  cases operation with
  | copy dst src =>
    refine reads_of_content (Json.reads_record (by simp) fun levels below fits => ?_)
    simp only [List.forall_mem_cons] at fits
    obtain ⟨-, src_fits, -⟩ := fits
    simp [src.reads levels below src_fits]
  | arith dst op lhs rhs =>
    refine reads_of_content (Json.reads_record (by simp) fun levels below fits => ?_)
    simp only [List.forall_mem_cons] at fits
    obtain ⟨-, op_fits, lhs_fits, rhs_fits, -⟩ := fits
    simp [op.reads levels below op_fits, lhs.reads levels below lhs_fits,
      rhs.reads levels below rhs_fits]
  | cmp dst op lhs rhs =>
    refine reads_of_content (Json.reads_record (by simp) fun levels below fits => ?_)
    simp only [List.forall_mem_cons] at fits
    obtain ⟨-, op_fits, lhs_fits, rhs_fits, -⟩ := fits
    simp [op.reads levels below op_fits, lhs.reads levels below lhs_fits,
      rhs.reads levels below rhs_fits]
  | gep dst base index =>
    refine reads_of_content (Json.reads_record (by simp) fun levels below fits => ?_)
    simp only [List.forall_mem_cons] at fits
    obtain ⟨-, -, index_fits, -⟩ := fits
    simp [index.reads levels below index_fits]
  | alloc dst size id =>
    refine reads_of_content (Json.reads_record (by simp) fun levels below fits => ?_)
    simp only [List.forall_mem_cons] at fits
    obtain ⟨-, size_fits, -⟩ := fits
    simp [size.reads levels below size_fits]
  | store dst value =>
    refine reads_of_content (Json.reads_record (by simp) fun levels below fits => ?_)
    simp only [List.forall_mem_cons] at fits
    obtain ⟨-, value_fits, -⟩ := fits
    simp [value.reads levels below value_fits]
  | gfp | addrOf | load =>
    exact reads_of_content (Json.reads_record (by simp) fun levels below fits => rfl)
  | call site =>
    refine reads_of_content fun levels below fits => ?_
    simp [decodeContent, site.reads levels below fits]

theorem Terminator.reads (terminator : Terminator) :
    Reads bound decode terminator.toJson terminator := by
  cases terminator with
  | jump target => exact Json.reads_tag fun levels below fits => rfl
  | branch cond thenBlock elseBlock =>
    refine Json.reads_tag fun levels below fits => ?_
    refine Json.reads_record (by simp) (fun levels below fits => ?_) levels
      (Nat.lt_of_succ_lt below) fits
    simp only [List.forall_mem_cons] at fits
    obtain ⟨cond_fits, -⟩ := fits
    simp [cond.reads levels below cond_fits]
  | ret value =>
    refine Json.reads_tag fun levels below fits => ?_
    have value_read := Json.reads_nullable
      (fun value _ => ⟨Operand.toJson_ne_null value, value.reads⟩) levels
      (Nat.lt_of_succ_lt below) fits
    simp [value_read]

def Instruction.NumberFits : Instruction → Prop
  | .op _ index _ => index < UInt64.size
  | .term _ _ => True

instance : (inst : Instruction) → Decidable inst.NumberFits
  | .op _ index _ => inferInstanceAs (Decidable (index < UInt64.size))
  | .term _ _ => .isTrue trivial

theorem Instruction.reads {inst : Instruction} (fits : inst.NumberFits) :
    Reads bound decode inst.toJson inst := by
  cases inst with
  | op block index operation =>
    have index_read (levels : Nat) : decodeIndex levels (.nat index) = some index := by
      have inside : (index : Int) ≤ 18446744073709551615 := by
        simp only [NumberFits, UInt64.size] at fits
        omega
      simp [decodeIndex, Json.nat, Json.integerIn, inside]
    refine Json.reads_tag fun levels below fits => ?_
    refine Json.reads_record (by simp) (fun levels below fits => ?_) levels
      (Nat.lt_of_succ_lt below) fits
    simp only [List.forall_mem_cons] at fits
    obtain ⟨-, -, operation_fits, -⟩ := fits
    simp [index_read, operation.reads levels below operation_fits]
  | term block terminator =>
    refine Json.reads_tag fun levels below fits => ?_
    refine Json.reads_record (by simp) (fun levels below fits => ?_) levels
      (Nat.lt_of_succ_lt below) fits
    simp only [List.forall_mem_cons] at fits
    obtain ⟨-, terminator_fits, -⟩ := fits
    simp [terminator.reads levels below terminator_fits]

/-! ### Blocks, functions and programs -/

def Block.NumbersFit (b : Block) : Prop := ∀ inst ∈ b.instructions, inst.NumberFits

def Function.NumbersFit (f : Function) : Prop := f.blocks.Each fun _ block => block.NumbersFit

def Program.NumbersFit (p : Program) : Prop :=
  p.functions.Each fun _ function => function.NumbersFit

instance (b : Block) : Decidable b.NumbersFit :=
  inferInstanceAs (Decidable (∀ inst ∈ b.instructions, inst.NumberFits))

instance (f : Function) : Decidable f.NumbersFit :=
  inferInstanceAs (Decidable (∀ entry ∈ f.blocks.entries, entry.2.NumbersFit))

instance (p : Program) : Decidable p.NumbersFit :=
  inferInstanceAs (Decidable (∀ entry ∈ p.functions.entries, entry.2.NumbersFit))

theorem Block.reads {b : Block} (numbers : b.NumbersFit) : Reads bound decode b.toJson b := by
  refine Json.reads_record (by simp) fun levels below fits => ?_
  simp only [List.forall_mem_cons] at fits
  obtain ⟨-, instructions_fit, -⟩ := fits
  have instructions_read := Json.reads_list
    (fun inst member => Instruction.reads (numbers inst member)) levels below instructions_fit
  simp [instructions_read]

theorem Function.reads {f : Function} (numbers : f.NumbersFit) :
    Reads (Json.maxDepth + 1) decode f.toJson f := by
  refine Json.reads_record (by simp) fun levels below fits => ?_
  simp only [List.forall_mem_cons] at fits
  obtain ⟨-, params_fit, result_fits, locals_fit, blocks_fit, -⟩ := fits
  have params_read := Json.reads_list (fun param _ => Param.reads param) levels below params_fit
  have result_read := Ty.reads_option Ty.reads f.result levels below result_fits
  have locals_read := Ty.reads_table f.locals levels below locals_fit
  have blocks_read := Json.reads_table (fun entry member => Block.reads (numbers entry member))
    levels below blocks_fit
  simp [params_read, result_read, locals_read, blocks_read]

theorem Program.reads {p : Program} (numbers : p.NumbersFit) :
    Reads (Json.maxDepth + 1) decode p.toJson p := by
  refine Json.reads_record (by simp) fun levels below fits => ?_
  simp only [List.forall_mem_cons] at fits
  obtain ⟨records_fit, globals_fit, externs_fit, functions_fit, -⟩ := fits
  have records_read := Json.reads_table (fun entry _ => RecordDef.reads entry.2) levels below
    records_fit
  have globals_read := Ty.reads_table p.globals levels below globals_fit
  have externs_read := Json.reads_table (fun entry _ => Signature.reads entry.2) levels below
    externs_fit
  have functions_read := Json.reads_table
    (fun entry member => Function.reads (numbers entry member)) levels below functions_fit
  simp [records_read, globals_read, externs_read, functions_read]

/-- A program with names that need escapes, in tables out of alphabetical order, and with the
greatest number. -/
def Program.oddlyNamed : Program where
  records := .ofList [
    ("z\n", ⟨"z\n", .ofList [("\"q\\", .pointer (.record "z\n")), ("\u00fc", .int)]⟩),
    ("a", ⟨"b", ∅⟩)]
  globals := .ofList [
    ("\x07", .function [.int, .pointer (.function [] none)] (some (.pointer .int))),
    ("", .int)]
  externs := .ofList [("print", ⟨[.int], none⟩)]
  functions := .ofList [("main", {
    name := "start"
    params := [⟨"n", .pointer .int⟩]
    result := none
    locals := .ofList [("y", .int), ("x", .int)]
    blocks := .ofList [
      ("exit", ⟨"exit", [.term "exit" (.ret none)]⟩),
      ("entry", ⟨"entry", [
        .op "entry" (UInt64.size - 1) (.alloc "x" (.const (-2147483648)) none),
        .term "" (.branch (.var "\u2028") "exit" "entry")]⟩)] })]

/-- The JSON text of a program gives the program back, with the entries of its tables in their
order, if numbers fit in 64 bits and the text nests no deeper than is read. -/
theorem Program.ofJsonText?_toJsonText (p : Program) (numbers : p.NumbersFit)
    (nesting : p.toJson.depth ≤ Json.maxDepth) : ofJsonText? p.toJsonText = some p := by
  have read := Program.reads numbers Json.maxDepth (Nat.lt_succ_self _) nesting
  rw [ofJsonText?, toJsonText, Json.parse_render, Option.bind_some, read]

theorem Program.ofJsonText?_toJsonText_oddlyNamed :
    oddlyNamed.NumbersFit ∧ oddlyNamed.toJson.depth ≤ Json.maxDepth ∧
      ofJsonText? oddlyNamed.toJsonText = some oddlyNamed :=
  ⟨by decide, by decide, ofJsonText?_toJsonText oddlyNamed (by decide) (by decide)⟩

end Lir
