import Lir.Proofs.Memory.Calls
import Lir.Proofs.Source.Loaded

/-!
What a call may overwrite, by the types of the parameters.

A value gives access to the memory behind every pointer in it. The parameters that are pointers
expose all the memory they give access to, records behind records included. A record passed by
value exposes nothing, although its callee gets the pointers in its fields.
-/

set_option autoImplicit false

namespace Lir

namespace Ty

variable {records : Table RecordDef}

/-- Whoever has a value of the type can get at memory of the other: a pointer in the value, or
behind further pointers, leads there. -/
def GivesAccess (records : Table RecordDef) (ty memory : Ty) : Prop :=
  ∃ pointee, Leads records ty (.pointer pointee) ∧ Leads records pointee memory

theorem givesAccess_pointer_iff (pointee memory : Ty) :
    GivesAccess records (.pointer pointee) memory ↔ Leads records pointee memory := by
  constructor
  · rintro ⟨inner, to_inner, leads⟩
    refine Leads.trans ?_ leads
    -- The chain to the inner pointee begins with the pointer itself and goes on behind it.
    have behind : ∀ ty, Leads records (.pointer pointee) ty →
        ty = .pointer pointee ∨ Leads records pointee ty := by
      intro ty chain
      induction chain with
      | root _ => exact .inl rfl
      | part _ inside data ih =>
        rcases ih with rfl | further
        · obtain rfl := List.mem_singleton.1 inside
          exact .inr (.root data)
        · exact .inr (further.part inside data)
    rcases behind _ to_inner with same | further
    · obtain rfl := Ty.pointer.inj same
      exact .root leads.root_data
    · exact further.pointee
  · intro leads
    exact ⟨pointee, .root leads.root_data, leads⟩

end Ty

/-- Types of memory that a call exposes to its callee. -/
inductive Exposed (p : Program) (vars : Table Variable) (site : Call) (ty : Ty) : Prop where
  | parameter {signature : Signature} {param : Ty} : p.calleeSignature? vars site = some signature →
      param ∈ signature.params → param.isPointer = true → Ty.GivesAccess p.records param ty →
      Exposed p vars site ty
  | global {name : String} {declared : Ty} : p.globals.get? name = some declared →
      declared.isPointer = true → Ty.GivesAccess p.records declared ty → Exposed p vars site ty

namespace Program

theorem mem_exposedTypes_iff (p : Program) (vars : Table Variable) (site : Call) (ty : Ty) :
    ty ∈ p.exposedTypes vars site ↔ Exposed p vars site ty := by
  rw [exposedTypes, List.mem_flatMap]
  simp only [Std.ExtTreeSet.mem_toList, Ty.mem_closure, List.mem_append, mem_globalPointees]
  constructor
  · rintro ⟨pointee, given | ⟨name, declared⟩, leads⟩
    · cases resolved : p.calleeSignature? vars site with
      | none =>
        rw [resolved] at given
        exact absurd given List.not_mem_nil
      | some signature =>
        rw [resolved] at given
        obtain ⟨param, listed, points⟩ := List.mem_filterMap.1 given
        obtain rfl := (pointee?_eq_some_iff _ _).1 points
        exact .parameter resolved listed rfl ((Ty.givesAccess_pointer_iff _ _).2 leads)
    · exact .global declared rfl ((Ty.givesAccess_pointer_iff _ _).2 leads)
  · intro exposed
    cases exposed with
    | @parameter signature param resolved listed is_pointer access =>
      cases param with
      | pointer pointee =>
        refine ⟨pointee, .inl ?_, (Ty.givesAccess_pointer_iff _ _).1 access⟩
        rw [resolved]
        exact List.mem_filterMap.2 ⟨_, listed, rfl⟩
      | _ => cases is_pointer
    | @global name declared found is_pointer access =>
      cases declared with
      | pointer pointee =>
        exact ⟨pointee, .inr ⟨name, found⟩, (Ty.givesAccess_pointer_iff _ _).1 access⟩
      | _ => cases is_pointer

end Program

theorem Memory.mem_clobberSet_iff (p : Program) (m : Memory) (site : Call) (name : String) :
    name ∈ clobberSet p m site ↔
      (∃ ty, Exposed p m.vars site ty ∧ name ∈ m.aliases.mayPointTo ty) ∨
        name ∈ p.globals.keys ∧ name ≠ site.callee := by
  rw [clobberSet, NameSet.mem_ofNames, List.mem_append, List.mem_flatMap, List.mem_filter]
  simp only [Std.ExtTreeSet.mem_toList, Program.mem_exposedTypes_iff, decide_eq_true_eq]

namespace Context

/-- A call may overwrite exactly the members of all types that its pointer parameters or pointer
globals give access to, and every global but the one named like the callee. -/
theorem mem_clobbered_iff {source name : String} {f : Function}
    (loaded : (Program.load source).1.functions.get? name = some f)
    (entry : f.blocks.contains entryName = true) :
    ∃ ctx, build (Program.load source).1 name = .ok ctx ∧
      ∀ inst ∈ f.instructions, ∀ site, inst.call? = some site → ∀ var,
        var ∈ ctx.aliases.clobbered inst.point ↔
          (∃ ty, Exposed (Program.load source).1 ctx.vars site ty ∧
            var ∈ ctx.aliases.mayPointTo ty) ∨
          var ∈ (Program.load source).1.globals.keys ∧ var ≠ site.callee := by
  refine ⟨_, build_eq_ok loaded entry, fun inst member site calls var => ?_⟩
  rw [clobbered_eq _ (Program.wellFormed_load loaded) member calls, Memory.mem_clobberSet_iff]
  rfl

/-- Takes the address of a local, and hands on a record with a pointer in it, as it is or behind a
pointer. -/
def passesBox (param : String) : String := "\n".intercalate [
  "struct Box \x7b p: &int \x7d",
  "extern sink: (" ++ param ++ ") -> _",
  "fn test(b: " ++ param ++ ") -> _ \x7b",
  "let x: int, q: &int",
  "entry:",
  "q = $addrof x",
  "$call_ext sink(b)",
  "$ret",
  "\x7d"]

def box : RecordDef := .ofFields "Box" [("p", .pointer .int)]

def sinkSite : Call := ⟨none, .external, "sink", [.var "b"], none⟩

def sinkCall : Instruction := .op "entry" 1 (.call sinkSite)

def passingFunction (param : Ty) : Function where
  name := "test"
  params := [⟨"b", param⟩]
  result := none
  locals := .ofList [("x", .int), ("q", .pointer .int)]
  blocks := .ofList [("entry",
    ⟨"entry", [.op "entry" 0 (.addrOf "q" "x"), sinkCall, .term "entry" (.ret none)]⟩)]

def passingProgram (param : Ty) : Program :=
  ((Program.empty.defineRecord box).declareExternal "sink" ⟨[param], none⟩).define
    (passingFunction param)

theorem load_passesBox_pointer :
    (Program.load (passesBox "&Box")).1 = passingProgram (.pointer (.record "Box")) := by
  decide +kernel

theorem load_passesBox_record :
    (Program.load (passesBox "Box")).1 = passingProgram (.record "Box") := by decide +kernel

theorem leads_box (param : Ty) :
    Ty.Leads (passingProgram param).records (.record "Box") (.pointer .int) :=
  .part (.root rfl) (List.mem_singleton.2 rfl) rfl

theorem mem_clobbered_iff_passesBox :
    (Program.load (passesBox "&Box")).1.functions.get? "test" =
        some (passingFunction (.pointer (.record "Box"))) ∧
      (passingFunction (.pointer (.record "Box"))).blocks.contains entryName = true ∧
      ∃ ctx, build (Program.load (passesBox "&Box")).1 "test" = .ok ctx ∧
        "x" ∈ ctx.aliases.clobbered (.op "entry" 1) := by
  have loaded : (Program.load (passesBox "&Box")).1.functions.get? "test" =
      some (passingFunction (.pointer (.record "Box"))) := by
    rw [load_passesBox_pointer]
    decide +kernel
  have entry : (passingFunction (.pointer (.record "Box"))).blocks.contains entryName = true := by
    decide +kernel
  obtain ⟨ctx, built, exact⟩ := mem_clobbered_iff loaded entry
  refine ⟨loaded, entry, ctx, built, (exact sinkCall (by decide +kernel) _ rfl "x").2 (.inl ?_)⟩
  obtain rfl := Except.ok.inj (built.symm.trans (build_eq_ok loaded entry))
  rw [load_passesBox_pointer]
  let p := passingProgram (.pointer (.record "Box"))
  let f := passingFunction (.pointer (.record "Box"))
  have resolved : p.calleeSignature? (ofFunction p f).vars sinkSite =
      some ⟨[.pointer (.record "Box")], none⟩ := by decide +kernel
  have access : Ty.GivesAccess p.records (.pointer (.record "Box")) .int :=
    (Ty.givesAccess_pointer_iff _ _).2 (leads_box _).pointee
  exact ⟨.int, .parameter resolved (List.mem_singleton.2 rfl) rfl access, by decide +kernel⟩

/-- Not every parameter's memory is covered: the record passed by value holds a pointer to integers,
and the callee gets it, but the local whose address is taken is left out. -/
theorem not_mem_clobbered_of_givesAccess :
    ¬ ∀ (source name : String) (f : Function),
      (Program.load source).1.functions.get? name = some f → f.blocks.contains entryName = true →
      ∀ inst ∈ f.instructions, ∀ site, inst.call? = some site → ∀ signature param ty var,
        (Program.load source).1.calleeSignature? (ofFunction (Program.load source).1 f).vars site =
          some signature →
        param ∈ signature.params → Ty.GivesAccess (Program.load source).1.records param ty →
        var ∈ (ofFunction (Program.load source).1 f).aliases.mayPointTo ty →
        var ∈ (ofFunction (Program.load source).1 f).aliases.clobbered inst.point := by
  intro claimed
  have covered := claimed (passesBox "Box") "test" (passingFunction (.record "Box"))
  rw [load_passesBox_record] at covered
  have clobbered := covered (by decide +kernel) (by decide +kernel) sinkCall (by decide +kernel)
    sinkSite rfl ⟨[.record "Box"], none⟩ (.record "Box") .int "x" (by decide +kernel)
    (List.mem_singleton.2 rfl) ⟨.int, leads_box _, .root rfl⟩ (by decide +kernel)
  exact absurd clobbered (by decide +kernel)

end Context

end Lir
