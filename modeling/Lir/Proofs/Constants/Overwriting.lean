import Lir.Proofs.Constants.Sound

/-!
What is left of the value that a name had before it is assigned.

An instruction reads the values of its operands and no others. So where it gives its destination a
value, that value is the same whatever the destination held before, unless the destination is an
operand. Addresses are not values, so the instructions that take one leave every value as it was, and
so does a copy that says nothing.
-/

set_option autoImplicit false

namespace Lir

namespace Constants

theorem tracks_iff (ctx : Context) (name : String) :
    tracks ctx name = true ↔ ctx.typeOf? name = some .int ∨ ctx.typeOf? name = none := by
  unfold tracks
  cases ctx.typeOf? name with
  | none => simp
  | some ty => cases ty <;> simp [Ty.isInt]

end Constants

namespace ConstEnv

open Constants

/-- The states follow the same names with the same values, but perhaps for one. -/
def AgreeOff (name : String) (s t : ConstEnv) : Prop := ∀ other, other ≠ name → s[other]? = t[other]?

namespace AgreeOff

variable {ctx : Context} {name : String} {s t : ConstEnv}

theorem value_eq (agree : AgreeOff name s t) {operand : Operand} (unread : operand.name? ≠ some name) :
    value s operand = value t operand := by
  cases operand with
  | const word => rfl
  | var other =>
    have different : other ≠ name := fun same => unread (congrArg some same)
    rw [value, value, agree other different]

theorem copiesUnknown_eq (agree : AgreeOff name s t) {src : Operand}
    (unread : src.name? ≠ some name) (dst : String) :
    copiesUnknown ctx s dst src = copiesUnknown ctx t dst src := by
  cases src with
  | const word => rfl
  | var other =>
    have different : other ≠ name := fun same => unread (congrArg some same)
    have followed : other ∈ s ↔ other ∈ t := by
      rw [mem_map_iff, mem_map_iff, agree other different]
    simp only [copiesUnknown, followed]

theorem forgetAll (agree : AgreeOff name s t) (names : NameSet) :
    AgreeOff name (s.forgetAll names) (t.forgetAll names) := by
  intro other different
  rw [getElem?_forgetAll, getElem?_forgetAll, agree other different]

theorem assign_eq (agree : AgreeOff name s t) (tracked : tracks ctx name = true) (value : FlatInt) :
    assign ctx s name value = assign ctx t name value := by
  apply Std.ExtTreeMap.ext_getElem?
  intro other
  rw [getElem?_assign, getElem?_assign]
  by_cases here : name = other
  · rw [if_pos ⟨tracked, here⟩, if_pos ⟨tracked, here⟩]
  · rw [if_neg fun both => here both.2, if_neg fun both => here both.2, agree other (Ne.symm here)]

end AgreeOff

theorem agreeOff_insert (s : ConstEnv) (name : String) (value : FlatInt) :
    AgreeOff name s (s.insert name value) := by
  intro other different
  rw [getElem?_insert_map, if_neg (Ne.symm different)]

end ConstEnv

namespace Constants

open ConstEnv (AgreeOff)

variable {ctx : Context} {s t : ConstEnv}

/-- The instruction assigns an integer or an undeclared name, and does not read it. -/
structure Reassigns (ctx : Context) (inst : Instruction) (dst : String) : Prop where
  assigns : inst.def? = some dst
  declared : ctx.typeOf? dst = some .int ∨ ctx.typeOf? dst = none
  unread : dst ∉ inst.uses

/-- What a reassigned name held before does not matter to the state behind the instruction, if the
instruction takes no address and does not copy a name that is not followed into an undeclared one. -/
theorem transfer_eq_of_agreeOff {inst : Instruction} {dst : String}
    (reassigns : Reassigns ctx inst dst) (no_address : inst.addressDst? = none)
    (known : ∀ block index source, inst = .op block index (.copy dst (.var source)) →
      ctx.typeOf? dst = none → source ∈ s)
    (agree : AgreeOff dst s t) : transfer ctx inst s = transfer ctx inst t := by
  obtain ⟨assigns, declared, unread⟩ := reassigns
  have tracked := (tracks_iff ctx dst).2 declared
  cases inst with
  | term _ _ => cases assigns
  | op block index operation =>
    cases operation with
    | copy target src =>
      cases assigns
      have src_unread : src.name? ≠ some dst := fun same =>
        unread (by simp [Instruction.uses, Op.uses, same])
      have counts : copiesUnknown ctx s dst src = false := by
        cases src with
        | const word => rfl
        | var source =>
          have followed := known block index source rfl
          cases type : ctx.typeOf? dst with
          | none => simp [copiesUnknown, followed type]
          | some ty => simp [copiesUnknown, type]
      simp only [transfer, ← agree.copiesUnknown_eq src_unread, counts, agree.value_eq src_unread]
      exact agree.assign_eq tracked _
    | arith target op lhs rhs | cmp target op lhs rhs =>
      cases assigns
      have lhs_unread : lhs.name? ≠ some dst := fun same =>
        unread (by simp [Instruction.uses, Op.uses, same])
      have rhs_unread : rhs.name? ≠ some dst := fun same =>
        unread (by simp [Instruction.uses, Op.uses, same])
      rw [transfer, transfer, agree.value_eq lhs_unread, agree.value_eq rhs_unread]
      exact agree.assign_eq tracked _
    | load target src =>
      cases assigns
      exact agree.assign_eq tracked _
    | store target value => cases assigns
    | call site =>
      -- What the call may overwrite is forgotten in both states before the result is assigned.
      have result : site.dst = some dst := assigns
      rw [transfer, transfer, result]
      exact (agree.forgetAll _).assign_eq tracked _
    | gep _ _ _ | gfp _ _ _ | alloc _ _ _ | addrOf _ _ => cases no_address

def reassigning : Function where
  name := "test"
  params := [⟨"p", .pointer .int⟩]
  result := none
  locals := .ofList [("x", .int)]
  blocks := .ofList [("entry", ⟨"entry", [
    .op "entry" 0 (.copy "x" (.const 1)), .op "entry" 1 (.copy "t" (.var "x")),
    .op "entry" 2 (.gep "x" "p" (.const 0)), .op "entry" 3 (.copy "t" (.var "u")),
    .term "entry" (.ret none)]⟩)]

def reassigningContext : Context := .ofFunction (Program.empty.define reassigning) reassigning

def assignedX : ConstEnv := (∅ : ConstEnv).insert "x" (.const 1)

theorem typeOf?_reassigning :
    reassigningContext.typeOf? "x" = some .int ∧ reassigningContext.typeOf? "t" = none := by
  decide +kernel

theorem transfer_eq_of_agreeOff_copiesX :
    Reassigns reassigningContext (.op "entry" 1 (.copy "t" (.var "x"))) "t" ∧
    AgreeOff "t" assignedX (assignedX.insert "t" (.const 5)) ∧
    transfer reassigningContext (.op "entry" 1 (.copy "t" (.var "x"))) assignedX =
      transfer reassigningContext (.op "entry" 1 (.copy "t" (.var "x")))
        (assignedX.insert "t" (.const 5)) := by
  have reassigns : Reassigns reassigningContext (.op "entry" 1 (.copy "t" (.var "x"))) "t" :=
    ⟨rfl, .inr typeOf?_reassigning.2, by decide⟩
  have agree := ConstEnv.agreeOff_insert assignedX "t" (.const 5)
  refine ⟨reassigns, agree, transfer_eq_of_agreeOff reassigns rfl ?_ agree⟩
  intro _ _ source same _
  cases same
  decide +kernel

/-- An address leaves an integer what it held before, and so does the copy of a name that is not
followed an undeclared name. -/
theorem not_agree_after_reassignment :
    (Reassigns reassigningContext (.op "entry" 2 (.gep "x" "p" (.const 0))) "x" ∧
      ¬ ∀ s t, AgreeOff "x" s t →
        (transfer reassigningContext (.op "entry" 2 (.gep "x" "p" (.const 0))) s)["x"]? =
          (transfer reassigningContext (.op "entry" 2 (.gep "x" "p" (.const 0))) t)["x"]?) ∧
    (Reassigns reassigningContext (.op "entry" 3 (.copy "t" (.var "u"))) "t" ∧
      ¬ ∀ s t, AgreeOff "t" s t →
        (transfer reassigningContext (.op "entry" 3 (.copy "t" (.var "u"))) s)["t"]? =
          (transfer reassigningContext (.op "entry" 3 (.copy "t" (.var "u"))) t)["t"]?) := by
  refine ⟨⟨⟨rfl, .inl typeOf?_reassigning.1, by decide⟩, fun overwrites => ?_⟩,
    ⟨rfl, .inr typeOf?_reassigning.2, by decide⟩, fun overwrites => ?_⟩
  · have same := overwrites assignedX _ (ConstEnv.agreeOff_insert assignedX "x" (.const 2))
    revert same
    decide +kernel
  · have same := overwrites assignedX _ (ConstEnv.agreeOff_insert assignedX "t" (.const 2))
    revert same
    decide +kernel

end Constants

end Lir
