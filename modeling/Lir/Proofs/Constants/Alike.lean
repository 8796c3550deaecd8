import Lir.Proofs.Constants.Transfer
import Lir.Proofs.Flow.Alike
import Lir.Proofs.Memory.Alike

/-!
Constant propagation in contexts with the same memory.

It starts alike, since types and kinds decide about the start, and an operation has the same effect
wherever it stands, if it is not a call or may overwrite the same. So where functions have the same
blocks, the values found at their ends are the same.
-/

set_option autoImplicit false

namespace Lir

namespace Constants

variable {p q : Program} {f g : Function} {c d : Context}

theorem getElem?_start (p : Program) (f : Function) (name : String) :
    (start (.ofFunction p f))[name]? = ((Context.ofFunction p f).vars.get? name).bind fun v =>
      if v.ty.isInt then some (startValue v) else none := by
  have only : ∀ value, (start (.ofFunction p f))[name]? = some value →
      ∃ v, (Context.ofFunction p f).vars.get? name = some v ∧ v.ty.isInt = true := fun value found =>
    mem_start ((mem_map_iff _ name).2 ⟨value, found⟩)
  cases declared : (Context.ofFunction p f).vars.get? name with
  | none =>
    rw [Option.bind_none, Option.eq_none_iff_forall_ne_some]
    intro value found
    obtain ⟨v, listed, _⟩ := only value found
    simp [declared] at listed
  | some v =>
    rw [Option.bind_some]
    split
    next isInt => exact getElem?_start_of_isInt declared isInt
    next other =>
      rw [Option.eq_none_iff_forall_ne_some]
      intro value found
      obtain ⟨w, listed, isInt⟩ := only value found
      rw [declared] at listed
      cases listed
      exact other isInt

theorem start_eq (same : (Context.ofFunction p f).SameMemory (.ofFunction q g)) :
    start (.ofFunction p f) = start (.ofFunction q g) := by
  -- What a variable points at does not matter for its first value.
  have seen : ∀ v : Option Variable,
      (v.bind fun v => if v.ty.isInt then some (startValue v) else none) =
        (v.map Variable.untargeted).bind fun v => if v.ty.isInt then some (startValue v) else none :=
    fun v => by cases v <;> rfl
  apply Std.ExtTreeMap.ext_getElem?
  intro name
  rw [getElem?_start, getElem?_start, seen, same.vars name, ← seen]

theorem tracks_eq (same : c.SameMemory d) (name : String) : tracks c name = tracks d name := by
  unfold tracks
  rw [same.typeOf?_eq]

theorem assign_eq (same : c.SameMemory d) (s : ConstEnv) (dst : String) (value : FlatInt) :
    assign c s dst value = assign d s dst value := by
  unfold assign
  rw [tracks_eq same]

theorem copiesUnknown_eq_of_sameMemory (same : c.SameMemory d) (s : ConstEnv) (dst : String)
    (src : Operand) : copiesUnknown c s dst src = copiesUnknown d s dst src := by
  cases src with
  | const word => rfl
  | var name => rw [copiesUnknown, copiesUnknown, same.typeOf?_eq]

theorem transfer_eq (same : c.SameMemory d) (block twin : String) (index number : Nat)
    (operation : Op) (clobbered : ∀ site, operation = .call site →
      c.aliases.clobbered (.op block index) = d.aliases.clobbered (.op twin number))
    (s : ConstEnv) :
    transfer c (.op block index operation) s = transfer d (.op twin number operation) s := by
  cases operation with
  | copy dst src =>
    rw [transfer, transfer, copiesUnknown_eq_of_sameMemory same, assign_eq same]
  | arith dst _ _ _ | cmp dst _ _ _ | load dst _ => exact assign_eq same s dst _
  | store dst value =>
    rw [transfer, transfer, same.storeType?_eq, same.mayPointTo]
  | call site =>
    rw [transfer, transfer, clobbered site rfl]
    cases site.dst with
    | none => rfl
    | some dst => exact assign_eq same _ dst _
  | gep _ _ _ | gfp _ _ _ | alloc _ _ _ | addrOf _ _ => rfl

/-! ### Functions with the same blocks -/

section

variable (alike : p.Alike q) (same : f.Alike g) (wellFormed : f.WellFormed)

include alike same wellFormed

theorem transfer_eq_of_alike {inst : Instruction} (member : inst ∈ f.instructions) :
    transfer (.ofFunction p f) inst = transfer (.ofFunction q g) inst := by
  funext s
  cases inst with
  | term _ _ => rfl
  | op block index operation =>
    apply transfer_eq (Context.sameMemory alike same.sameAddresses)
    rintro site rfl
    exact Context.clobbered_eq_of_alike alike same.sameAddresses wellFormed
      (same.wellFormed wellFormed) member (same.instructions_perm.mem_iff.1 member) rfl rfl rfl rfl

theorem solve_eq_of_alike : solve (.ofFunction p f) = solve (.ofFunction q g) := by
  have memory := Context.sameMemory alike same.sameAddresses
  have heights : height (.ofFunction p f) = height (.ofFunction q g) := by
    unfold height
    rw [memory.size_eq]
    simp only [Context.ofFunction, same.instructions_perm.length_eq]
  unfold solve
  rw [heights]
  apply Analysis.solve_eq same.blocks
  · intro name block listed
    apply Analysis.transferAll_eq
    intro inst member
    exact transfer_eq_of_alike alike same wellFormed
      ((f.mem_instructions inst).2 ⟨name, block, listed, member⟩)
  · exact start_eq memory

theorem endValues_eq :
    endValues (.ofFunction p f) (solve (.ofFunction p f)) =
      endValues (.ofFunction q g) (solve (.ofFunction q g)) := by
  have blocks : f.blocks.get? = g.blocks.get? := funext same.blocks
  unfold endValues
  rw [solve_eq_of_alike alike same wellFormed]
  simp only [Context.ofFunction, blocks]

end

end Constants

end Lir
