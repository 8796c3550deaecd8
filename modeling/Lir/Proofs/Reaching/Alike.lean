import Lir.Proofs.Flow.Alike
import Lir.Proofs.Memory.Alike
import Lir.Proofs.Reaching.Recorded
import Lir.Proofs.Reaching.Transfer

/-!
Reaching definitions in contexts with the same memory.

They start with the same variables, an instruction writes and reads the same names, and the solver
finds the same states. A point belongs to one instruction, so what is recorded there does not depend
on when its block is recorded.
-/

set_option autoImplicit false

namespace Lir

namespace Reaching

variable {c d : Context}

theorem start_eq (same : c.SameMemory d) : start c = start d := by
  apply Std.ExtTreeMap.ext_getElem?
  intro name
  rw [getElem?_start, getElem?_start]
  simp only [same.mem_keys_iff]

theorem mayWrite_eq (same : c.SameMemory d) {inst : Instruction}
    (clobbered : ∀ site, inst.call? = some site →
      c.aliases.clobbered inst.point = d.aliases.clobbered inst.point) :
    mayWrite c inst = mayWrite d inst := by
  cases inst with
  | term _ _ => rfl
  | op block index operation =>
    cases operation with
    | store dst value => exact same.storeTargets_eq dst value
    | call site => exact clobbered site rfl
    | _ => rfl

theorem transfer_eq (same : c.SameMemory d) {inst : Instruction}
    (clobbered : ∀ site, inst.call? = some site →
      c.aliases.clobbered inst.point = d.aliases.clobbered inst.point) :
    transfer c inst = transfer d inst := by
  funext s
  apply Std.ExtTreeMap.ext_getElem?
  intro name
  rw [getElem?_transfer, getElem?_transfer, mayWrite_eq same clobbered]

theorem usedPoints_eq (same : c.SameMemory d) (inst : Instruction) :
    usedPoints c inst = usedPoints d inst := by
  have reads : readNames c inst = readNames d inst := by
    unfold readNames
    simp only [same.loadType?_eq, same.mayPointTo]
  funext s
  unfold usedPoints
  rw [reads]

end Reaching

variable {p q : Program} {f g : Function}

section

variable (alike : p.Alike q) (same : f.Alike g) (wellFormed : f.WellFormed)

include alike same wellFormed

theorem Reaching.transfer_eq_of_alike {inst : Instruction} (member : inst ∈ f.instructions) :
    transfer (.ofFunction p f) inst = transfer (.ofFunction q g) inst := by
  apply transfer_eq (Context.sameMemory alike same.sameAddresses)
  intro site calls
  exact Context.clobbered_eq_of_alike alike same.sameAddresses wellFormed
    (same.wellFormed wellFormed) member (same.instructions_perm.mem_iff.1 member) calls calls rfl rfl

theorem Reaching.transferAll_eq_of_alike {name : String} {block : Block}
    (listed : f.blocks.get? name = some block) {part : List Instruction}
    (within : part ⊆ block.instructions) :
    (analysis (.ofFunction p f)).transferAll part = (analysis (.ofFunction q g)).transferAll part := by
  apply Analysis.transferAll_eq
  intro inst member
  exact transfer_eq_of_alike alike same wellFormed
    ((f.mem_instructions inst).2 ⟨name, block, listed, within member⟩)

theorem Reaching.solve_eq_of_alike : solve (.ofFunction p f) = solve (.ofFunction q g) := by
  have memory := Context.sameMemory alike same.sameAddresses
  have heights : height (.ofFunction p f) = height (.ofFunction q g) := by
    unfold height
    rw [memory.size_eq]
    simp only [Context.ofFunction, same.instructions_perm.length_eq]
  unfold solve
  rw [heights]
  apply Analysis.solve_eq same.blocks
  · intro name block listed
    exact transferAll_eq_of_alike alike same wellFormed listed (List.Subset.refl _)
  · exact start_eq memory

namespace ReachingDefs

theorem recordAt_compute_eq (point : Point) :
    recordAt (compute (.ofFunction p f)) point = recordAt (compute (.ofFunction q g)) point := by
  have memory := Context.sameMemory alike same.sameAddresses
  have solutions := Reaching.solve_eq_of_alike alike same wellFormed
  -- A point of a reached block belongs to one instruction there; nothing is recorded elsewhere.
  by_cases recorded : ∃ name block state inst, f.blocks.get? name = some block ∧
      (Reaching.solve (.ofFunction p f)).pre[name]? = some state ∧ inst ∈ block.instructions ∧
      inst.point = point
  · obtain ⟨name, block, state, inst, listed, found, member, rfl⟩ := recorded
    obtain ⟨before, after, parts⟩ := List.append_of_mem member
    have inside : inst ∈ f.instructions := (f.mem_instructions inst).2 ⟨name, block, listed, member⟩
    have within : before ⊆ block.instructions := by simp [parts]
    have twin_listed : g.blocks.get? name = some block := (same.blocks name).symm.trans listed
    have record : recordAt (compute (.ofFunction p f)) inst.point = _ :=
      recordAt_compute wellFormed listed parts found
    have twin_record : recordAt (compute (.ofFunction q g)) inst.point = _ :=
      recordAt_compute (same.wellFormed wellFormed) twin_listed parts (solutions ▸ found)
    rw [record, twin_record,
      Reaching.transferAll_eq_of_alike alike same wellFormed listed within,
      Reaching.transfer_eq_of_alike alike same wellFormed inside,
      Reaching.usedPoints_eq memory]
  · have elsewhere : ∀ name block, f.blocks.get? name = some block →
        name ∈ (Reaching.solve (.ofFunction p f)).pre →
        point ∉ block.instructions.map Instruction.point := by
      intro name block listed reached stands
      obtain ⟨state, found⟩ := (mem_map_iff _ _).1 reached
      obtain ⟨inst, member, at_point⟩ := List.mem_map.1 stands
      exact recorded ⟨name, block, state, inst, listed, found, member, at_point⟩
    have twin_elsewhere : ∀ name block, g.blocks.get? name = some block →
        name ∈ (Reaching.solve (.ofFunction q g)).pre →
        point ∉ block.instructions.map Instruction.point := by
      intro name block twin_listed reached
      exact elsewhere name block ((same.blocks name).trans twin_listed) (solutions.symm ▸ reached)
    have unrecorded : recordAt (compute (.ofFunction p f)) point = (none, none, none) :=
      recordAt_compute_of_notMem elsewhere
    have twin_unrecorded : recordAt (compute (.ofFunction q g)) point = (none, none, none) :=
      recordAt_compute_of_notMem twin_elsewhere
    rw [unrecorded, twin_unrecorded]

theorem solution_eq :
    (compute (.ofFunction p f)).solution = (compute (.ofFunction q g)).solution := by
  apply Std.ExtTreeMap.ext_getElem?
  intro point
  exact congrArg (·.2.2) (recordAt_compute_eq alike same wellFormed point)

end ReachingDefs

end

end Lir
