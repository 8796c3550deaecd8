import Lir.Proofs.Memory.Members
import Lir.Proofs.WellFormed

/-!
What a call may overwrite.

Calls are noted when all addresses have been, and noting a call changes neither the variables nor
the alias sets. So where a point belongs to one instruction, what is kept for the point of a call
is what the whole memory of the function lets the call overwrite.
-/

set_option autoImplicit false

namespace Lir

namespace Memory

variable {p : Program} {m : Memory}

theorem clobberSet_noteCall (p : Program) (m : Memory) (inst : Instruction) (site : Call) :
    clobberSet p (m.noteCall p inst) site = clobberSet p m site := by
  unfold noteCall
  cases inst.call? <;> rfl

theorem clobbered_noteCall_of_ne {inst : Instruction} {point : Point} (other : inst.point ≠ point) :
    (m.noteCall p inst).aliases.clobbered point = m.aliases.clobbered point := by
  unfold noteCall
  cases inst.call? with
  | none => rfl
  | some site =>
    unfold AliasSets.clobbered
    rw [getElem?_insert_map, if_neg other]

theorem clobbered_noteCall {inst : Instruction} {site : Call} (calls : inst.call? = some site) :
    (m.noteCall p inst).aliases.clobbered inst.point = clobberSet p m site := by
  unfold noteCall
  rw [calls]
  unfold AliasSets.clobbered
  rw [getElem?_insert_map, if_pos rfl]
  rfl

theorem clobberSet_foldl_noteCall (instructions : List Instruction) (site : Call) :
    clobberSet p (instructions.foldl (noteCall p) m) site = clobberSet p m site := by
  induction instructions generalizing m with
  | nil => rfl
  | cons inst rest ih =>
    rw [List.foldl_cons, ih, clobberSet_noteCall]

theorem clobbered_foldl_noteCall_of_notMem {instructions : List Instruction} {point : Point}
    (elsewhere : point ∉ instructions.map Instruction.point) :
    (instructions.foldl (noteCall p) m).aliases.clobbered point = m.aliases.clobbered point := by
  induction instructions generalizing m with
  | nil => rfl
  | cons inst rest ih =>
    rw [List.map_cons, List.mem_cons, not_or] at elsewhere
    rw [List.foldl_cons, ih elsewhere.2, clobbered_noteCall_of_ne (Ne.symm elsewhere.1)]

theorem clobbered_foldl_noteCall {instructions : List Instruction} {inst : Instruction}
    {site : Call} (distinct : (instructions.map Instruction.point).Nodup)
    (member : inst ∈ instructions) (calls : inst.call? = some site) :
    (instructions.foldl (noteCall p) m).aliases.clobbered inst.point = clobberSet p m site := by
  induction instructions generalizing m with
  | nil => exact absurd member List.not_mem_nil
  | cons first rest ih =>
    obtain ⟨fresh, distinct⟩ := List.nodup_cons.1 distinct
    rw [List.foldl_cons]
    rcases List.mem_cons.1 member with rfl | later
    · rw [clobbered_foldl_noteCall_of_notMem fresh, clobbered_noteCall calls]
    · rw [ih distinct later, clobberSet_noteCall]

end Memory

theorem Context.clobbered_eq (p : Program) {f : Function} (wellFormed : f.WellFormed)
    {inst : Instruction} (member : inst ∈ f.instructions) {site : Call}
    (calls : inst.call? = some site) :
    (ofFunction p f).aliases.clobbered inst.point =
      Memory.clobberSet p (ofFunction p f).memory site := by
  have noted := Memory.clobbered_foldl_noteCall (p := p)
    (m := f.instructions.foldl Memory.noteAddress (celledMemory p f)) wellFormed.nodup_points
    member calls
  have kept := Memory.clobberSet_foldl_noteCall (p := p)
    (m := f.instructions.foldl Memory.noteAddress (celledMemory p f)) f.instructions site
  exact noted.trans kept.symm

end Lir
