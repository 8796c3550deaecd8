import Lir.Proofs.WellFormed
import Lir.Reaching

/-!
What is recorded around the instructions of a well-formed function.

A point belongs to one instruction, so its record is that instruction's: the state that the block's
solution comes to before it, the state after it, and the definitions that reach its reads.
-/

set_option autoImplicit false

namespace Lir

namespace ReachingDefs

variable {ctx : Context}

def recordAt (r : ReachingDefs) (point : Point) :
    Option DefMap × Option DefMap × Option PointSet :=
  (r.before[point]?, r.after[point]?, r.solution[point]?)

theorem recordAt_record (r : ReachingDefs × DefMap) (inst : Instruction) (point : Point) :
    recordAt (record ctx r inst).1 point =
      if inst.point = point then
        (some r.2, some (Reaching.transfer ctx inst r.2), some (Reaching.usedPoints ctx inst r.2))
      else recordAt r.1 point := by
  simp only [recordAt, record, getElem?_insert_map]
  split <;> rfl

theorem foldl_record_fixpoint (instructions : List Instruction) (r : ReachingDefs × DefMap) :
    (instructions.foldl (record ctx) r).1.fixpoint = r.1.fixpoint := by
  induction instructions generalizing r with
  | nil => rfl
  | cons inst rest ih => exact ih (record ctx r inst)

theorem foldl_record_state (instructions : List Instruction) (r : ReachingDefs × DefMap) :
    (instructions.foldl (record ctx) r).2 =
      (Reaching.analysis ctx).transferAll instructions r.2 := by
  induction instructions generalizing r with
  | nil => rfl
  | cons inst rest ih => exact ih (record ctx r inst)

theorem recordAt_foldl_record_of_notMem {instructions : List Instruction} {point : Point}
    (elsewhere : point ∉ instructions.map Instruction.point) (r : ReachingDefs × DefMap) :
    recordAt (instructions.foldl (record ctx) r).1 point = recordAt r.1 point := by
  induction instructions generalizing r with
  | nil => rfl
  | cons inst rest ih =>
    rw [List.map_cons, List.mem_cons, not_or] at elsewhere
    rw [List.foldl_cons, ih elsewhere.2, recordAt_record, if_neg (Ne.symm elsewhere.1)]

theorem recordAt_foldl_record {before after : List Instruction} {inst : Instruction}
    (last : inst.point ∉ after.map Instruction.point) (r : ReachingDefs × DefMap) :
    recordAt ((before ++ inst :: after).foldl (record ctx) r).1 inst.point =
      (let s := (Reaching.analysis ctx).transferAll before r.2
       (some s, some (Reaching.transfer ctx inst s), some (Reaching.usedPoints ctx inst s))) := by
  rw [List.foldl_append, List.foldl_cons, recordAt_foldl_record_of_notMem last, recordAt_record,
    if_pos rfl, foldl_record_state]

theorem recordBlock_fixpoint (result : ReachingDefs) (block : String × Block) :
    (recordBlock ctx result block).fixpoint = result.fixpoint := by
  rw [recordBlock]
  split
  · exact foldl_record_fixpoint _ _
  · rfl

theorem foldl_recordBlock_fixpoint (blocks : List (String × Block)) (result : ReachingDefs) :
    (blocks.foldl (recordBlock ctx) result).fixpoint = result.fixpoint := by
  induction blocks generalizing result with
  | nil => rfl
  | cons block rest ih => exact (ih _).trans (recordBlock_fixpoint result block)

theorem recordAt_foldl_recordBlock_of_notMem {blocks : List (String × Block)} {point : Point}
    {result : ReachingDefs} (elsewhere : ∀ block ∈ blocks, block.1 ∈ result.fixpoint.pre →
      point ∉ block.2.instructions.map Instruction.point) :
    recordAt (blocks.foldl (recordBlock ctx) result) point = recordAt result point := by
  induction blocks generalizing result with
  | nil => rfl
  | cons block rest ih =>
    obtain ⟨not_first, not_rest⟩ := List.forall_mem_cons.1 elsewhere
    have kept := @recordBlock_fixpoint ctx result block
    rw [← kept] at not_rest
    rw [List.foldl_cons, ih not_rest, recordBlock]
    split
    next state found =>
      exact recordAt_foldl_record_of_notMem (not_first ((mem_map_iff _ _).2 ⟨state, found⟩)) _
    next => rfl

theorem recordAt_compute_of_notMem {point : Point}
    (elsewhere : ∀ name block, ctx.function.blocks.get? name = some block →
      name ∈ (Reaching.solve ctx).pre → point ∉ block.instructions.map Instruction.point) :
    recordAt (compute ctx) point = (none, none, none) := by
  unfold compute
  apply recordAt_foldl_recordBlock_of_notMem
  intro block member
  exact elsewhere block.1 block.2 ((ctx.function.blocks.get?_eq_some_iff _ _).2 member)

/-! ### Whose record it is -/

/-- What is recorded at a point is recorded there by an instruction of a reached block, and it is met
in the state that the block comes to before it. -/
def IsRecord (ctx : Context) (point : Point)
    (recorded : Option DefMap × Option DefMap × Option PointSet) : Prop :=
  ∃ name block before inst after state, ctx.function.blocks.get? name = some block ∧
    block.instructions = before ++ inst :: after ∧ (Reaching.solve ctx).pre[name]? = some state ∧
    inst.point = point ∧
    recorded = (let s := (Reaching.analysis ctx).transferAll before state
      (some s, some (Reaching.transfer ctx inst s), some (Reaching.usedPoints ctx inst s)))

theorem exists_recordAt_foldl_record {instructions : List Instruction} {point : Point}
    (member : point ∈ instructions.map Instruction.point) (r : ReachingDefs × DefMap) :
    ∃ before inst after, instructions = before ++ inst :: after ∧ inst.point = point ∧
      recordAt (instructions.foldl (record ctx) r).1 point =
        (let s := (Reaching.analysis ctx).transferAll before r.2
         (some s, some (Reaching.transfer ctx inst s), some (Reaching.usedPoints ctx inst s))) := by
  induction instructions generalizing r with
  | nil => exact absurd member List.not_mem_nil
  | cons inst rest ih =>
    by_cases later : point ∈ rest.map Instruction.point
    · obtain ⟨before, last, after, rfl, at_point, recorded⟩ := ih later (record ctx r inst)
      exact ⟨inst :: before, last, after, rfl, at_point, recorded⟩
    · obtain rfl := (List.mem_cons.1 member).resolve_right later
      exact ⟨[], inst, rest, rfl, rfl, @recordAt_foldl_record ctx [] rest inst later r⟩

/-- Recording a block leaves a record at each of its points and at each point that had one. -/
theorem isRecord_recordBlock {result : ReachingDefs}
    (solution : result.fixpoint = Reaching.solve ctx) {name : String} {block : Block}
    (listed : ctx.function.blocks.get? name = some block) {point : Point}
    (recorded : IsRecord ctx point (recordAt result point) ∨
      name ∈ (Reaching.solve ctx).pre ∧ point ∈ block.instructions.map Instruction.point) :
    IsRecord ctx point (recordAt (recordBlock ctx result (name, block)) point) := by
  rw [recordBlock, solution]
  cases found : (Reaching.solve ctx).pre[name]? with
  | none =>
    refine recorded.resolve_right fun inside => ?_
    simp [mem_map_iff, found] at inside
  | some state =>
    by_cases inside : point ∈ block.instructions.map Instruction.point
    · obtain ⟨before, inst, after, parts, at_point, same⟩ :=
        exists_recordAt_foldl_record inside (result, state)
      exact ⟨name, block, before, inst, after, state, listed, parts, found, at_point, same⟩
    · refine (recordAt_foldl_record_of_notMem inside (result, state)).symm ▸ ?_
      exact recorded.resolve_right fun both => inside both.2

theorem isRecord_compute {name : String} {block : Block}
    (listed : ctx.function.blocks.get? name = some block)
    (reached : name ∈ (Reaching.solve ctx).pre) {point : Point}
    (member : point ∈ block.instructions.map Instruction.point) :
    IsRecord ctx point (recordAt (compute ctx) point) := by
  have run : ∀ (blocks : List (String × Block)) (result : ReachingDefs),
      result.fixpoint = Reaching.solve ctx →
      (∀ entry ∈ blocks, ctx.function.blocks.get? entry.1 = some entry.2) →
      IsRecord ctx point (recordAt result point) ∨ (name, block) ∈ blocks →
      IsRecord ctx point (recordAt (blocks.foldl (recordBlock ctx) result) point) := by
    intro blocks
    induction blocks with
    | nil => exact fun _ _ _ recorded => recorded.resolve_right List.not_mem_nil
    | cons first rest ih =>
      intro result solution all recorded
      obtain ⟨first_listed, rest_listed⟩ := List.forall_mem_cons.1 all
      refine ih _ ((recordBlock_fixpoint result first).trans solution) rest_listed ?_
      rcases recorded with recorded | entry
      · exact .inl (isRecord_recordBlock solution first_listed (.inl recorded))
      · rcases List.mem_cons.1 entry with rfl | later
        · exact .inl (isRecord_recordBlock solution first_listed (.inr ⟨reached, member⟩))
        · exact .inr later
  exact run _ ⟨Reaching.solve ctx, ∅, ∅, ∅⟩ rfl
    (fun entry listed => (ctx.function.blocks.get?_eq_some_iff _ _).2 listed)
    (.inr ((ctx.function.blocks.get?_eq_some_iff _ _).1 listed))

theorem recordAt_compute (wellFormed : ctx.function.WellFormed) {name : String} {block : Block}
    (listed : ctx.function.blocks.get? name = some block) {before after : List Instruction}
    {inst : Instruction} (parts : block.instructions = before ++ inst :: after) {state : DefMap}
    (found : (Reaching.solve ctx).pre[name]? = some state) :
    recordAt (compute ctx) inst.point =
      (let s := (Reaching.analysis ctx).transferAll before state
       (some s, some (Reaching.transfer ctx inst s), some (Reaching.usedPoints ctx inst s))) := by
  have member : inst ∈ block.instructions := by simp [parts]
  obtain ⟨other, _, earlier, twin, later, _, other_listed, other_parts, other_found, same,
    recorded⟩ := isRecord_compute listed ((mem_map_iff _ name).2 ⟨state, found⟩)
      (List.mem_map_of_mem member)
  -- The point names its block and stands in it once, so the record is of this very instruction.
  obtain rfl : name = other := by
    rw [← wellFormed.block_point listed member, ← same,
      wellFormed.block_point other_listed (by simp [other_parts])]
  obtain rfl := Option.some.inj (listed.symm.trans other_listed)
  obtain rfl := Option.some.inj (found.symm.trans other_found)
  obtain rfl : inst = twin := wellFormed.eq_of_point
    ((ctx.function.mem_instructions inst).2 ⟨name, block, listed, member⟩)
    ((ctx.function.mem_instructions twin).2 ⟨name, block, listed, by simp [other_parts]⟩) same.symm
  have once := (wellFormed.block name block listed).nodup_points.of_map
  rw [parts, List.nodup_middle, List.nodup_cons, List.mem_append, not_or] at once
  obtain ⟨rfl, _⟩ := (List.append_cons_inj_of_notMem once.1.1 once.1.2).1
    (parts.symm.trans other_parts)
  exact recorded

end ReachingDefs

end Lir
