import Lir.Function
import Mathlib.Data.List.Nodup

/-!
Blocks and functions whose instructions stand where their points say.

Reading a source and adding to a block build nothing else; a function from outside may be anything.
In a well-formed function a point belongs to one instruction.
-/

set_option autoImplicit false

namespace Lir

def Instruction.index? : Instruction → Option Nat
  | .op _ index _ => some index
  | .term _ _ => none

structure Block.WellFormed (b : Block) : Prop where
  owned : ∀ inst ∈ b.instructions, inst.block = b.name
  numbered : b.instructions.filterMap Instruction.index? = List.range b.nextIndex
  /-- Only the last instruction may be a terminator. -/
  open_before : ∀ inst ∈ b.instructions.dropLast, inst.isTerm = false

structure Function.WellFormed (f : Function) : Prop where
  named : ∀ name block, f.blocks.get? name = some block → block.name = name
  block : ∀ name block, f.blocks.get? name = some block → block.WellFormed

theorem Block.wellFormed_iff (b : Block) :
    b.WellFormed ↔ (∀ inst ∈ b.instructions, inst.block = b.name) ∧
      b.instructions.filterMap Instruction.index? = List.range b.nextIndex ∧
      ∀ inst ∈ b.instructions.dropLast, inst.isTerm = false :=
  ⟨fun ⟨owned, numbered, open_before⟩ => ⟨owned, numbered, open_before⟩,
    fun ⟨owned, numbered, open_before⟩ => ⟨owned, numbered, open_before⟩⟩

instance (b : Block) : Decidable b.WellFormed := decidable_of_iff' _ b.wellFormed_iff

theorem Function.wellFormed_iff (f : Function) :
    f.WellFormed ↔ ∀ entry ∈ f.blocks.entries, entry.2.name = entry.1 ∧ entry.2.WellFormed := by
  constructor
  · intro ⟨named, block⟩ entry member
    have listed := (f.blocks.get?_eq_some_iff entry.1 entry.2).2 member
    exact ⟨named _ _ listed, block _ _ listed⟩
  · intro all
    have each : ∀ name block, f.blocks.get? name = some block →
        block.name = name ∧ block.WellFormed := fun name block listed =>
      all (name, block) ((f.blocks.get?_eq_some_iff name block).1 listed)
    exact ⟨fun name block listed => (each name block listed).1,
      fun name block listed => (each name block listed).2⟩

instance (f : Function) : Decidable f.WellFormed := decidable_of_iff' _ f.wellFormed_iff

theorem Instruction.block_point (inst : Instruction) : inst.point.block = inst.block := by
  cases inst <;> rfl

theorem Instruction.nodup_points {instructions : List Instruction}
    (numbers : (instructions.filterMap Instruction.index?).Nodup)
    (open_before : ∀ inst ∈ instructions.dropLast, inst.isTerm = false) :
    (instructions.map Instruction.point).Nodup := by
  induction instructions with
  | nil => exact List.nodup_nil
  | cons inst rest ih =>
    cases rest with
    | nil => simp
    | cons next rest =>
      rw [List.dropLast_cons_cons] at open_before
      obtain ⟨first_open, rest_open⟩ := List.forall_mem_cons.1 open_before
      cases inst with
      | term _ _ => simp [isTerm] at first_open
      | op block index operation =>
        have first : (op block index operation).index? = some index := rfl
        rw [List.filterMap_cons_some first] at numbers
        obtain ⟨fresh, numbers⟩ := List.nodup_cons.1 numbers
        rw [List.map_cons]
        refine List.nodup_cons.2 ⟨fun member => fresh ?_, ih numbers rest_open⟩
        obtain ⟨other, other_member, same⟩ := List.mem_map.1 member
        refine List.mem_filterMap.2 ⟨other, other_member, ?_⟩
        cases other with
        | term _ _ => simp [point] at same
        | op _ _ _ =>
          obtain ⟨_, rfl⟩ := Point.op.inj same
          rfl

theorem Block.WellFormed.nodup_points {b : Block} (wellFormed : b.WellFormed) :
    (b.instructions.map Instruction.point).Nodup :=
  Instruction.nodup_points (wellFormed.numbered ▸ List.nodup_range) wellFormed.open_before

theorem Function.WellFormed.block_point {f : Function} (wellFormed : f.WellFormed) {name : String}
    {block : Block} (listed : f.blocks.get? name = some block) {inst : Instruction}
    (member : inst ∈ block.instructions) : inst.point.block = name := by
  rw [inst.block_point, (wellFormed.block name block listed).owned inst member,
    wellFormed.named name block listed]

theorem Function.WellFormed.eq_of_point {f : Function} (wellFormed : f.WellFormed)
    {inst other : Instruction} (member : inst ∈ f.instructions)
    (other_member : other ∈ f.instructions) (same : inst.point = other.point) : inst = other := by
  obtain ⟨name, block, listed, inside⟩ := (f.mem_instructions inst).1 member
  obtain ⟨other_name, other_block, other_listed, other_inside⟩ :=
    (f.mem_instructions other).1 other_member
  obtain rfl : name = other_name := by
    rw [← wellFormed.block_point listed inside, same,
      wellFormed.block_point other_listed other_inside]
  obtain rfl := Option.some.inj (listed.symm.trans other_listed)
  exact List.inj_on_of_nodup_map (wellFormed.block name block listed).nodup_points inside
    other_inside same

theorem Function.WellFormed.nodup_points {f : Function} (wellFormed : f.WellFormed) :
    (f.instructions.map Instruction.point).Nodup := by
  unfold Function.instructions Table.values
  rw [List.flatMap_map, List.map_flatMap, List.nodup_flatMap]
  constructor
  · intro entry member
    have listed := (f.blocks.get?_eq_some_iff entry.1 entry.2).2 member
    exact (wellFormed.block entry.1 entry.2 listed).nodup_points
  · -- Points of different blocks name different blocks.
    have distinct := List.pairwise_map.1 (List.nodup_iff_pairwise_ne.1 f.blocks.nodup)
    refine distinct.imp_of_mem fun {entry other} member other_member different => ?_
    intro point here there
    obtain ⟨inst, inside, rfl⟩ := List.mem_map.1 here
    obtain ⟨twin, other_inside, same⟩ := List.mem_map.1 there
    apply different
    rw [← wellFormed.block_point ((f.blocks.get?_eq_some_iff _ _).2 member) inside, ← same,
      wellFormed.block_point ((f.blocks.get?_eq_some_iff _ _).2 other_member) other_inside]

/-! ### Blocks as logs -/

namespace Block

theorem wellFormed_empty (name : String) : (Block.empty name).WellFormed :=
  ⟨fun _ member => absurd member List.not_mem_nil, rfl,
    fun _ member => absurd member List.not_mem_nil⟩

theorem forall_isTerm_eq_false_iff (b : Block) :
    (∀ inst ∈ b.instructions, inst.isTerm = false) ↔
      (∀ inst ∈ b.instructions.dropLast, inst.isTerm = false) ∧ b.isTerminated = false := by
  rw [isTerminated]
  rcases List.eq_nil_or_concat b.instructions with none | ⟨front, last, same⟩
  · simp [none]
  · rw [same, List.concat_eq_append, List.dropLast_concat, List.getLast?_concat,
      List.forall_mem_append]
    simp

theorem nextIndex_append (name : String) (instructions : List Instruction) (inst : Instruction) :
    (⟨name, instructions ++ [inst]⟩ : Block).nextIndex =
      (⟨name, instructions⟩ : Block).nextIndex + inst.index?.toList.length := by
  rw [nextIndex, List.countP_append]
  cases inst <;> rfl

theorem wellFormed_append_iff (name : String) (instructions : List Instruction)
    (inst : Instruction) :
    (⟨name, instructions ++ [inst]⟩ : Block).WellFormed ↔
      (⟨name, instructions⟩ : Block).WellFormed ∧
        (⟨name, instructions⟩ : Block).isTerminated = false ∧ inst.block = name ∧
        ∀ index ∈ inst.index?, index = (⟨name, instructions⟩ : Block).nextIndex := by
  have all_open := forall_isTerm_eq_false_iff ⟨name, instructions⟩
  have numbered : (instructions ++ [inst]).filterMap Instruction.index? =
        List.range (⟨name, instructions ++ [inst]⟩ : Block).nextIndex ↔
      instructions.filterMap Instruction.index? =
          List.range (⟨name, instructions⟩ : Block).nextIndex ∧
        ∀ index ∈ inst.index?, index = (⟨name, instructions⟩ : Block).nextIndex := by
    have last : [inst].filterMap Instruction.index? = inst.index?.toList := by cases inst <;> rfl
    rw [List.filterMap_append, nextIndex_append, last]
    cases inst.index? with
    | none => simp
    | some index => simp [List.range_succ]
  rw [wellFormed_iff, wellFormed_iff, List.dropLast_concat, numbered, all_open,
    List.forall_mem_append, List.forall_mem_singleton]
  constructor
  · rintro ⟨⟨owned, last_owned⟩, ⟨numbers, last_number⟩, open_before, not_terminated⟩
    exact ⟨⟨owned, numbers, open_before⟩, not_terminated, last_owned, last_number⟩
  · rintro ⟨⟨owned, numbers, open_before⟩, not_terminated, last_owned, last_number⟩
    exact ⟨⟨owned, last_owned⟩, ⟨numbers, last_number⟩, open_before, not_terminated⟩

theorem append_eq_ok_iff (b : Block) (inst : Instruction) (added : Point × Block) :
    b.append inst = .ok added ↔
      b.isTerminated = false ∧
        added = (inst.point, { b with instructions := b.instructions ++ [inst] }) := by
  rw [append]
  split
  next terminated => simp [terminated]
  next not_terminated => simp [not_terminated, eq_comm]

theorem WellFormed.addOp {b : Block} (wellFormed : b.WellFormed) {operation : Op}
    {added : Point × Block} (accepted : b.addOp operation = .ok added) : added.2.WellFormed := by
  obtain ⟨not_terminated, rfl⟩ := (append_eq_ok_iff _ _ _).1 accepted
  exact (wellFormed_append_iff _ _ _).2
    ⟨wellFormed, not_terminated, rfl, fun _ number => (Option.some.inj number).symm⟩

theorem WellFormed.setTerm {b : Block} (wellFormed : b.WellFormed) {terminator : Terminator}
    {added : Point × Block} (accepted : b.setTerm terminator = .ok added) :
    added.2.WellFormed := by
  obtain ⟨not_terminated, rfl⟩ := (append_eq_ok_iff _ _ _).1 accepted
  exact (wellFormed_append_iff _ _ _).2
    ⟨wellFormed, not_terminated, rfl, fun _ number => by simp [Instruction.index?] at number⟩

end Block

end Lir
