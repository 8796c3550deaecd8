import Lir.Proofs.Entries
import Lir.Proofs.Flow.Path
import Lir.Proofs.Memory.Alike

/-!
Functions whose blocks are renamed.

A renaming changes labels, targets and continuations alike. If it keeps the blocks apart, the flow
graph is the same up to names, points still belong to one instruction each, and the memory of the
function does not change.
-/

set_option autoImplicit false

namespace Lir

/-! ### Renaming blocks -/

section

variable (rename : String → String)

def Op.renameBlocks : Op → Op
  | .call site => .call { site with next := site.next.map rename }
  | operation => operation

def Terminator.renameBlocks : Terminator → Terminator
  | .jump target => .jump (rename target)
  | .branch cond thenBlock elseBlock => .branch cond (rename thenBlock) (rename elseBlock)
  | .ret value => .ret value

def Instruction.renameBlocks : Instruction → Instruction
  | .op block index operation => .op (rename block) index (operation.renameBlocks rename)
  | .term block terminator => .term (rename block) (terminator.renameBlocks rename)

def Block.renameBlocks (b : Block) : Block :=
  ⟨rename b.name, b.instructions.map (Instruction.renameBlocks rename)⟩

def Function.renameBlocks (f : Function) : Function :=
  { f with blocks :=
    .ofList (f.blocks.entries.map fun entry => (rename entry.1, entry.2.renameBlocks rename)) }

end

/-- The entry keeps its name, and no block gets a name that another block or an edge to nowhere
gets. -/
structure Function.KeepsApart (f : Function) (rename : String → String) : Prop where
  entry : rename entryName = entryName
  apart : ∀ block ∈ f.blocks.keys, ∀ name, name ∈ f.blocks.keys ∨
    (∃ inst ∈ f.instructions, name ∈ inst.successors) → rename name = rename block → name = block

theorem Function.keepsApart_of_injective (f : Function) {rename : String → String}
    (injective : Function.Injective rename) (entry : rename entryName = entryName) :
    f.KeepsApart rename :=
  ⟨entry, fun _ _ _ _ same => injective same⟩

/-! ### Instructions -/

namespace Instruction

variable {rename : String → String}

theorem successors_renameBlocks (inst : Instruction) :
    (inst.renameBlocks rename).successors = inst.successors.map rename := by
  cases inst with
  | op block index operation =>
    cases operation with
    | call site =>
      obtain ⟨_, _, _, _, next⟩ := site
      cases next <;> rfl
    | _ => rfl
  | term block terminator => cases terminator <;> rfl

theorem mentions_renameBlocks (inst : Instruction) :
    (inst.renameBlocks rename).mentions = inst.mentions := by
  cases inst with
  | op block index operation => cases operation <;> rfl
  | term block terminator => cases terminator <;> rfl

theorem addressTaken?_renameBlocks (inst : Instruction) :
    (inst.renameBlocks rename).addressTaken? = inst.addressTaken? := by
  cases inst with
  | op block index operation => cases operation <;> rfl
  | term block terminator => rfl

theorem allocated?_renameBlocks (inst : Instruction) :
    (inst.renameBlocks rename).allocated? = inst.allocated? := by
  cases inst with
  | op block index operation => cases operation <;> rfl
  | term block terminator => rfl

theorem isTerm_renameBlocks (inst : Instruction) :
    (inst.renameBlocks rename).isTerm = inst.isTerm := by
  cases inst <;> rfl

theorem index?_renameBlocks (inst : Instruction) :
    (inst.renameBlocks rename).index? = inst.index? := by
  cases inst <;> rfl

theorem block_renameBlocks (inst : Instruction) :
    (inst.renameBlocks rename).block = rename inst.block := by
  cases inst <;> rfl

end Instruction

/-! ### Blocks -/

namespace Block

variable {rename : String → String}

theorem mem_successors (b : Block) (target : String) :
    target ∈ b.successors ↔ ∃ inst ∈ b.instructions, target ∈ inst.successors := by
  unfold successors
  rw [List.mem_eraseDups, List.mem_flatMap]

theorem mem_successors_renameBlocks (b : Block) (target : String) :
    target ∈ (b.renameBlocks rename).successors ↔ ∃ old ∈ b.successors, target = rename old := by
  simp only [mem_successors, renameBlocks, List.mem_map, exists_exists_and_eq_and,
    Instruction.successors_renameBlocks]
  constructor
  · rintro ⟨inst, member, old, edge, rfl⟩
    exact ⟨old, ⟨inst, member, edge⟩, rfl⟩
  · rintro ⟨old, ⟨inst, member, edge⟩, rfl⟩
    exact ⟨inst, member, old, edge, rfl⟩

theorem WellFormed.renameBlocks {b : Block} (wellFormed : b.WellFormed) :
    (b.renameBlocks rename).WellFormed where
  owned inst member := by
    obtain ⟨old, listed, rfl⟩ := List.mem_map.1 member
    rw [old.block_renameBlocks, wellFormed.owned old listed]
    rfl
  numbered := by
    have count : (b.renameBlocks rename).nextIndex = b.nextIndex := by
      unfold nextIndex Block.renameBlocks
      rw [List.countP_map]
      congr 1
      funext inst
      rw [Function.comp_apply, inst.isTerm_renameBlocks]
    rw [count, ← wellFormed.numbered, Block.renameBlocks, List.filterMap_map]
    congr 1
    funext inst
    exact inst.index?_renameBlocks
  open_before inst member := by
    unfold Block.renameBlocks at member
    rw [← List.map_dropLast] at member
    obtain ⟨old, listed, rfl⟩ := List.mem_map.1 member
    rw [old.isTerm_renameBlocks]
    exact wellFormed.open_before old listed

end Block

/-! ### Functions -/

namespace Function

variable {f : Function} {rename : String → String}

theorem KeepsApart.nodup (keeps : f.KeepsApart rename) : (f.blocks.keys.map rename).Nodup :=
  List.Nodup.map_on (fun name listed block member same =>
    keeps.apart block member name (.inl listed) same) f.blocks.nodup

theorem KeepsApart.entries_renameBlocks (keeps : f.KeepsApart rename) :
    (f.renameBlocks rename).blocks.entries =
      f.blocks.entries.map fun entry => (rename entry.1, entry.2.renameBlocks rename) := by
  apply (Table.entries_insertAll ?_).trans (List.nil_append _)
  have nodup := keeps.nodup
  unfold Table.keys at nodup ⊢
  rw [List.map_map] at nodup ⊢
  exact nodup

theorem KeepsApart.get?_renameBlocks (keeps : f.KeepsApart rename) {name : String} {block : Block}
    (listed : f.blocks.get? name = some block) :
    (f.renameBlocks rename).blocks.get? (rename name) = some (block.renameBlocks rename) := by
  rw [Table.get?_eq_some_iff] at listed ⊢
  rw [keeps.entries_renameBlocks]
  exact List.mem_map.2 ⟨(name, block), listed, rfl⟩

theorem KeepsApart.exists_of_get? (keeps : f.KeepsApart rename) {name : String} {block : Block}
    (listed : (f.renameBlocks rename).blocks.get? name = some block) :
    ∃ old inside, f.blocks.get? old = some inside ∧ name = rename old ∧
      block = inside.renameBlocks rename := by
  rw [Table.get?_eq_some_iff, keeps.entries_renameBlocks] at listed
  obtain ⟨⟨old, inside⟩, member, same⟩ := List.mem_map.1 listed
  cases same
  exact ⟨old, inside, (f.blocks.get?_eq_some_iff old inside).2 member, rfl, rfl⟩

theorem KeepsApart.contains_renameBlocks (keeps : f.KeepsApart rename) {name : String}
    (listed : f.blocks.contains name = true) :
    (f.renameBlocks rename).blocks.contains (rename name) = true := by
  rw [Table.contains_eq_true_iff] at listed ⊢
  obtain ⟨block, listed⟩ := listed
  exact ⟨_, keeps.get?_renameBlocks listed⟩

theorem KeepsApart.instructions_renameBlocks (keeps : f.KeepsApart rename) :
    (f.renameBlocks rename).instructions =
      f.instructions.map (Instruction.renameBlocks rename) := by
  unfold instructions Table.values
  rw [keeps.entries_renameBlocks, List.flatMap_map, List.flatMap_map, List.map_flatMap,
    List.flatMap_map]
  rfl

theorem KeepsApart.wellFormed (keeps : f.KeepsApart rename) (wellFormed : f.WellFormed) :
    (f.renameBlocks rename).WellFormed where
  named name block listed := by
    obtain ⟨old, inside, old_listed, rfl, rfl⟩ := keeps.exists_of_get? listed
    exact congrArg rename (wellFormed.named old inside old_listed)
  block name block listed := by
    obtain ⟨old, inside, old_listed, rfl, rfl⟩ := keeps.exists_of_get? listed
    exact (wellFormed.block old inside old_listed).renameBlocks

theorem KeepsApart.mem_successors_graph (keeps : f.KeepsApart rename) {name : String}
    (listed : f.blocks.contains name = true) (target : String) :
    target ∈ (f.renameBlocks rename).graph.successors (rename name) ↔
      ∃ old ∈ f.graph.successors name, target = rename old := by
  obtain ⟨block, found⟩ := (Table.contains_eq_true_iff _ _).1 listed
  simp only [Function.mem_successors_graph, keeps.get?_renameBlocks found, found,
    Option.some.injEq, exists_eq_left', Block.mem_successors_renameBlocks]
  constructor
  · rintro ⟨⟨old, edge, rfl⟩, present⟩
    obtain ⟨renamed, present⟩ := (Table.contains_eq_true_iff _ _).1 present
    obtain ⟨other, inside, other_listed, same, _⟩ := keeps.exists_of_get? present
    have other_present := (Table.contains_eq_true_iff _ _).2 ⟨inside, other_listed⟩
    -- The target has a block after renaming, so it had one before.
    obtain ⟨inst, member, leads⟩ := (block.mem_successors old).1 edge
    have leaves : ∃ inst ∈ f.instructions, old ∈ inst.successors :=
      ⟨inst, (f.mem_instructions inst).2 ⟨name, block, found, member⟩, leads⟩
    have old_is := keeps.apart other ((Table.contains_iff_mem_keys _ _).1 other_present) old
      (.inr leaves) same
    exact ⟨old, ⟨edge, old_is ▸ other_present⟩, rfl⟩
  · rintro ⟨old, ⟨edge, present⟩, rfl⟩
    exact ⟨⟨old, edge, rfl⟩, keeps.contains_renameBlocks present⟩

theorem KeepsApart.sameAddresses (keeps : f.KeepsApart rename) :
    f.SameAddresses (f.renameBlocks rename) where
  params := rfl
  locals := Table.Same.refl _
  allocated dst := by
    simp only [keeps.instructions_renameBlocks, List.mem_map, exists_exists_and_eq_and,
      Instruction.allocated?_renameBlocks]
  taken name := by
    simp only [keeps.instructions_renameBlocks, List.mem_map, exists_exists_and_eq_and,
      Instruction.addressTaken?_renameBlocks]

end Function

theorem Program.alike_define {p : Program} {f g : Function}
    (listed : p.functions.get? g.name = some f) (signature : f.signature = g.signature) :
    p.Alike (p.define g) where
  records name := by
    change Option.Rel _ (p.records.get? name) (p.records.get? name)
    cases p.records.get? name with
    | none => exact .none
    | some definition => exact .some (Table.Same.refl _)
  globals := Table.Same.refl _
  externs := Table.Same.refl _
  signatures name := by
    change _ = ((p.functions.insert g.name g).get? name).map Function.signature
    rw [Table.get?_insert]
    split
    next same =>
      rw [← same, listed]
      exact congrArg some signature
    next => rfl

end Lir
