import Lir.Flow.Graph

/-!
Paths of a flow graph.

A path is recorded by the blocks it leaves, in order; its last block comes on top of those. Paths
grow at their end, the way an analysis or an execution meets them.
-/

set_option autoImplicit false

namespace Lir

namespace FlowGraph

/-- A path from a block, through the blocks that it has left, to the block where it stands. -/
inductive Path (g : FlowGraph) (source : String) : List String → String → Prop where
  | start : Path g source [] source
  | step {left : List String} {block target : String} :
      Path g source left block → target ∈ g.successors block →
      Path g source (left ++ [block]) target

theorem Path.append {g : FlowGraph} {source middle target : String} {left later : List String}
    (path : g.Path source left middle) (next : g.Path middle later target) :
    g.Path source (left ++ later) target := by
  induction next with
  | start => rwa [List.append_nil]
  | step _ edge ih =>
    rw [← List.append_assoc]
    exact ih.step edge

/-- Some path from the entry ends at the block. -/
def Reaches (g : FlowGraph) (block : String) : Prop := ∃ left, g.Path entryName left block

def Closed (g : FlowGraph) : Prop :=
  ∀ block target, target ∈ g.successors block → g.contains target = true

variable {g : FlowGraph}

theorem Reaches.entry : g.Reaches entryName := ⟨[], .start⟩

theorem Reaches.step {block target : String} (reached : g.Reaches block)
    (edge : target ∈ g.successors block) : g.Reaches target := by
  obtain ⟨left, path⟩ := reached
  exact ⟨left ++ [block], path.step edge⟩

theorem Reaches.induction {motive : String → Prop} (entry : motive entryName)
    (follow : ∀ block target, g.Reaches block → motive block → target ∈ g.successors block →
      motive target)
    {block : String} (reached : g.Reaches block) : motive block := by
  obtain ⟨left, path⟩ := reached
  induction path with
  | start => exact entry
  | step path edge ih => exact follow _ _ ⟨_, path⟩ ih edge

theorem Reaches.contains (closed : g.Closed) (entry : g.contains entryName = true)
    {block : String} (reached : g.Reaches block) : g.contains block = true := by
  obtain ⟨left, path⟩ := reached
  cases path with
  | start => exact entry
  | step _ edge => exact closed _ _ edge

theorem Reaches.eq_entry (absent : ¬ g.contains entryName = true) {block : String}
    (reached : g.Reaches block) : block = entryName := by
  refine reached.induction (motive := (· = entryName)) rfl fun source target _ at_entry edge => ?_
  subst at_entry
  have missing : g.edges.get? entryName = none := by
    rw [← Option.not_isSome_iff_eq_none, g.edges.isSome_get?]
    exact absent
  simp [successors, missing] at edge

end FlowGraph

theorem Function.closed_graph (f : Function) : f.graph.Closed := by
  intro block target edge
  obtain ⟨_, _, _, present⟩ := (f.mem_successors_graph block target).1 edge
  simpa using present

theorem Function.exists_block {f : Function} (entry : f.blocks.contains entryName = true)
    {name : String} (reached : f.graph.Reaches name) : ∃ block, f.blocks.get? name = some block := by
  have present := reached.contains f.closed_graph ((f.contains_graph entryName).trans entry)
  rwa [f.contains_graph, Table.contains_eq_true_iff] at present

end Lir
