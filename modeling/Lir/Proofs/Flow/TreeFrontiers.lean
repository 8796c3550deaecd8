import Lir.Proofs.Flow.DominatorTree

/-!
Frontiers follow the dominator tree: the frontier of a block has the ends of its own edges and what
is on the frontiers of its children, as far as the block is not their immediate dominator.

An edge leads out of what its start dominates exactly if the start is not the immediate dominator of
the end, and the same goes for what is on the frontier of a child.
-/

set_option autoImplicit false

namespace Lir

namespace FlowGraph

variable {g : FlowGraph}

theorem StrictlyDominates.immediate_of_edge {block target : String}
    (strict : g.StrictlyDominates block target) (edge : target ∈ g.successors block) :
    g.ImmediatelyDominates block target :=
  ⟨strict, fun _ other => other.2.predecessor other.1 edge⟩

theorem StrictlyDominates.immediate_of_child {block child pred target : String}
    (strict : g.StrictlyDominates block target) (immediate : g.ImmediatelyDominates block child)
    (edge : target ∈ g.successors pred) (reached : g.Reaches pred)
    (below : g.Dominates child pred) (ends : ¬ g.StrictlyDominates child target) :
    g.ImmediatelyDominates block target := by
  refine ⟨strict, fun other other_strict => ?_⟩
  have other_below := other_strict.2.predecessor other_strict.1 edge
  rcases other_below.total below reached with above | under
  · by_cases same : other = child
    · exact absurd (same ▸ other_strict) ends
    · exact immediate.closest other ⟨same, above⟩
  · -- Below the child, another dominator of the end would leave the child one too.
    by_cases same : child = target
    · exact (same ▸ immediate).closest other other_strict
    · exact absurd ⟨same, under.trans other_strict.2⟩ ends

end FlowGraph

namespace Dominance

variable {g : FlowGraph}

theorem exists_child_dominating (closed : g.Closed) {block target : String}
    (reached : g.Reaches target) (strict : g.StrictlyDominates block target) :
    ∃ child, g.ImmediatelyDominates block child ∧ g.Dominates child target := by
  refine tree_induction closed (motive := fun target => g.StrictlyDominates block target →
    ∃ child, g.ImmediatelyDominates block child ∧ g.Dominates child target) ?_ ?_ reached strict
  · exact fun strict => absurd rfl strict.ne_entry
  · intro target parent _ immediate ih strict
    by_cases here : block = parent
    · exact ⟨target, here ▸ immediate, .refl target⟩
    · obtain ⟨child, below, dominates⟩ := ih ⟨here, immediate.closest block strict⟩
      exact ⟨child, below, dominates.trans immediate.strict.2⟩

/-- What a frontier takes over along the tree. -/
theorem mem_frontiers_iff_tree (f : Function) {block : String} (reached : f.graph.Reaches block)
    (member : String) :
    member ∈ setAt (build f.graph).frontiers block ↔
      (member ∈ f.graph.successors block ∧ (build f.graph).idom[member]? ≠ some block) ∨
      ∃ child ∈ (build f.graph).childrenOf block,
        member ∈ setAt (build f.graph).frontiers child ∧
          (build f.graph).idom[member]? ≠ some block := by
  have closed := f.closed_graph
  have found := getElem?_idom_eq_some_iff closed
  have on_frontier : ∀ name, member ∈ setAt (build f.graph).frontiers name ↔
      ∃ pred, f.graph.Reaches pred ∧ member ∈ f.graph.successors pred ∧ f.graph.Dominates name pred ∧
        ¬ f.graph.StrictlyDominates name member := by
    intro name
    simp only [mem_frontiers_iff closed, FlowGraph.StrictlyDominates, not_and_or, not_not]
  constructor
  · intro inside
    obtain ⟨pred, pred_reached, edge, dominates, ends⟩ := (on_frontier block).1 inside
    have not_parent : (build f.graph).idom[member]? ≠ some block := fun parent =>
      ends ((found member block).1 parent).2.strict
    by_cases here : block = pred
    · exact .inl ⟨here ▸ edge, not_parent⟩
    · obtain ⟨child, immediate, below⟩ :=
        exists_child_dominating closed pred_reached ⟨here, dominates⟩
      have child_reached := pred_reached.dominator below
      refine .inr ⟨child, ?_, (on_frontier child).2 ⟨pred, pred_reached, edge, below, ?_⟩, not_parent⟩
      · exact (mem_childrenOf_build _ _ _).2 ((found child block).2 ⟨child_reached, immediate⟩)
      · intro strict
        -- Only the block itself can be strictly below its child and not below the block.
        by_cases same : block = member
        · exact immediate.not_dominates child_reached (same ▸ strict.2)
        · exact ends ⟨same, immediate.strict.2.trans strict.2⟩
  · rintro (⟨edge, not_parent⟩ | ⟨child, listed, inside, not_parent⟩)
    · refine (on_frontier block).2 ⟨block, reached, edge, .refl block, fun strict => not_parent ?_⟩
      exact (found member block).2 ⟨reached.step edge, strict.immediate_of_edge edge⟩
    · obtain ⟨pred, pred_reached, edge, below, ends⟩ := (on_frontier child).1 inside
      obtain ⟨_, immediate⟩ := (found child block).1 ((mem_childrenOf_build _ _ _).1 listed)
      refine (on_frontier block).2 ⟨pred, pred_reached, edge, immediate.strict.2.trans below,
        fun strict => not_parent ?_⟩
      exact (found member block).2 ⟨pred_reached.step edge,
        strict.immediate_of_child immediate edge pred_reached below ends⟩

/-- The header of the loop is on its own frontier because it is on that of the body, its child. -/
theorem mem_frontiers_iff_tree_loopWithExit :
    loopWithExit.graph.Reaches "header" ∧
    "body" ∈ (build loopWithExit.graph).childrenOf "header" ∧
    "header" ∈ setAt (build loopWithExit.graph).frontiers "body" ∧
    (build loopWithExit.graph).idom["header"]? ≠ some "header" ∧
    "header" ∈ setAt (build loopWithExit.graph).frontiers "header" := by
  have reached : loopWithExit.graph.Reaches "header" :=
    (reaches_loopWithExit_iff "header").2 (by decide)
  have listed : "body" ∈ (build loopWithExit.graph).childrenOf "header" := by decide +kernel
  have inside : "header" ∈ setAt (build loopWithExit.graph).frontiers "body" := by decide +kernel
  have not_parent : (build loopWithExit.graph).idom["header"]? ≠ some "header" := by decide +kernel
  exact ⟨reached, listed, inside, not_parent,
    (mem_frontiers_iff_tree loopWithExit reached "header").2
      (.inr ⟨"body", listed, inside, not_parent⟩)⟩

end Dominance

end Lir
