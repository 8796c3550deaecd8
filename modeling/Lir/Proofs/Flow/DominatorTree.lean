import Lir.Proofs.Flow.Frontiers

/-!
Immediate dominators are exact and make a tree of the blocks that paths lead to, with the entry at
its root.

The dominators of a block form a chain, and each of them has more dominators than those above it.
So the strict dominator with the most is the closest, and going from a block to its immediate
dominator leads to fewer dominators and ends at the entry.
-/

set_option autoImplicit false

namespace Lir

namespace Dominance

variable {g : FlowGraph}

/-! ### How the closest dominator is found -/

theorem deepest?_spec (sets : NameMap NameSet) {blocks : List String} (some_block : blocks ≠ []) :
    ∃ best ∈ blocks, deepest? sets blocks = some best ∧
      ∀ block ∈ blocks, depth sets block ≤ depth sets best := by
  cases blocks with
  | nil => exact absurd rfl some_block
  | cons first rest =>
    rw [deepest?]
    clear some_block
    -- Induction on the blocks to come, whichever block is the deepest so far.
    induction rest generalizing first with
    | nil => exact ⟨first, List.mem_singleton_self first, rfl, by simp⟩
    | cons block rest ih =>
      rw [List.foldl_cons]
      obtain ⟨best, listed, found, deepest⟩ :=
        ih (if depth sets first ≤ depth sets block then block else first)
      obtain ⟨above, later⟩ := List.forall_mem_cons.1 deepest
      refine ⟨best, ?_, found, ?_⟩
      · rcases List.mem_cons.1 listed with here | listed
        · rw [here]
          split <;> simp
        · simp [listed]
      · have both : depth sets first ≤ depth sets best ∧ depth sets block ≤ depth sets best := by
          split at above <;> omega
        exact List.forall_mem_cons.2 ⟨both.1, List.forall_mem_cons.2 ⟨both.2, later⟩⟩

theorem depth_eq_size (sets : NameMap NameSet) (block : String) :
    depth sets block = (setAt sets block).size := by
  unfold depth setAt
  cases sets[block]? <;> rfl

theorem getElem?_immediates (sets : NameMap NameSet) (reachable : List String) (block : String) :
    (immediates sets reachable)[block]? =
      if block ∈ reachable then immediate? sets block else none := by
  have twice : ∀ (name : String) (entry : Option String),
      (immediate? sets name).or ((immediate? sets name).or entry) =
        (immediate? sets name).or entry := fun name entry => by
    cases immediate? sets name <;> rfl
  rw [immediates, @getElem?_foldl_entry String _
    (fun name entry => (immediate? sets name).or entry) twice]
  · simp
  · intro idom name other
    by_cases here : name = other
    · subst here
      cases immediate? sets name <;> simp
    · cases immediate? sets name <;> simp [getElem?_insert_map, here]

theorem getElem?_idom (g : FlowGraph) (block : String) :
    (build g).idom[block]? =
      if block ∈ g.reversePostorder then immediate? (build g).dominators block else none := by
  have listed : block ∈ (NameSet.ofNames g.reversePostorder).toList ↔ block ∈ g.reversePostorder :=
    Std.ExtTreeSet.mem_toList.trans (NameSet.mem_ofNames _ _)
  simp only [← listed]
  exact getElem?_immediates _ _ block

/-! ### It is the immediate dominator -/

section

variable (closed : g.Closed) (entry : g.contains entryName = true)

include closed entry

theorem depth_lt_depth {block target : String} (strict : g.StrictlyDominates block target)
    (reached : g.Reaches target) :
    depth (build g).dominators block < depth (build g).dominators target := by
  have above := mem_setAt_dominators closed entry (reached.dominator strict.2)
  have here := mem_setAt_dominators closed entry reached
  rw [depth_eq_size, depth_eq_size]
  have subset : ∀ member ∈ setAt (build g).dominators block,
      member ∈ setAt (build g).dominators target := fun member inside =>
    (here member).2 (((above member).1 inside).trans strict.2)
  have lacking : target ∉ setAt (build g).dominators block := fun inside =>
    strict.1 (strict.2.antisymm ((above target).1 inside) (reached.dominator strict.2))
  exact size_lt_size subset ((here target).2 (.refl target)) lacking

theorem immediate?_spec {block other : String} (reached : g.Reaches block)
    (strict : g.StrictlyDominates other block) :
    ∃ parent, immediate? (build g).dominators block = some parent ∧
      g.ImmediatelyDominates parent block := by
  have listed : ∀ name, name ∈ ((setAt (build g).dominators block).toList.filter (· ≠ block)) ↔
      g.StrictlyDominates name block := by
    intro name
    rw [List.mem_filter, Std.ExtTreeSet.mem_toList, mem_setAt_dominators closed entry reached,
      decide_eq_true_eq, and_comm]
    rfl
  obtain ⟨parent, member, found, deepest⟩ :=
    deepest?_spec (build g).dominators (List.ne_nil_of_mem ((listed other).2 strict))
  have parent_strict := (listed parent).1 member
  refine ⟨parent, found, parent_strict, fun name name_strict => ?_⟩
  rcases parent_strict.2.total name_strict.2 reached with above | below
  · by_cases same : parent = name
    · exact same ▸ .refl parent
    · have deeper := depth_lt_depth closed entry ⟨same, above⟩ (reached.dominator name_strict.2)
      have bound := deepest name ((listed name).2 name_strict)
      omega
  · exact below

theorem immediate?_eq_some_iff {block parent : String} (reached : g.Reaches block) :
    immediate? (build g).dominators block = some parent ↔ g.ImmediatelyDominates parent block := by
  constructor
  · intro found
    by_cases dominated : ∃ other, g.StrictlyDominates other block
    · obtain ⟨other, strict⟩ := dominated
      obtain ⟨best, best_found, immediate⟩ := immediate?_spec closed entry reached strict
      exact Option.some.inj (best_found.symm.trans found) ▸ immediate
    · have nobody : (setAt (build g).dominators block).toList.filter (· ≠ block) = [] := by
        rw [List.filter_eq_nil_iff]
        intro other member different
        rw [Std.ExtTreeSet.mem_toList, mem_setAt_dominators closed entry reached] at member
        exact dominated ⟨other, of_decide_eq_true different, member⟩
      have nothing : immediate? (build g).dominators block = none := by
        unfold immediate?
        rw [← setAt, nobody]
        rfl
      exact absurd (nothing.symm.trans found) (by simp)
  · intro immediate
    obtain ⟨best, found, also⟩ := immediate?_spec closed entry reached immediate.strict
    rw [found, also.unique immediate reached]

end

theorem getElem?_idom_eq_some_iff (closed : g.Closed) (block parent : String) :
    (build g).idom[block]? = some parent ↔
      g.Reaches block ∧ g.ImmediatelyDominates parent block := by
  rw [getElem?_idom]
  by_cases entry : g.contains entryName = true
  · have listed := g.mem_reversePostorder closed entry block
    by_cases reached : g.Reaches block
    · rw [if_pos (listed.2 reached), immediate?_eq_some_iff closed entry reached,
        and_iff_right reached]
    · rw [if_neg (mt listed.1 reached)]
      exact iff_of_false (by simp) fun both => reached both.1
  · rw [reversePostorder_without_entry entry]
    refine iff_of_false (by simp) ?_
    rintro ⟨reached, immediate⟩
    exact immediate.strict.ne_entry (reached.eq_entry entry)

/-- What holds at the entry, and of a block if it holds of its immediate dominator, holds of all
blocks that paths lead to. -/
theorem tree_induction (closed : g.Closed) {motive : String → Prop} (root : motive entryName)
    (child : ∀ block parent, g.Reaches block → g.ImmediatelyDominates parent block →
      motive parent → motive block)
    {block : String} (reached : g.Reaches block) : motive block := by
  by_cases entry : g.contains entryName = true
  · induction size : depth (build g).dominators block using Nat.strongRecOn generalizing block with
    | ind size ih =>
      by_cases at_entry : block = entryName
      · exact at_entry ▸ root
      · obtain ⟨parent, _, immediate⟩ := immediate?_spec closed entry reached
          ⟨Ne.symm at_entry, FlowGraph.dominates_entry block⟩
        have less := depth_lt_depth closed entry immediate.strict reached
        exact child block parent reached immediate
          (ih _ (size ▸ less) (reached.dominator immediate.strict.2) rfl)
  · exact reached.eq_entry entry ▸ root

/-! ### Children -/

/-- A block's children are the blocks whose immediate dominator it is, in the order of names. -/
theorem childrenOf_build (g : FlowGraph) (parent : String) :
    (build g).childrenOf parent =
      ((build g).idom.toList.filter fun entry => entry.2 = parent).map Prod.fst := by
  have loop : ∀ (entries : List (String × String)) (children : NameMap (List String)),
      (entries.foldl (fun children entry =>
        children.insert entry.2 ((children[entry.2]?.getD []) ++ [entry.1])) children)[parent]?.getD [] =
        children[parent]?.getD [] ++ (entries.filter fun entry => entry.2 = parent).map Prod.fst := by
    intro entries
    induction entries with
    | nil => simp
    | cons first rest ih =>
      intro children
      rw [List.foldl_cons, ih, getElem?_insert_map]
      by_cases here : first.2 = parent
      · simp [here]
      · simp [here]
  exact (loop (build g).idom.toList ∅).trans (by simp)

theorem mem_childrenOf_build (g : FlowGraph) (block parent : String) :
    block ∈ (build g).childrenOf parent ↔ (build g).idom[block]? = some parent := by
  rw [childrenOf_build, ← Std.ExtTreeMap.mem_toList_iff_getElem?_eq_some]
  simp

theorem nodup_childrenOf_build (g : FlowGraph) (parent : String) :
    ((build g).childrenOf parent).Nodup := by
  rw [childrenOf_build]
  exact (nodup_keys_toList (build g).idom).sublist (List.filter_sublist.map Prod.fst)

/-! ### The tree -/

def climb (d : Dominance) : Nat → String → Option String
  | 0, block => some block
  | steps + 1, block => d.idom[block]?.bind (d.climb steps)

theorem getElem?_dominators_child (closed : g.Closed) {block parent : String}
    (reached : g.Reaches block) (immediate : g.ImmediatelyDominates parent block) :
    ∃ above, (build g).dominators[parent]? = some above ∧
      (build g).dominators[block]? = some (above.insert block) := by
  have entry : g.contains entryName = true := by
    by_contra absent
    exact immediate.strict.ne_entry (reached.eq_entry absent)
  have parent_reached := reached.dominator immediate.strict.2
  have above := getElem?_dominators g parent (parent_reached.contains closed entry)
  have here := getElem?_dominators g block (reached.contains closed entry)
  refine ⟨_, above, here.trans (congrArg some (Std.ExtTreeSet.ext_mem fun member => ?_))⟩
  have in_above := mem_setAt_dominators closed entry parent_reached member
  have in_here := mem_setAt_dominators closed entry reached member
  rw [setAt, above, Option.getD_some] at in_above
  rw [setAt, here, Option.getD_some] at in_here
  rw [in_here, mem_insert_set, in_above]
  exact immediate.dominates_iff member

/-- The entry and unreachable blocks have no immediate dominator. Every other block has one, which is
its closest strict dominator and adds the block to its own dominators; children are the blocks under
it; and every block is below the entry. -/
theorem idom_build_tree (f : Function) :
    (∀ block, block = entryName ∨ ¬ f.graph.Reaches block → (build f.graph).idom[block]? = none) ∧
    (∀ block, f.graph.Reaches block → block ≠ entryName →
      ∃ parent above, (build f.graph).idom[block]? = some parent ∧
        f.graph.StrictlyDominates parent block ∧
        (∀ other, f.graph.StrictlyDominates other block → f.graph.Dominates other parent) ∧
        (build f.graph).dominators[parent]? = some above ∧
        (build f.graph).dominators[block]? = some (above.insert block)) ∧
    (∀ parent, ((build f.graph).childrenOf parent).Nodup ∧
      ∀ block, block ∈ (build f.graph).childrenOf parent ↔
        (build f.graph).idom[block]? = some parent) ∧
    ∀ block, f.graph.Reaches block →
      ∃ steps, (build f.graph).climb steps block = some entryName := by
  have closed := f.closed_graph
  have found := getElem?_idom_eq_some_iff closed
  refine ⟨fun block outside => ?_, fun block reached later => ?_, fun parent => ?_, fun block reached => ?_⟩
  · rw [Option.eq_none_iff_forall_ne_some]
    intro parent immediate
    obtain ⟨reached, immediate⟩ := (found block parent).1 immediate
    exact outside.elim immediate.strict.ne_entry fun unreached => unreached reached
  · have entry : f.graph.contains entryName = true := by
      by_contra absent
      exact later (reached.eq_entry absent)
    obtain ⟨parent, _, immediate⟩ := immediate?_spec closed entry reached
      ⟨Ne.symm later, FlowGraph.dominates_entry block⟩
    obtain ⟨above, at_parent, at_block⟩ := getElem?_dominators_child closed reached immediate
    exact ⟨parent, above, (found block parent).2 ⟨reached, immediate⟩, immediate.strict,
      immediate.closest, at_parent, at_block⟩
  · exact ⟨nodup_childrenOf_build f.graph parent, fun block => mem_childrenOf_build f.graph block parent⟩
  · refine tree_induction closed (motive := fun block => ∃ steps,
      (build f.graph).climb steps block = some entryName) ⟨0, rfl⟩ ?_ reached
    rintro block parent reached immediate ⟨steps, ends⟩
    refine ⟨steps + 1, ?_⟩
    rw [climb, (found block parent).2 ⟨reached, immediate⟩, Option.bind_some]
    exact ends

/-- The exit of the loop is under the header, which is under the entry. -/
theorem idom_build_tree_loopWithExit :
    loopWithExit.graph.Reaches "exit" ∧ "exit" ≠ entryName ∧
    (build loopWithExit.graph).idom["exit"]? = some "header" ∧
    loopWithExit.graph.StrictlyDominates "header" "exit" ∧
    "exit" ∈ (build loopWithExit.graph).childrenOf "header" ∧
    (∃ steps, (build loopWithExit.graph).climb steps "exit" = some entryName) ∧
    ¬ loopWithExit.graph.Reaches "dead" ∧ (build loopWithExit.graph).idom["dead"]? = none := by
  have reached : loopWithExit.graph.Reaches "exit" := (reaches_loopWithExit_iff "exit").2 (by decide)
  have unreached : ¬ loopWithExit.graph.Reaches "dead" :=
    mt (reaches_loopWithExit_iff "dead").1 (by decide)
  obtain ⟨rootless, closest, children, below⟩ := idom_build_tree loopWithExit
  obtain ⟨parent, _, found, strict, _⟩ := closest "exit" reached (by decide)
  have at_exit : (build loopWithExit.graph).idom["exit"]? = some "header" := by decide +kernel
  obtain rfl : parent = "header" := Option.some.inj (found.symm.trans at_exit)
  exact ⟨reached, by decide, at_exit, strict, ((children "header").2 "exit").2 at_exit,
    below "exit" reached, unreached, rootless "dead" (.inr unreached)⟩

end Dominance

end Lir
