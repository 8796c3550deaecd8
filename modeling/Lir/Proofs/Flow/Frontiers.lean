import Lir.Proofs.Flow.DominanceOrder

/-!
Dominance frontiers are exact: a block is on the frontier of another if and only if the other is on
every path to one of its reachable predecessors and does not strictly dominate it.

Frontiers are filled by three nested loops, over the ends of edges, over the starts, and over the
dominators of a start. No turn of any of them takes a member away or adds a key, so each loop adds
what its turns add. So a path out of a block stays below the block until it meets its frontier.
-/

set_option autoImplicit false

namespace Lir

namespace Dominance

variable {g : FlowGraph}

/-- The new sets have the old names, and each has the old members and those that are added to it. -/
structure Extends (old new : NameMap NameSet) (added : String → String → Prop) : Prop where
  names : ∀ name, name ∈ new ↔ name ∈ old
  members : ∀ name member, member ∈ setAt new name ↔
    member ∈ setAt old name ∨ name ∈ old ∧ added name member

theorem Extends.foldl {α : Type} {step : NameMap NameSet → α → NameMap NameSet}
    {added : α → String → String → Prop}
    (extends_step : ∀ sets turn, Extends sets (step sets turn) (added turn)) (turns : List α)
    (sets : NameMap NameSet) :
    Extends sets (turns.foldl step sets) fun name member => ∃ turn ∈ turns, added turn name member := by
  induction turns generalizing sets with
  | nil => exact ⟨fun _ => Iff.rfl, fun _ _ => by simp⟩
  | cons turn rest ih =>
    have first := extends_step sets turn
    have later := ih (step sets turn)
    rw [List.foldl_cons]
    refine ⟨fun name => (later.names name).trans (first.names name), fun name member => ?_⟩
    rw [later.members, first.members, first.names, List.exists_mem_cons_iff, and_or_left, or_assoc]

theorem extends_addJoin (sets : NameMap NameSet) (join pred : String)
    (frontiers : NameMap NameSet) :
    Extends frontiers (addJoin sets join pred frontiers) fun name member =>
      member = join ∧ name ∈ setAt sets pred ∧ (name = join ∨ name ∉ setAt sets join) := by
  have turn : ∀ (frontiers : NameMap NameSet) (runner : String),
      Extends frontiers
        (if runner = join ∨ runner ∉ setAt sets join then
          frontiers.modify runner (·.insert join)
        else frontiers)
        fun name member =>
          member = join ∧ name = runner ∧ (runner = join ∨ runner ∉ setAt sets join) := by
    intro frontiers runner
    split
    next ends =>
      constructor
      · intro name
        exact Std.ExtTreeMap.mem_modify
      · intro name member
        rw [setAt, setAt, Std.ExtTreeMap.getElem?_modify]
        simp only [Std.compare_eq_iff_eq, mem_map_iff]
        by_cases here : runner = name
        · subst here
          cases frontiers[runner]? with
          | none => simp
          | some set => simp [ends, or_comm, eq_comm (a := member)]
        · simp [here, Ne.symm here]
    -- A runner that strictly dominates the join lets it pass.
    next goes_on => exact ⟨fun _ => Iff.rfl, fun _ _ => by simp [goes_on]⟩
  have loop := Extends.foldl turn (setAt sets pred).toList frontiers
  refine ⟨loop.names, fun name member => (loop.members name member).trans ?_⟩
  refine or_congr_right (and_congr_right' ?_)
  constructor
  · rintro ⟨runner, listed, same, rfl, ends⟩
    exact ⟨same, Std.ExtTreeSet.mem_toList.1 listed, ends⟩
  · rintro ⟨same, listed, ends⟩
    exact ⟨name, Std.ExtTreeSet.mem_toList.2 listed, same, rfl, ends⟩

theorem extends_frontierSets (g : FlowGraph) (order : List String) (sets : NameMap NameSet) :
    ∃ empty : NameMap NameSet,
      (∀ block, empty[block]? = if g.contains block = true then some ∅ else none) ∧
      Extends empty (frontierSets g order sets) fun name member =>
        member ∈ order ∧ ∃ pred ∈ order, member ∈ g.successors pred ∧ name ∈ setAt sets pred ∧
          (name = member ∨ name ∉ setAt sets member) := by
  have loop := Extends.foldl
    (fun frontiers join => Extends.foldl
      (fun frontiers pred => extends_addJoin sets join pred frontiers)
      ((g.predecessors join).filter fun pred => pred ∈ order) frontiers)
    order (g.blocks.foldl (fun frontiers block => frontiers.insert block ∅) ∅)
  refine ⟨_, fun block => ?_, loop.names, fun name member => (loop.members name member).trans ?_⟩
  · rw [@getElem?_foldl_entry NameSet _ (fun _ _ => some ∅) (fun _ _ => rfl)
      fun frontiers name other => getElem?_insert_map frontiers name other ∅]
    simp [g.mem_blocks]
  · refine or_congr_right (and_congr_right' ?_)
    simp only [List.mem_filter, g.mem_predecessors, decide_eq_true_eq]
    constructor
    · rintro ⟨join, joins, pred, ⟨edge, listed⟩, rfl, dominates, ends⟩
      exact ⟨joins, pred, listed, edge, dominates, ends⟩
    · rintro ⟨joins, pred, listed, edge, dominates, ends⟩
      exact ⟨member, joins, pred, ⟨edge, listed⟩, rfl, dominates, ends⟩

theorem mem_setAt_frontierSets (g : FlowGraph) (order : List String) (sets : NameMap NameSet)
    (block member : String) :
    member ∈ setAt (frontierSets g order sets) block ↔
      g.contains block = true ∧ member ∈ order ∧ ∃ pred ∈ order, member ∈ g.successors pred ∧
        block ∈ setAt sets pred ∧ (block = member ∨ block ∉ setAt sets member) := by
  obtain ⟨empty, found, extended⟩ := extends_frontierSets g order sets
  have none_yet : member ∉ setAt empty block := by
    rw [setAt, found]
    split <;> simp
  have present : block ∈ empty ↔ g.contains block = true := by
    rw [mem_map_iff, found]
    simp
  rw [extended.members, or_iff_right none_yet, present]

theorem mem_frontiers_build (g : FlowGraph) (block : String) :
    block ∈ (build g).frontiers ↔ g.contains block = true := by
  obtain ⟨empty, found, extended⟩ := extends_frontierSets g g.reversePostorder (build g).dominators
  refine (extended.names block).trans ?_
  rw [mem_map_iff, found]
  simp

theorem mem_setAt_dominators (closed : g.Closed) (entry : g.contains entryName = true)
    {block : String} (reached : g.Reaches block) (member : String) :
    member ∈ setAt (build g).dominators block ↔ g.Dominates member block := by
  rw [← mem_setAt_reachableSets closed entry reached, setAt,
    getElem?_dominators g block (reached.contains closed entry)]
  obtain ⟨set, found⟩ := (mem_map_iff _ _).1
    ((mem_reachableSets closed (reached.contains closed entry)).2 reached)
  rw [setAt, found]
  rfl

theorem mem_setAt_frontiers (closed : g.Closed) (entry : g.contains entryName = true)
    (block member : String) :
    member ∈ setAt (build g).frontiers block ↔
      ∃ pred, g.Reaches pred ∧ member ∈ g.successors pred ∧ g.Dominates block pred ∧
        (block = member ∨ ¬ g.Dominates block member) := by
  -- The loops run over the reverse postorder, which lists what paths lead to.
  have listed := g.mem_reversePostorder closed entry
  refine (mem_setAt_frontierSets g g.reversePostorder (build g).dominators block member).trans ?_
  constructor
  · rintro ⟨-, joins, pred, starts, edge, dominates, ends⟩
    have pred_reached := (listed pred).1 starts
    have reached := (listed member).1 joins
    rw [mem_setAt_dominators closed entry pred_reached] at dominates
    rw [mem_setAt_dominators closed entry reached] at ends
    exact ⟨pred, pred_reached, edge, dominates, ends⟩
  · rintro ⟨pred, pred_reached, edge, dominates, ends⟩
    have reached := pred_reached.step edge
    have present := (pred_reached.dominator dominates).contains closed entry
    rw [← mem_setAt_dominators closed entry pred_reached] at dominates
    rw [← mem_setAt_dominators closed entry reached] at ends
    exact ⟨present, (listed member).2 reached, pred, (listed pred).2 pred_reached, edge, dominates,
      ends⟩

theorem mem_frontiers_iff (closed : g.Closed) (block member : String) :
    member ∈ setAt (build g).frontiers block ↔
      ∃ pred, g.Reaches pred ∧ member ∈ g.successors pred ∧ g.Dominates block pred ∧
        (block = member ∨ ¬ g.Dominates block member) := by
  by_cases entry : g.contains entryName = true
  · exact mem_setAt_frontiers closed entry block member
  · refine iff_of_false (fun inside => ?_) ?_
    · obtain ⟨_, joins, _⟩ := (mem_setAt_frontierSets g _ (build g).dominators block member).1 inside
      rw [reversePostorder_without_entry entry] at joins
      exact absurd joins List.not_mem_nil
    · rintro ⟨pred, pred_reached, edge, _⟩
      have at_entry := (pred_reached.step edge).eq_entry entry
      exact entry (at_entry ▸ closed pred member edge)

/-- Along a path from a block, either the frontier of the block is met, or the block dominates
where the path stands, strictly so behind the start. -/
theorem meets_frontier_or_dominates (closed : g.Closed) {block target : String} {left : List String}
    (reached : g.Reaches block) (path : g.Path block left target) :
    (∃ met ∈ (left ++ [target]).tail, met ∈ setAt (build g).frontiers block) ∨
      g.Dominates block target ∧ (left ≠ [] → block ≠ target) := by
  induction path with
  | start => exact .inr ⟨.refl block, fun moved => absurd rfl moved⟩
  | @step left middle target path edge ih =>
    have behind : (left ++ [middle] ++ [target]).tail = (left ++ [middle]).tail ++ [target] :=
      List.tail_append_of_ne_nil (by simp)
    rw [behind]
    rcases ih with ⟨met, earlier, inside⟩ | ⟨dominates, _⟩
    · exact .inl ⟨met, List.mem_append_left _ earlier, inside⟩
    · by_cases strict : g.StrictlyDominates block target
      · exact .inr ⟨strict.2, fun _ => strict.1⟩
      · -- The edge leaves what the block strictly dominates, so its end is on the frontier.
        obtain ⟨before, way⟩ := reached
        have ends : block = target ∨ ¬ g.Dominates block target := by
          rwa [FlowGraph.StrictlyDominates, not_and_or, not_not] at strict
        refine .inl ⟨target, List.mem_append_right _ (List.mem_singleton_self target), ?_⟩
        exact (mem_frontiers_iff closed block target).2
          ⟨middle, ⟨_, way.append path⟩, edge, dominates, ends⟩

/-- Frontiers by paths alone: what is on them, which blocks have one, and that every path from a
block to one that it does not strictly dominate meets its frontier. -/
theorem frontiers_build_paths (f : Function) :
    (∀ block member, member ∈ setAt (build f.graph).frontiers block ↔
      f.graph.Reaches block ∧ f.graph.Reaches member ∧
      (∃ pred ∈ f.graph.predecessors member, f.graph.Reaches pred ∧
        ∀ left, f.graph.Path entryName left pred → block ∈ left ++ [pred]) ∧
      (member = block ∨
        ∃ left, f.graph.Path entryName left member ∧ block ∉ left ++ [member])) ∧
    (∀ block, f.blocks.contains block = true →
      ∃ frontier, (build f.graph).frontiers[block]? = some frontier ∧
        (¬ f.graph.Reaches block → frontier = ∅)) ∧
    ∀ block left target, f.graph.Reaches block → f.graph.Path block left target → left ≠ [] →
      ¬ f.graph.StrictlyDominates block target →
      ∃ met ∈ (left ++ [target]).tail, met ∈ setAt (build f.graph).frontiers block := by
  have closed := f.closed_graph
  have members := mem_frontiers_iff closed
  refine ⟨fun block member => ?_, fun block present => ?_, ?_⟩
  · have avoided : ¬ f.graph.Dominates block member ↔
        ∃ left, f.graph.Path entryName left member ∧ block ∉ left ++ [member] := by
      simp only [FlowGraph.Dominates, not_forall, exists_prop]
    simp only [members, f.graph.mem_predecessors, ← avoided, eq_comm (a := member)]
    constructor
    · rintro ⟨pred, reached, edge, dominates, ends⟩
      exact ⟨reached.dominator dominates, reached.step edge, ⟨pred, edge, reached, dominates⟩, ends⟩
    · rintro ⟨_, _, ⟨pred, edge, reached, dominates⟩, ends⟩
      exact ⟨pred, reached, edge, dominates, ends⟩
  · have listed := (mem_frontiers_build f.graph block).2 ((f.contains_graph block).trans present)
    obtain ⟨frontier, found⟩ := (mem_map_iff _ block).1 listed
    refine ⟨frontier, found, fun unreached => ?_⟩
    apply Std.ExtTreeSet.ext_mem
    intro member
    refine iff_of_false (fun inside => unreached ?_) Std.ExtTreeSet.not_mem_empty
    have at_block : setAt (build f.graph).frontiers block = frontier := by simp [setAt, found]
    obtain ⟨pred, reached, _, dominates, _⟩ := (members block member).1 (at_block ▸ inside)
    exact reached.dominator dominates
  · intro block left target reached path moved not_strict
    rcases meets_frontier_or_dominates closed reached path with met | ⟨dominates, different⟩
    · exact met
    · exact absurd ⟨different moved, dominates⟩ not_strict

/-- The body of the loop goes back to the header, which it does not dominate, and the header is on
its own frontier too. -/
theorem frontiers_build_paths_loopWithExit :
    loopWithExit.graph.Reaches "body" ∧ loopWithExit.graph.Path "body" ["body"] "header" ∧
    ¬ loopWithExit.graph.StrictlyDominates "body" "header" ∧
    (∃ met ∈ ["header"], met ∈ setAt (build loopWithExit.graph).frontiers "body") ∧
    "header" ∈ setAt (build loopWithExit.graph).frontiers "header" ∧
    loopWithExit.blocks.contains "dead" = true ∧ ¬ loopWithExit.graph.Reaches "dead" ∧
    (build loopWithExit.graph).frontiers["dead"]? = some ∅ := by
  have closed := loopWithExit.closed_graph
  have reached : loopWithExit.graph.Reaches "body" := (reaches_loopWithExit_iff "body").2 (by decide)
  have header : loopWithExit.graph.Reaches "header" :=
    (reaches_loopWithExit_iff "header").2 (by decide)
  have unreached : ¬ loopWithExit.graph.Reaches "dead" :=
    mt (reaches_loopWithExit_iff "dead").1 (by decide)
  have back : loopWithExit.graph.Path "body" ["body"] "header" := .step .start (by decide)
  have around : loopWithExit.graph.Path entryName [entryName] "header" := .step .start (by decide)
  have not_strict : ¬ loopWithExit.graph.StrictlyDominates "body" "header" := fun strict =>
    absurd (strict.2 _ around) (by decide)
  have through : loopWithExit.graph.Dominates "header" "body" :=
    (mem_setAt_dominators closed (by decide) reached "header").1 (by decide +kernel)
  obtain ⟨members, listed, meets⟩ := frontiers_build_paths loopWithExit
  have own : "header" ∈ setAt (build loopWithExit.graph).frontiers "header" :=
    (members "header" "header").2
      ⟨header, header, ⟨"body", by decide, reached, through⟩, .inl rfl⟩
  obtain ⟨frontier, found, empty⟩ := listed "dead" (by decide)
  exact ⟨reached, back, not_strict, meets "body" ["body"] "header" reached back (by decide) not_strict,
    own, by decide, unreached, empty unreached ▸ found⟩

end Dominance

end Lir
