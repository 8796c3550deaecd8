import Lir.Flow.Solver
import Lir.Proofs.Agree
import Lir.Proofs.Flow.Frontiers

/-!
What dominators, frontiers and solutions depend on.

Dominators and frontiers are exact, and paths do not know in which order the blocks of a graph are
listed. The solver looks blocks up by name and visits them in the order of names. So none of them
depends on the order of the blocks of a function.
-/

set_option autoImplicit false

namespace Lir

namespace FlowGraph

variable {g h : FlowGraph}

theorem successors_eq (same : g.edges.Same h.edges) (block : String) :
    g.successors block = h.successors block := by
  unfold successors
  rw [same]

theorem contains_eq (same : g.edges.Same h.edges) (block : String) :
    g.contains block = h.contains block :=
  same.contains_eq block

theorem Path.of_same (same : g.edges.Same h.edges) {source target : String} {left : List String}
    (path : g.Path source left target) : h.Path source left target := by
  induction path with
  | start => exact .start
  | step _ edge ih =>
    rw [successors_eq same] at edge
    exact ih.step edge

theorem path_iff (same : g.edges.Same h.edges) (source target : String) (left : List String) :
    g.Path source left target ↔ h.Path source left target :=
  ⟨Path.of_same same, Path.of_same same.symm⟩

theorem reaches_iff (same : g.edges.Same h.edges) (block : String) :
    g.Reaches block ↔ h.Reaches block :=
  exists_congr fun left => path_iff same entryName block left

theorem dominates_iff (same : g.edges.Same h.edges) (block target : String) :
    g.Dominates block target ↔ h.Dominates block target := by
  unfold Dominates
  simp only [path_iff same]

end FlowGraph

namespace Dominance

variable {g h : FlowGraph}

theorem eq_of_setAt {sets others : NameMap NameSet} (names : ∀ name, name ∈ sets ↔ name ∈ others)
    (members : ∀ name member, member ∈ setAt sets name ↔ member ∈ setAt others name) :
    sets = others := by
  apply Std.ExtTreeMap.ext_getElem?
  intro name
  have known := names name
  have all := members name
  rw [mem_map_iff, mem_map_iff] at known
  unfold setAt at all
  cases first : sets[name]? with
  | none =>
    cases second : others[name]? with
    | none => rfl
    | some set => simp [first, second] at known
  | some set =>
    cases second : others[name]? with
    | none => simp [first, second] at known
    | some other =>
      rw [first, second] at all
      exact congrArg some (Std.ExtTreeSet.ext_mem all)

theorem mem_dominators_build (closed : g.Closed) (entry : g.contains entryName = true)
    (block : String) : block ∈ (build g).dominators ↔ g.contains block = true := by
  constructor
  · intro known
    by_contra absent
    have unlisted : block ∉ g.blocks := mt (g.mem_blocks block).1 absent
    have unreached : block ∉ reachableSets g g.reversePostorder := fun refined =>
      absent (((reachableSets_ends closed entry).1.known block).1 refined |>.contains closed entry)
    obtain ⟨set, found⟩ := (mem_map_iff _ _).1 known
    simp only [build, completeSets, getElem?_foldl_insertIfNew, unlisted, if_false,
      Option.or_none] at found
    exact unreached ((mem_map_iff _ _).2 ⟨set, found⟩)
  · intro present
    exact (mem_map_iff _ _).2 ⟨_, getElem?_dominators g block present⟩

theorem setAt_dominators_of_unreached (closed : g.Closed) {block : String}
    (present : g.contains block = true) (unreached : ¬ g.Reaches block) :
    setAt (build g).dominators block = {block} := by
  have absent := mt (mem_reachableSets closed present).1 unreached
  rw [setAt, getElem?_dominators g block present, Std.ExtTreeMap.getElem?_eq_none absent]
  rfl

variable (closed : g.Closed) (twin_closed : h.Closed) (entry : g.contains entryName = true)
  (same : g.edges.Same h.edges)

include closed twin_closed entry same

theorem dominators_eq : (build g).dominators = (build h).dominators := by
  have twin_entry : h.contains entryName = true :=
    (FlowGraph.contains_eq same entryName).symm.trans entry
  have names : ∀ block, block ∈ (build g).dominators ↔ block ∈ (build h).dominators := by
    intro block
    rw [mem_dominators_build closed entry, mem_dominators_build twin_closed twin_entry,
      FlowGraph.contains_eq same]
  apply eq_of_setAt names
  intro block member
  -- What no path leads to has sets of its own: itself for a block, nothing for any other name.
  by_cases reached : g.Reaches block
  · have twin_reached := (FlowGraph.reaches_iff same block).1 reached
    rw [mem_setAt_dominators closed entry reached,
      mem_setAt_dominators twin_closed twin_entry twin_reached, FlowGraph.dominates_iff same]
  · have twin_unreached := mt (FlowGraph.reaches_iff same block).2 reached
    by_cases present : g.contains block = true
    · have twin_present := (FlowGraph.contains_eq same block).symm.trans present
      rw [setAt_dominators_of_unreached closed present reached,
        setAt_dominators_of_unreached twin_closed twin_present twin_unreached]
    · have unknown := mt (mem_dominators_build closed entry block).1 present
      have twin_unknown := mt (names block).2 unknown
      rw [setAt, setAt, Std.ExtTreeMap.getElem?_eq_none unknown,
        Std.ExtTreeMap.getElem?_eq_none twin_unknown]

theorem frontiers_eq : (build g).frontiers = (build h).frontiers := by
  have twin_entry : h.contains entryName = true :=
    (FlowGraph.contains_eq same entryName).symm.trans entry
  apply eq_of_setAt
  · intro block
    rw [mem_frontiers_build, mem_frontiers_build, FlowGraph.contains_eq same]
  · intro block member
    rw [mem_setAt_frontiers closed entry, mem_setAt_frontiers twin_closed twin_entry]
    simp only [FlowGraph.reaches_iff same, FlowGraph.successors_eq same,
      FlowGraph.dominates_iff same]

end Dominance

theorem Function.graph_same {f g : Function} (same : f.blocks.Same g.blocks) :
    f.graph.edges.Same g.graph.edges := by
  have targets : f.blocks.contains = g.blocks.contains := funext same.contains_eq
  unfold graph
  rw [targets]
  exact same.mapValues _

namespace Analysis

variable {σ : Type} {a b : Analysis σ} {f g : Function}

theorem transferAll_eq {instructions : List Instruction}
    (transfers : ∀ inst ∈ instructions, a.transfer inst = b.transfer inst) :
    a.transferAll instructions = b.transferAll instructions := by
  funext state
  unfold transferAll
  apply List.foldl_ext
  intro state inst member
  rw [transfers inst member]

variable [Join σ] (same : f.blocks.Same g.blocks)
  (transfers : ∀ name block, f.blocks.get? name = some block →
    a.transferBlock block = b.transferBlock block)

include same transfers

theorem step_eq (s : Search σ) : a.step f s = b.step g s := by
  have edges : f.graph.successors = g.graph.successors :=
    funext (FlowGraph.successors_eq (Function.graph_same same))
  unfold step
  cases s.waiting.toList.head? with
  | none => rfl
  | some name =>
    simp only [← same name]
    cases listed : f.blocks.get? name with
    | none => rfl
    | some block =>
      cases s.found.pre[name]? with
      | none => rfl
      | some state =>
        simp only [visit, transfers name block listed, edges]

theorem searchSteps_eq (steps : Nat) (s : Search σ) :
    a.searchSteps f steps s = b.searchSteps g steps s := by
  induction steps generalizing s with
  | zero => rfl
  | succ steps ih => rw [searchSteps, searchSteps, step_eq same transfers, ih]

/-- Analyses that start alike and do the same to every block find the same. -/
theorem solve_eq (starts : a.start = b.start) (height : Nat) :
    a.solve f height = b.solve g height := by
  unfold solve search initial
  rw [starts, same.size_eq, searchSteps_eq same transfers]

end Analysis

end Lir
