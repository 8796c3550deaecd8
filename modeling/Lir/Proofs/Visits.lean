import Lir.Proofs.Stable

/-!
How many visits a search makes.

Every reachable block gets a state at its end, and only a visit gives it one, so there are at least
as many visits as reachable blocks. A block is visited again only after its state at the start has
grown, so the height of the states bounds the visits from above: a name enters a state once, and then
its value rises at most twice, or its definitions grow at most once for each point.
-/

set_option autoImplicit false

namespace Lir

def Context.heldSet (ctx : Context) : NameSet := .ofNames ctx.heldNames

def Function.opPoints (f : Function) : PointSet :=
  .ofList ((f.instructions.filter fun inst => !inst.isTerm).map Instruction.point)

theorem Function.mem_opPoints {f : Function} {inst : Instruction} (member : inst ∈ f.instructions)
    (operates : inst.isTerm = false) : inst.point ∈ f.opPoints := by
  unfold Function.opPoints
  rw [mem_ofList_set]
  apply List.mem_map_of_mem
  exact List.mem_filter.2 ⟨member, by rw [operates]; rfl⟩

namespace Analysis

variable {σ : Type} [Join σ] [LawfulJoin σ] {a : Analysis σ} {f : Function}

theorem size_post_le_visits (entry : f.blocks.contains entryName = true) (height : Nat) :
    (a.search f height).found.post.size ≤ (a.search f height).found.visits := by
  apply search_induction (a := a) (f := f)
    (motive := fun s => s.found.post.size ≤ s.found.visits) entry
  · exact Nat.le_refl 0
  · intro s next name block state _ counted _ _ _ visited
    have grown : next.found.post.size ≤ s.found.post.size + 1 :=
      visited.post ▸ Std.ExtTreeMap.size_insert_le
    rw [visited.visits]
    omega

/-- Bounds on the visits of a search that has ended, when states can grow `height` times at most. -/
theorem Ranking.visits_bounds {height given : Nat} (ranking : Ranking a f height)
    (solved : Solved a f (a.solve f given)) (entry : f.blocks.contains entryName = true) :
    f.graph.reachable.size ≤ (a.solve f given).visits ∧
      (a.solve f given).visits ≤ f.graph.reachable.size * (height + 1) := by
  have reachable : ∀ name, name ∈ f.graph.reachable ↔ f.graph.Reaches name :=
    FlowGraph.mem_reachable f.closed_graph ((f.contains_graph entryName).trans entry)
  constructor
  · have ends : f.graph.reachable.toList ⊆ (a.solve f given).post.keys := by
      intro name member
      rw [Std.ExtTreeMap.mem_keys, solved.mem_post, ← reachable]
      exact Std.ExtTreeSet.mem_toList.1 member
    have nodup : f.graph.reachable.toList.Nodup := by
      rw [List.nodup_iff_pairwise_ne]
      exact Std.ExtTreeSet.distinct_toList.imp fun different same =>
        different (Std.compare_eq_iff_eq.2 same)
    calc f.graph.reachable.size
        = f.graph.reachable.toList.length := Std.ExtTreeSet.length_toList.symm
      _ ≤ (a.solve f given).post.keys.length := (List.subperm_of_subset nodup ends).length_le
      _ = (a.solve f given).post.size := Std.ExtTreeMap.length_keys
      _ ≤ (a.solve f given).visits := size_post_le_visits entry given
  · have all : ∀ name, f.graph.Reaches name → name ∈ f.graph.reachable.toList :=
      fun name reached => Std.ExtTreeSet.mem_toList.2 ((reachable name).2 reached)
    have bound := ranking.visits_add_potential_le entry all given
    rw [Std.ExtTreeSet.length_toList] at bound
    exact (Nat.le_add_right _ _).trans bound

end Analysis

/-! ### Both analyses -/

namespace Context

theorem mem_heldSet_of_variable {ctx : Context} {name : String} (declared : name ∈ ctx.vars.keys) :
    name ∈ ctx.heldSet.toList := by
  rw [Std.ExtTreeSet.mem_toList, heldSet, NameSet.mem_ofNames]
  exact mem_heldNames_of_variable declared

theorem mem_heldSet_of_def {ctx : Context} {inst : Instruction}
    (member : inst ∈ ctx.function.instructions) {name : String} (assigns : inst.def? = some name) :
    name ∈ ctx.heldSet.toList := by
  rw [Std.ExtTreeSet.mem_toList, heldSet, NameSet.mem_ofNames]
  exact mem_heldNames_of_def member assigns

end Context

theorem Constants.visits_bounds (p : Program) {f : Function}
    (entry : f.blocks.contains entryName = true) :
    f.graph.reachable.size ≤ (solve (.ofFunction p f)).visits ∧
      (solve (.ofFunction p f)).visits ≤
        f.graph.reachable.size * (1 + 3 * (Context.ofFunction p f).heldSet.size) := by
  have ranked := ranking p f (fun _ => Context.mem_heldSet_of_variable)
    (fun _ member _ => Context.mem_heldSet_of_def member)
  have bounds := ranked.visits_bounds (solved p entry) entry
  have height : (Context.ofFunction p f).heldSet.toList.length * (1 + 2) + 1 =
      1 + 3 * (Context.ofFunction p f).heldSet.size := by
    rw [Std.ExtTreeSet.length_toList]
    omega
  exact height ▸ bounds

theorem Reaching.visits_bounds (ctx : Context)
    (entry : ctx.function.blocks.contains entryName = true) :
    ctx.function.graph.reachable.size ≤ (solve ctx).visits ∧
      (solve ctx).visits ≤ ctx.function.graph.reachable.size *
        (1 + ctx.heldSet.size * (1 + ctx.function.opPoints.size)) := by
  have placed : ∀ inst ∈ ctx.function.instructions, inst.isTerm = false →
      inst.point ∈ ctx.function.opPoints.toList := fun inst member operates =>
    Std.ExtTreeSet.mem_toList.2 (Function.mem_opPoints member operates)
  have ranked := ranking ctx (fun _ => Context.mem_heldSet_of_variable)
    (fun _ member _ => Context.mem_heldSet_of_def member) placed
  have bounds := ranked.visits_bounds (solved ctx entry) entry
  rw [Std.ExtTreeSet.length_toList, Std.ExtTreeSet.length_toList, Nat.add_comm _ 1] at bounds
  exact bounds

namespace Analysis

/-- Both searches run until no block waits. They visit every reachable block, and no more often in
all than its state at the start can grow. -/
theorem visits_solve_bounds {p : Program} {name : String} {f : Function}
    (listed : p.functions.get? name = some f) (entry : f.blocks.contains entryName = true) :
    ∃ ctx, Context.build p name = .ok ctx ∧
      (((Constants.analysis ctx).search f (Constants.height ctx)).waiting.isEmpty = true ∧
        f.graph.reachable.size ≤ (Constants.solve ctx).visits ∧
        (Constants.solve ctx).visits ≤ f.graph.reachable.size * (1 + 3 * ctx.heldSet.size)) ∧
      ((Reaching.analysis ctx).search f (Reaching.height ctx)).waiting.isEmpty = true ∧
        f.graph.reachable.size ≤ (Reaching.solve ctx).visits ∧
        (Reaching.solve ctx).visits ≤
          f.graph.reachable.size * (1 + ctx.heldSet.size * (1 + f.opPoints.size)) := by
  refine ⟨.ofFunction p f, Context.build_eq_ok listed entry, ⟨?_, ?_⟩, ?_, ?_⟩
  · exact (Constants.fullRanking p f).search_ends entry
  · exact Constants.visits_bounds p entry
  · exact (Reaching.fullRanking (.ofFunction p f)).search_ends entry
  · exact Reaching.visits_bounds (.ofFunction p f) entry

/-- Two blocks, one name and two points: eight visits at most, by either analysis. -/
theorem visits_solve_bounds_misnamedLoop :
    (Program.empty.define misnamedLoop).functions.get? "test" = some misnamedLoop ∧
    misnamedLoop.blocks.contains entryName = true ∧
    ∃ ctx, Context.build (Program.empty.define misnamedLoop) "test" = .ok ctx ∧
      (2 ≤ (Constants.solve ctx).visits ∧ (Constants.solve ctx).visits ≤ 8) ∧
      2 ≤ (Reaching.solve ctx).visits ∧ (Reaching.solve ctx).visits ≤ 8 := by
  have listed : (Program.empty.define misnamedLoop).functions.get? "test" = some misnamedLoop := by
    decide +kernel
  have entry : misnamedLoop.blocks.contains entryName = true := by decide +kernel
  have reached : misnamedLoop.graph.reachable.size = 2 := by decide +kernel
  have points : misnamedLoop.opPoints.size = 2 := by decide +kernel
  obtain ⟨ctx, built, ⟨_, constants⟩, _, reaching⟩ := visits_solve_bounds listed entry
  obtain rfl := Except.ok.inj (built.symm.trans (Context.build_eq_ok listed entry))
  have names : (Context.ofFunction (Program.empty.define misnamedLoop)
      misnamedLoop).heldSet.size = 1 := by decide +kernel
  rw [reached, names] at constants
  rw [reached, names, points] at reaching
  exact ⟨listed, entry, _, built, constants, reaching⟩

end Analysis

end Lir
