import Lir.Proofs.Constants.Transfer
import Lir.Proofs.Flow.Reachable
import Lir.Proofs.Reaching.Exact

/-!
Both analyses end, and what they find is stable.

Reaching definitions pass sets on that only grow. Constant propagation follows more names as it goes
and is not monotone where a name is missing, but each name enters a state once and rises twice at
most. So in both the search ends with no block waiting, and then no visit would change anything.
-/

set_option autoImplicit false

namespace Lir

namespace Analysis

variable {σ : Type} [Join σ] {a : Analysis σ} {f : Function} {found : Fixpoint σ}

/-- The reachable blocks, and no others, have states: at their ends what follows from their starts,
and at the start of a block what its predecessors and the entry pass on is taken in. -/
structure Stable (a : Analysis σ) (f : Function) (found : Fixpoint σ) : Prop where
  mem_pre : ∀ name, name ∈ found.pre ↔ name ∈ f.graph.reachable
  mem_post : ∀ name, name ∈ found.post ↔ name ∈ f.graph.reachable
  block : ∀ name ∈ f.graph.reachable, ∃ block state, f.blocks.get? name = some block ∧
    found.pre[name]? = some state ∧ found.post[name]? = some (a.transferBlock block state)
  edge : ∀ source ∈ f.graph.reachable, ∀ target ∈ f.graph.successors source,
    ∃ before after, found.post[source]? = some before ∧ found.pre[target]? = some after ∧
      join after before = after
  entry : ∃ state, found.pre[entryName]? = some state ∧ join state a.start = state

theorem Solved.stable (solved : Solved a f found) (entry : f.blocks.contains entryName = true) :
    Stable a f found := by
  have reachable : ∀ name, name ∈ f.graph.reachable ↔ f.graph.Reaches name :=
    FlowGraph.mem_reachable f.closed_graph ((f.contains_graph entryName).trans entry)
  refine ⟨fun name => ?_, fun name => ?_, fun name reached => ?_,
    fun source reached target edge => ?_, solved.entry⟩
  · rw [solved.mem_pre, reachable]
  · rw [solved.mem_post, reachable]
  · rw [reachable] at reached
    obtain ⟨state, at_start⟩ := (mem_map_iff _ name).1 ((solved.mem_pre name).2 reached)
    obtain ⟨block, listed⟩ := Function.exists_block entry reached
    exact ⟨block, state, listed, at_start, solved.block name block state listed at_start⟩
  · rw [reachable] at reached
    obtain ⟨before, at_end⟩ := (mem_map_iff _ source).1 ((solved.mem_post source).2 reached)
    obtain ⟨after, at_start⟩ :=
      (mem_map_iff _ target).1 ((solved.mem_pre target).2 (reached.step edge))
    exact ⟨before, after, at_end, at_start,
      solved.edge source target before after edge at_end at_start⟩

theorem Ranking.ends_stable [LawfulJoin σ] {height : Nat} (ranking : Ranking a f height)
    (entry : f.blocks.contains entryName = true) :
    (a.search f height).waiting.isEmpty = true ∧ Stable a f (a.solve f height) :=
  ⟨ranking.search_ends entry, (ranking.solved entry).stable entry⟩

/-- For every function with an entry block both searches run until no block waits, and both give a
stable solution. -/
theorem stable_solve {p : Program} {name : String} {f : Function}
    (listed : p.functions.get? name = some f) (entry : f.blocks.contains entryName = true) :
    ∃ ctx, Context.build p name = .ok ctx ∧
      (((Reaching.analysis ctx).search f (Reaching.height ctx)).waiting.isEmpty = true ∧
        Stable (Reaching.analysis ctx) f (Reaching.solve ctx)) ∧
      ((Constants.analysis ctx).search f (Constants.height ctx)).waiting.isEmpty = true ∧
        Stable (Constants.analysis ctx) f (Constants.solve ctx) :=
  ⟨.ofFunction p f, Context.build_eq_ok listed entry,
    (Reaching.fullRanking (.ofFunction p f)).ends_stable entry,
    (Constants.fullRanking p f).ends_stable entry⟩

/-- Counts in a block that leads to itself. Blocks and instructions bear other names than the
blocks' keys, and one edge leads nowhere. -/
def misnamedLoop : Function where
  name := "test"
  params := []
  result := none
  locals := .ofList [("i", .int)]
  blocks := .ofList [
    ("entry", ⟨"loop", [.op "start" 0 (.copy "i" (.const 0)), .term "loop" (.jump "loop")]⟩),
    ("loop", ⟨"entry", [.op "entry" 0 (.arith "i" .add (.var "i") (.const 1)),
      .term "loop" (.branch (.var "i") "loop" "gone")]⟩)]

theorem stable_solve_misnamedLoop :
    (Program.empty.define misnamedLoop).functions.get? "test" = some misnamedLoop ∧
    misnamedLoop.blocks.contains entryName = true ∧ ¬ misnamedLoop.WellFormed ∧
    ∃ ctx, Context.build (Program.empty.define misnamedLoop) "test" = .ok ctx ∧
      Stable (Reaching.analysis ctx) misnamedLoop (Reaching.solve ctx) ∧
      Stable (Constants.analysis ctx) misnamedLoop (Constants.solve ctx) := by
  have listed : (Program.empty.define misnamedLoop).functions.get? "test" = some misnamedLoop := by
    decide +kernel
  have entry : misnamedLoop.blocks.contains entryName = true := by decide +kernel
  obtain ⟨ctx, built, reaching, constants⟩ := stable_solve listed entry
  exact ⟨listed, entry, by decide +kernel, ctx, built, reaching.2, constants.2⟩

end Analysis

end Lir
