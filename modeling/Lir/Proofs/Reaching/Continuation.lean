import Lir.Proofs.Reaching.Exact
import Lir.Proofs.Source.Loaded

/-!
What reaches the continuation of a call.

The edge to a continuation leaves the block as a whole, wherever in the block the call stands. So
the continuation is entered with the state at the block's end: of the definitions right after the
call it has those whose name the rest of the block does not assign.
-/

set_option autoImplicit false

namespace Lir

theorem Block.mem_successors_of_continuation {block : Block} {owner next : String} {index : Nat}
    {site : Call} (member : .op owner index (.call site) ∈ block.instructions)
    (continues : site.next = some next) : next ∈ block.successors := by
  rw [Block.successors, List.mem_eraseDups, List.mem_flatMap]
  exact ⟨_, member, by simp [Instruction.successors, Op.next?, continues]⟩

namespace Reaching

variable {p : Program} {f : Function}

theorem exists_pre_of_successor (entry : f.blocks.contains entryName = true)
    {name target : String} (reached : f.graph.Reaches name) {block : Block}
    (listed : f.blocks.get? name = some block) (edge : target ∈ f.graph.successors name)
    {before after : List Instruction} (parts : block.instructions = before ++ after)
    {state : DefMap} (found : (solve (.ofFunction p f)).pre[name]? = some state) :
    ∃ next, (solve (.ofFunction p f)).pre[target]? = some next ∧ ∀ var point,
      point ∈ DefMap.points ((analysis (.ofFunction p f)).transferAll before state) var →
      (∀ inst ∈ after, inst.def? ≠ some var) → point ∈ next.points var := by
  have solved := solved (.ofFunction p f) entry
  obtain ⟨next, at_target⟩ :=
    (mem_map_iff _ target).1 ((solved.mem_pre target).2 (reached.step edge))
  refine ⟨next, at_target, fun var point defined kept => ?_⟩
  have knows := (exists_path_of_mem_points entry _ name state found).1.transferAll before
  have at_end := solved.block name block state listed found
  rw [Analysis.transferBlock, parts, Analysis.transferAll, List.foldl_append] at at_end
  rw [← solved.edge name target _ next edge at_end at_target, mem_points_join]
  exact .inr ((mem_points_transferAll knows after point var).2 (.inr ⟨defined, kept⟩))

/-- The definitions right after a call are in the state at the start of the continuation, but for
the names that the rest of the block assigns. -/
theorem mem_pre_of_mem_reachingAfter {source name : String} {f : Function}
    (loaded : (Program.load source).1.functions.get? name = some f)
    (entry : f.blocks.contains entryName = true) :
    ∃ ctx, Context.build (Program.load source).1 name = .ok ctx ∧
      ∀ caller block before owner index site after target, f.graph.Reaches caller →
        f.blocks.get? caller = some block →
        block.instructions = before ++ .op owner index (.call site) :: after →
        site.next = some target → f.blocks.contains target = true →
        ∃ state, (ReachingDefs.compute ctx).fixpoint.pre[target]? = some state ∧ ∀ var point,
          point ∈ (ReachingDefs.compute ctx).reachingAfter (.op owner index) var →
          (∀ inst ∈ after, inst.def? ≠ some var) → point ∈ state.points var := by
  refine ⟨_, Context.build_eq_ok loaded entry, ?_⟩
  intro caller block before owner index site after target reached listed parts continues present
  let ctx := Context.ofFunction (Program.load source).1 f
  let call : Instruction := .op owner index (.call site)
  have member : call ∈ block.instructions := by simp [parts, call]
  have edge : target ∈ f.graph.successors caller :=
    (f.mem_successors_graph caller target).2
      ⟨block, listed, Block.mem_successors_of_continuation member continues, present⟩
  obtain ⟨state, found⟩ :=
    (mem_map_iff _ caller).1 (((solved ctx entry).mem_pre caller).2 reached)
  obtain ⟨next, at_target, flows⟩ := exists_pre_of_successor entry reached listed edge
    (parts.trans (List.append_cons before call after)) found
  have wellFormed : ctx.function.WellFormed := Program.wellFormed_load loaded
  have record := ReachingDefs.recordAt_compute wellFormed listed parts found
  have after_call : (ReachingDefs.compute ctx).after[call.point]? =
      some ((analysis ctx).transferAll (before ++ [call]) state) := by
    rw [Analysis.transferAll, List.foldl_append]
    exact congrArg (fun record => record.2.1) record
  refine ⟨next, ?_, fun var point defined kept => flows var point ?_ kept⟩
  · rw [ReachingDefs.compute, ReachingDefs.foldl_recordBlock_fixpoint]
    exact at_target
  · rw [ReachingDefs.reachingAfter, show (Point.op owner index) = call.point from rfl,
      after_call] at defined
    exact defined

def assignsAfterCall : String := "\n".intercalate [
  "fn test() -> int \x7b",
  "  let x: int, y: int",
  "  entry:",
  "    x = $copy 1",
  "    y = $copy 1",
  "    $call_ext step() then next",
  "    y = $copy 2",
  "    $jump next",
  "  next:",
  "    $ret x",
  "\x7d"]

def stepCall : Call := ⟨none, .external, "step", [], some "next"⟩

def callingBlock : Block := ⟨"entry", [.op "entry" 0 (.copy "x" (.const 1)),
  .op "entry" 1 (.copy "y" (.const 1)), .op "entry" 2 (.call stepCall),
  .op "entry" 3 (.copy "y" (.const 2)), .term "entry" (.jump "next")]⟩

theorem instructions_callingBlock : callingBlock.instructions =
    callingBlock.instructions.take 2 ++
      .op "entry" 2 (.call stepCall) :: callingBlock.instructions.drop 3 := rfl

def callingFunction : Function where
  name := "test"
  params := []
  result := some .int
  locals := .ofList [("x", .int), ("y", .int)]
  blocks := .ofList [("entry", callingBlock),
    ("next", ⟨"next", [.term "next" (.ret (some (.var "x")))]⟩)]

theorem load_assignsAfterCall :
    (Program.load assignsAfterCall).1 = Program.empty.define callingFunction := by decide +kernel

theorem loaded_callingFunction :
    (Program.load assignsAfterCall).1.functions.get? "test" = some callingFunction := by
  rw [load_assignsAfterCall]
  decide +kernel

theorem mem_pre_of_mem_reachingAfter_assignsAfterCall :
    (Program.load assignsAfterCall).1.functions.get? "test" = some callingFunction ∧
      callingFunction.blocks.contains entryName = true ∧
      ∃ ctx state, Context.build (Program.load assignsAfterCall).1 "test" = .ok ctx ∧
        (ReachingDefs.compute ctx).fixpoint.pre["next"]? = some state ∧
        .op "entry" 0 ∈ DefMap.points state "x" := by
  have entry : callingFunction.blocks.contains entryName = true := by decide +kernel
  obtain ⟨ctx, built, flows⟩ := mem_pre_of_mem_reachingAfter loaded_callingFunction entry
  obtain ⟨state, at_next, kept⟩ := flows "entry" callingBlock _ _ _ _ _ "next" .entry
    (by decide +kernel) instructions_callingBlock rfl (by decide +kernel)
  refine ⟨loaded_callingFunction, entry, ctx, state, built, at_next, kept "x" _ ?_ (by decide)⟩
  obtain rfl := Except.ok.inj (built.symm.trans (Context.build_eq_ok loaded_callingFunction entry))
  rw [load_assignsAfterCall]
  decide +kernel

/-- What follows a call in its block is seen by the continuation: a definition right after the call
need not be in the state at the continuation's start. -/
theorem not_mem_pre_of_mem_reachingAfter :
    ¬ ∀ (source name : String) (f : Function),
      (Program.load source).1.functions.get? name = some f → f.blocks.contains entryName = true →
      ∃ ctx, Context.build (Program.load source).1 name = .ok ctx ∧
        ∀ caller block before owner index site after target, f.graph.Reaches caller →
          f.blocks.get? caller = some block →
          block.instructions = before ++ .op owner index (.call site) :: after →
          site.next = some target → f.blocks.contains target = true →
          ∃ state, (ReachingDefs.compute ctx).fixpoint.pre[target]? = some state ∧ ∀ var point,
            point ∈ (ReachingDefs.compute ctx).reachingAfter (.op owner index) var →
            point ∈ DefMap.points state var := by
  intro claimed
  have entry : callingFunction.blocks.contains entryName = true := by decide +kernel
  obtain ⟨ctx, built, flows⟩ := claimed assignsAfterCall "test" callingFunction
    loaded_callingFunction entry
  obtain ⟨state, at_next, kept⟩ := flows "entry" callingBlock _ _ _ _ _ "next" .entry
    (by decide +kernel) instructions_callingBlock rfl (by decide +kernel)
  obtain rfl := Except.ok.inj (built.symm.trans (Context.build_eq_ok loaded_callingFunction entry))
  rw [load_assignsAfterCall] at at_next kept
  have lost : ∀ state ∈ (ReachingDefs.compute (.ofFunction (Program.empty.define callingFunction)
      callingFunction)).fixpoint.pre["next"]?, .op "entry" 1 ∉ DefMap.points state "y" := by
    decide +kernel
  exact lost state at_next (kept "y" _ (by decide +kernel))

end Reaching

end Lir
