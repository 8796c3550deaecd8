import Lir.Proofs.Constants.Transfer
import Lir.Proofs.Reaching.Exact
import Lir.Proofs.Source.Loaded

/-!
What a block may write, according to both analyses.

Whatever gives a name another value in constant propagation is recorded as a definition of the
name, and the last of a block's definitions of a name is still there at the block's end. So a
name without a definition of the block's own keeps its value through the block.
-/

set_option autoImplicit false

namespace Lir

namespace Constants

variable {ctx : Context} {name : String}

/-- Values change only under names that the instruction writes. -/
theorem getElem?_transfer_of_not_writes {inst : Instruction}
    (unwritten : ¬ Reaching.Writes ctx inst name) (s : ConstEnv) :
    (transfer ctx inst s)[name]? = s[name]? := by
  obtain ⟨not_assigned, not_stored⟩ := not_or.1 unwritten
  have kept : ∀ (dst : String) (value : FlatInt) (s : ConstEnv), dst ≠ name →
      (assign ctx s dst value)[name]? = s[name]? := fun dst value s other => by
    rw [getElem?_assign, if_neg fun assigned => other assigned.2]
  cases inst with
  | term _ _ => rfl
  | op block index operation =>
    cases operation with
    | copy dst src =>
      rw [transfer]
      split
      · rfl
      · exact kept dst _ s (mt (congrArg some) not_assigned)
    | arith dst _ _ _ | cmp dst _ _ _ | load dst _ =>
      exact kept dst _ s (mt (congrArg some) not_assigned)
    | store dst value =>
      rw [transfer]
      split
      next stores_int =>
        have targets : name ∉ ctx.aliases.mayPointTo .int := by
          rw [Reaching.mayWrite, Context.storeTargets, stores_int] at not_stored
          exact not_stored
        rw [ConstEnv.getElem?_joinAll, if_neg targets]
      next => rfl
    | call site =>
      have forgotten : (ConstEnv.forgetAll s (ctx.aliases.clobbered (.op block index)))[name]? =
          s[name]? :=
        (ConstEnv.getElem?_forgetAll s _ name).trans (if_neg not_stored)
      obtain ⟨dst, _, _, _, _⟩ := site
      cases dst with
      | none => exact forgotten
      | some dst => exact (kept dst _ _ (mt (congrArg some) not_assigned)).trans forgotten
    | gep _ _ _ | gfp _ _ _ | alloc _ _ _ | addrOf _ _ => rfl

theorem getElem?_transferAll_of_not_writes {instructions : List Instruction}
    (unwritten : ∀ inst ∈ instructions, ¬ Reaching.Writes ctx inst name) (s : ConstEnv) :
    ((analysis ctx).transferAll instructions s)[name]? = s[name]? := by
  induction instructions generalizing s with
  | nil => rfl
  | cons inst rest ih =>
    obtain ⟨first, later⟩ := List.forall_mem_cons.1 unwritten
    exact (ih later _).trans (getElem?_transfer_of_not_writes first s)

end Constants

namespace Reaching

variable {ctx : Context}

theorem exists_lastWrote {instructions : List Instruction} {name : String}
    (written : ∃ inst ∈ instructions, Writes ctx inst name) :
    ∃ inst ∈ instructions, LastWrote ctx instructions inst.point name := by
  induction instructions with
  | nil =>
    obtain ⟨inst, member, _⟩ := written
    exact absurd member List.not_mem_nil
  | cons first rest ih =>
    -- The first instruction counts only if no later one writes the name.
    by_cases later : ∃ inst ∈ rest, Writes ctx inst name
    · obtain ⟨inst, member, last⟩ := ih later
      refine ⟨inst, List.mem_cons_of_mem first member, ?_⟩
      exact (lastWrote_cons first rest _ name).2 (.inl last)
    · have not_assigned : ∀ inst ∈ rest, inst.def? ≠ some name := fun inst member assigns =>
        later ⟨inst, member, .inl assigns⟩
      obtain ⟨inst, member, writes⟩ := written
      obtain rfl := (List.mem_cons.1 member).resolve_right fun inside =>
        later ⟨inst, inside, writes⟩
      refine ⟨inst, member, (lastWrote_cons inst rest _ name).2 (.inr ?_)⟩
      exact ⟨⟨rfl, writes⟩, not_assigned⟩

/-- If no definition of a name at the end of a block is the block's own, the block does not write
the name. -/
theorem not_writes_of_points {p : Program} {f : Function} (wellFormed : f.WellFormed)
    {block : String} {b : Block} (listed : f.blocks.get? block = some b) {s : DefMap}
    (knows : KnowsVars (.ofFunction p f) s) {name : String}
    (foreign : ∀ point ∈ DefMap.points ((analysis (.ofFunction p f)).transferBlock b s) name,
      point.block ≠ block) :
    ∀ inst ∈ b.instructions, ¬ Writes (.ofFunction p f) inst name := by
  intro inst member writes
  obtain ⟨writer, inside, last⟩ := exists_lastWrote ⟨inst, member, writes⟩
  have defined := (mem_points_transferAll knows b.instructions writer.point name).2 (.inl last)
  exact foreign writer.point defined (wellFormed.block_point listed inside)

end Reaching

namespace Constants

/-- A name with no definition of the block's own at the block's end has one value at both ends of
the block. -/
theorem valueAtStart_eq_valueAtEnd {source name : String} {f : Function}
    (loaded : (Program.load source).1.functions.get? name = some f)
    (entry : f.blocks.contains entryName = true) :
    ∃ ctx, Context.build (Program.load source).1 name = .ok ctx ∧
      ∀ block, f.graph.Reaches block →
        ∃ state, (Reaching.solve ctx).post[block]? = some state ∧
          ∀ var, (∀ point ∈ DefMap.points state var, point.block ≠ block) →
            valueAtStart (solve ctx) block var = valueAtEnd (solve ctx) block var := by
  refine ⟨_, Context.build_eq_ok loaded entry, fun block reached => ?_⟩
  let p := (Program.load source).1
  have wellFormed := Program.wellFormed_load loaded
  obtain ⟨b, listed⟩ := Function.exists_block entry reached
  have definitions := Reaching.solved (.ofFunction p f) entry
  obtain ⟨before, at_start⟩ := (mem_map_iff _ block).1 ((definitions.mem_pre block).2 reached)
  have knows := (Reaching.exists_path_of_mem_points entry _ block before at_start).1
  refine ⟨_, definitions.block block b before listed at_start, fun var foreign => ?_⟩
  have unwritten := Reaching.not_writes_of_points wellFormed listed knows foreign
  have values := solved p entry
  obtain ⟨known, found⟩ := (mem_map_iff _ block).1 ((values.mem_pre block).2 reached)
  rw [valueAtStart, valueAtEnd, found, values.block block b known listed found]
  exact (getElem?_transferAll_of_not_writes unwritten known).symm

def readsBack : String := "\n".intercalate [
  "fn test() -> _ \x7b",
  "let x: int, y: int",
  "entry:",
  "x = $copy 1",
  "$jump next",
  "next:",
  "y = $copy x",
  "$ret",
  "\x7d"]

def readingFunction : Function where
  name := "test"
  params := []
  result := none
  locals := .ofList [("x", .int), ("y", .int)]
  blocks := .ofList [
    ("entry", ⟨"entry", [.op "entry" 0 (.copy "x" (.const 1)), .term "entry" (.jump "next")]⟩),
    ("next", ⟨"next", [.op "next" 0 (.copy "y" (.var "x")), .term "next" (.ret none)]⟩)]

theorem load_readsBack :
    (Program.load readsBack).1 = Program.empty.define readingFunction := by decide +kernel

/-- The block that reads the name is entered and left with the value assigned before it. -/
theorem valueAtStart_eq_valueAtEnd_readsBack :
    (Program.load readsBack).1.functions.get? "test" = some readingFunction ∧
      readingFunction.blocks.contains entryName = true ∧
      ∃ ctx, Context.build (Program.load readsBack).1 "test" = .ok ctx ∧
        valueAtStart (solve ctx) "next" "x" = some (.const 1) ∧
        valueAtEnd (solve ctx) "next" "x" = some (.const 1) := by
  have loaded : (Program.load readsBack).1.functions.get? "test" = some readingFunction := by
    rw [load_readsBack]
    decide +kernel
  have entry : readingFunction.blocks.contains entryName = true := by decide +kernel
  obtain ⟨ctx, built, agree⟩ := valueAtStart_eq_valueAtEnd loaded entry
  obtain ⟨state, at_end, kept⟩ := agree "next" (.step .entry (by decide +kernel))
  obtain rfl := Except.ok.inj (built.symm.trans (Context.build_eq_ok loaded entry))
  have foreign : ∀ point ∈ DefMap.points state "x", point.block ≠ "next" := by
    have found : (Reaching.solve (.ofFunction (Program.load readsBack).1 readingFunction)).post[
        "next"]?.map (fun state => (DefMap.points state "x").toList) = some [.op "entry" 0] := by
      rw [load_readsBack]
      decide +kernel
    rw [at_end, Option.map_some] at found
    intro point member
    rw [← Std.ExtTreeSet.mem_toList, Option.some.inj found, List.mem_singleton] at member
    rw [member]
    decide
  have started : valueAtStart (solve (.ofFunction (Program.load readsBack).1 readingFunction))
      "next" "x" = some (.const 1) := by
    rw [load_readsBack]
    decide +kernel
  exact ⟨loaded, entry, _, built, started, (kept "x" foreign).symm.trans started⟩

end Constants

end Lir
