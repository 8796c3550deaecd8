import Lir.Proofs.Memory.Members
import Lir.Proofs.Reaching.Exact
import Lir.Proofs.Source.Loaded

/-!
Stores that loads see.

A store writes every name that a pointer to the type of its value may point at, and a load reads
every name that a pointer to the type of its destination may point at. So a store reaches a later
load of its type when there is such a name and nothing on the way assigns it, whatever the pointers
are.
-/

set_option autoImplicit false

namespace Lir

namespace Function

/-- The trace leads from behind the first instruction to before the last. -/
inductive Between (f : Function) (first last : Instruction) : List Instruction → Prop where
  | within {block : Block} {before trace after : List Instruction} :
      f.blocks.get? first.block = some block →
      block.instructions = before ++ first :: (trace ++ last :: after) → Between f first last trace
  | across {source target : Block} {next : String} {left : List String}
      {before rest start after : List Instruction} :
      f.blocks.get? first.block = some source → source.instructions = before ++ first :: rest →
      next ∈ f.graph.successors first.block → f.graph.Path next left last.block →
      f.blocks.get? last.block = some target → target.instructions = start ++ last :: after →
      Between f first last (rest ++ f.executed left ++ start)

theorem mem_instructions_of_executed {f : Function} {left : List String} {name : String}
    {block : Block} {before after : List Instruction} {inst : Instruction}
    (listed : f.blocks.get? name = some block) (parts : block.instructions = before ++ after)
    (member : inst ∈ f.executed left ++ before) : inst ∈ f.instructions := by
  rw [mem_instructions]
  rcases List.mem_append.1 member with earlier | here
  · obtain ⟨other, _, inside⟩ := List.mem_flatMap.1 earlier
    cases other_listed : f.blocks.get? other with
    | none => simp [other_listed] at inside
    | some other_block =>
      exact ⟨other, other_block, other_listed, by simpa [other_listed] using inside⟩
  · exact ⟨name, block, listed, by rw [parts]; exact List.mem_append_left _ here⟩

theorem Between.exists_path {f : Function} {first last : Instruction} {trace : List Instruction}
    (between : f.Between first last trace) (wellFormed : f.WellFormed)
    (reached : f.graph.Reaches first.block) :
    ∃ left block before after earlier, f.graph.Path entryName left last.block ∧
      f.blocks.get? last.block = some block ∧ block.instructions = before ++ last :: after ∧
      f.executed left ++ before = earlier ++ first :: trace := by
  obtain ⟨left, path⟩ := reached
  cases between with
  | @within block before trace after listed parts =>
    have same : first.block = last.block := by
      have owned := (wellFormed.block _ _ listed).owned
      rw [owned first (by simp [parts]), owned last (by simp [parts])]
    exact ⟨left, block, before ++ first :: trace, after, f.executed left ++ before, same ▸ path,
      same ▸ listed, by simp [parts], by simp⟩
  | @across source target next later before rest start after listed parts edge onward
      target_listed target_parts =>
    have step : f.graph.Path first.block [first.block] next := FlowGraph.Path.start.step edge
    refine ⟨left ++ ([first.block] ++ later), target, start, after, f.executed left ++ before,
      path.append (step.append onward), target_listed, target_parts, ?_⟩
    simp [executed, listed, parts]

end Function

namespace Context

/-- The operand is a variable of the type or, for the integers, a literal. -/
inductive HasType (ctx : Context) : Operand → Ty → Prop where
  | const (value : Int32) : HasType ctx (.const value) .int
  | var {name : String} {ty : Ty} : ctx.typeOf? name = some ty → HasType ctx (.var name) ty

theorem HasType.storeTargets_eq {ctx : Context} {value : Operand} {ty : Ty}
    (typed : ctx.HasType value ty) (dst : String) :
    ctx.storeTargets dst value = ctx.aliases.mayPointTo ty := by
  cases typed with
  | const word => rfl
  | var declared => rw [storeTargets, storeType?, declared, Option.some_or]

end Context

namespace Reaching

section

variable {p : Program} {f : Function} {ty : Ty}

theorem typeOf?_or_cell_of_mem {name : String}
    (member : name ∈ (Context.ofFunction p f).aliases.mayPointTo ty) :
    (Context.ofFunction p f).typeOf? name = some ty ∨
      (Context.ofFunction p f).aliases.cells[ty]? = some name :=
  ((Context.mem_mayPointTo_iff ty name).1 member).elim
    (fun cell => .inr ((Context.cell_iff ty name).2 cell)) fun taken => .inl taken.2

/-- A store writes no name but what a pointer to the type of its value may point at. -/
theorem writes_store_iff {ctx : Context} {block : String} {index : Nat} {dst : String}
    {value : Operand} (typed : ctx.HasType value ty) (name : String) :
    Writes ctx (.op block index (.store dst value)) name ↔ name ∈ ctx.aliases.mayPointTo ty := by
  rw [Writes, mayWrite, typed.storeTargets_eq]
  exact or_iff_right (by simp [Instruction.def?, Op.def?])

end

/-- A store reaches a later load of its type, along a path that assigns no variable of the type and
not the type's cell, exactly if the function has memory of the type. What the pointers are declared
as does not matter, nor whether they are assigned on the way. -/
theorem store_mem_solution_load_iff {source name : String} {f : Function}
    (loaded : (Program.load source).1.functions.get? name = some f)
    (entry : f.blocks.contains entryName = true) :
    ∃ ctx, Context.build (Program.load source).1 name = .ok ctx ∧
      ∀ ty home index pointer value away later read dst trace,
        f.graph.Reaches home → ctx.HasType value ty → ctx.typeOf? dst = some ty →
        f.Between (.op home index (.store pointer value)) (.op away later (.load dst read)) trace →
        (∀ inst ∈ trace, ∀ assigned, inst.def? = some assigned →
          ctx.typeOf? assigned ≠ some ty ∧ ctx.aliases.cells[ty]? ≠ some assigned) →
        ∃ points, (ReachingDefs.compute ctx).solution[Point.op away later]? = some points ∧
          (.op home index ∈ points ↔ Context.HasMemory (Program.load source).1 f ty) := by
  refine ⟨_, Context.build_eq_ok loaded entry, ?_⟩
  intro ty home index pointer value away later read dst trace reached typed declared between kept
  let ctx := Context.ofFunction (Program.load source).1 f
  let store : Instruction := .op home index (.store pointer value)
  have wellFormed := Program.wellFormed_load loaded
  obtain ⟨left, block, before, after, earlier, path, listed, parts, run⟩ :=
    between.exists_path wellFormed reached
  obtain ⟨s, _, solution, exact⟩ := exists_record entry wellFormed ⟨left, path⟩ listed parts
  refine ⟨_, solution, ?_⟩
  rw [mem_usedPoints, ← Context.exists_mem_mayPointTo_iff]
  constructor
  · -- The point is the store's alone, so whatever it defines the store has written.
    rintro ⟨var, _, defined⟩
    obtain ⟨other, _, first, writer, rest, other_run, at_store, writes, _⟩ :=
      (exact _ var).1 defined
    have belongs : ∀ left inst, inst ∈ f.executed left ++ before → inst ∈ f.instructions :=
      fun _ _ => Function.mem_instructions_of_executed listed parts
    have writer_belongs := belongs other writer (by simp [other_run])
    have store_belongs := belongs left store (by simp [run, store])
    obtain rfl := wellFormed.eq_of_point writer_belongs store_belongs at_store
    exact ⟨var, (writes_store_iff typed var).1 writes⟩
  · rintro ⟨member, pointed⟩
    refine ⟨member, .loaded rfl declared pointed, (exact _ member).2 ⟨left, path, ?_⟩⟩
    refine ⟨earlier, store, trace, run, rfl, (writes_store_iff typed member).2 pointed, ?_⟩
    intro inst inside assigns
    have untouched := kept inst inside member assigns
    exact (typeOf?_or_cell_of_mem pointed).elim untouched.1 untouched.2

def storesThroughParameter : String := "\n".intercalate [
  "fn test(q: &int, n: int) -> int \x7b",
  "  let t: int, r: &int",
  "  entry:",
  "    $store q 5",
  "    $branch n again done",
  "  again:",
  "    r = $copy q",
  "    $branch n again done",
  "  done:",
  "    t = $load q",
  "    $ret t",
  "\x7d"]

def storeFive : Instruction := .op "entry" 0 (.store "q" (.const 5))

def loadAgain : Instruction := .op "done" 0 (.load "t" "q")

def storingBlock : Block :=
  ⟨"entry", [storeFive, .term "entry" (.branch (.var "n") "again" "done")]⟩

def loadingBlock : Block := ⟨"done", [loadAgain, .term "done" (.ret (some (.var "t")))]⟩

def parameterFunction : Function where
  name := "test"
  params := [⟨"q", .pointer .int⟩, ⟨"n", .int⟩]
  result := some .int
  locals := .ofList [("t", .int), ("r", .pointer .int)]
  blocks := .ofList [("entry", storingBlock),
    ("again", ⟨"again", [.op "again" 0 (.copy "r" (.var "q")),
      .term "again" (.branch (.var "n") "again" "done")]⟩),
    ("done", loadingBlock)]

theorem load_storesThroughParameter :
    (Program.load storesThroughParameter).1 = Program.empty.define parameterFunction := by
  decide +kernel

theorem between_parameterFunction : parameterFunction.Between storeFive loadAgain
    ([.term "entry" (.branch (.var "n") "again" "done")] ++
      parameterFunction.executed ["again"] ++ []) := by
  have storing : parameterFunction.blocks.get? "entry" = some storingBlock := by decide +kernel
  have loading : parameterFunction.blocks.get? "done" = some loadingBlock := by decide +kernel
  have around : parameterFunction.graph.Path "again" ([] ++ ["again"]) "done" :=
    .step .start (by decide +kernel)
  have stores : storingBlock.instructions = [] ++ storeFive :: _ := rfl
  have loads : loadingBlock.instructions = [] ++ loadAgain :: _ := rfl
  exact .across storing stores (by decide +kernel) around loading loads

/-- Around the loop once, the load sees the store. -/
theorem store_mem_solution_load_iff_storesThroughParameter :
    (Program.load storesThroughParameter).1.functions.get? "test" = some parameterFunction ∧
      parameterFunction.blocks.contains entryName = true ∧
      ∃ ctx points, Context.build (Program.load storesThroughParameter).1 "test" = .ok ctx ∧
        (ReachingDefs.compute ctx).solution[Point.op "done" 0]? = some points ∧
        .op "entry" 0 ∈ points := by
  have loaded : (Program.load storesThroughParameter).1.functions.get? "test" =
      some parameterFunction := by
    rw [load_storesThroughParameter]
    decide +kernel
  have entry : parameterFunction.blocks.contains entryName = true := by decide +kernel
  obtain ⟨ctx, built, sees⟩ := store_mem_solution_load_iff loaded entry
  obtain rfl := Except.ok.inj (built.symm.trans (Context.build_eq_ok loaded entry))
  have declared : (Context.ofFunction (Program.load storesThroughParameter).1
      parameterFunction).typeOf? "t" = some .int := by
    rw [load_storesThroughParameter]
    decide +kernel
  obtain ⟨points, solution, seen⟩ := sees .int "entry" 0 "q" (.const 5) "done" 0 "q" "t" _ .entry
    (.const 5) declared between_parameterFunction (by
      rw [load_storesThroughParameter]
      decide +kernel)
  refine ⟨loaded, entry, _, points, built, solution, seen.2 ?_⟩
  exact .unnamed (.parameter loaded List.mem_cons_self rfl) (.root rfl)

def storesThroughResult : String := "\n".intercalate [
  "extern get: () -> &int",
  "fn test() -> int \x7b",
  "  let q: &int, t: int",
  "  entry:",
  "    q = $call_ext get()",
  "    $store q 5",
  "    t = $load q",
  "    $ret t",
  "\x7d"]

def resultBlock : Block := ⟨"entry", [.op "entry" 0 (.call ⟨some "q", .external, "get", [], none⟩),
  .op "entry" 1 (.store "q" (.const 5)), .op "entry" 2 (.load "t" "q"),
  .term "entry" (.ret (some (.var "t")))]⟩

def resultFunction : Function where
  name := "test"
  params := []
  result := some .int
  locals := .ofList [("q", .pointer .int), ("t", .int)]
  blocks := .ofList [("entry", resultBlock)]

theorem load_storesThroughResult : (Program.load storesThroughResult).1 =
    (Program.empty.declareExternal "get" ⟨[], some (.pointer .int)⟩).define resultFunction := by
  decide +kernel

/-- A call leaves no memory behind for the pointer that it gives: a load need not see the store
right before it, even if nothing is assigned between them. -/
theorem not_store_mem_solution_load :
    ¬ ∀ (source name : String) (f : Function),
      (Program.load source).1.functions.get? name = some f → f.blocks.contains entryName = true →
      ∃ ctx, Context.build (Program.load source).1 name = .ok ctx ∧
        ∀ ty home index pointer value away later dst trace,
          f.graph.Reaches home → ctx.typeOf? pointer = some (.pointer ty) →
          ty.endsInFunction = false → ctx.HasType value ty → ctx.typeOf? dst = some ty →
          f.Between (.op home index (.store pointer value)) (.op away later (.load dst pointer))
            trace →
          (∀ inst ∈ trace, ∀ assigned, inst.def? = some assigned →
            assigned ≠ pointer ∧ ctx.typeOf? assigned ≠ some ty) →
          ∃ points, (ReachingDefs.compute ctx).solution[Point.op away later]? = some points ∧
            .op home index ∈ points := by
  intro claimed
  have loaded : (Program.load storesThroughResult).1.functions.get? "test" =
      some resultFunction := by
    rw [load_storesThroughResult]
    decide +kernel
  have entry : resultFunction.blocks.contains entryName = true := by decide +kernel
  obtain ⟨ctx, built, sees⟩ := claimed storesThroughResult "test" resultFunction loaded entry
  obtain rfl := Except.ok.inj (built.symm.trans (Context.build_eq_ok loaded entry))
  rw [load_storesThroughResult] at sees
  have listed : resultFunction.blocks.get? "entry" = some resultBlock := by decide +kernel
  have parts : resultBlock.instructions = resultBlock.instructions.take 1 ++
      .op "entry" 1 (.store "q" (.const 5)) :: ([] ++ .op "entry" 2 (.load "t" "q") :: _) := rfl
  have between : resultFunction.Between (.op "entry" 1 (.store "q" (.const 5)))
      (.op "entry" 2 (.load "t" "q")) [] := .within listed parts
  obtain ⟨points, solution, seen⟩ := sees .int "entry" 1 "q" (.const 5) "entry" 2 "t" [] .entry
    (by decide +kernel) rfl (.const 5) (by decide +kernel) between (by simp)
  have lost : ∀ points ∈ (ReachingDefs.compute (.ofFunction
      ((Program.empty.declareExternal "get" ⟨[], some (.pointer .int)⟩).define resultFunction)
      resultFunction)).solution[Point.op "entry" 2]?, .op "entry" 1 ∉ points := by decide +kernel
  exact lost points solution seen

end Reaching

end Lir
