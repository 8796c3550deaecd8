import Lir.Proofs.Reaching.Recorded
import Lir.Proofs.Reaching.Transfer

/-!
Reaching definitions are exact over the paths of the flow graph.

A definition of a name reaches a point if and only if some path from the entry to the point
executes it as the last to write the name. The solution holds every such definition, since it is
stable along every edge, and no other, since nothing else is ever passed on.
-/

set_option autoImplicit false

namespace Lir

namespace Function

def executed (f : Function) (left : List String) : List Instruction :=
  left.flatMap fun name => ((f.blocks.get? name).map Block.instructions).getD []

/-- Some path from the entry executes the trace and then stands before the point. -/
def RunsTo (f : Function) (trace : List Instruction) (point : Point) : Prop :=
  ∃ left name block before inst after, f.graph.Path entryName left name ∧
    f.blocks.get? name = some block ∧ block.instructions = before ++ inst :: after ∧
    inst.point = point ∧ trace = f.executed left ++ before

theorem executed_concat (f : Function) (left : List String) {name : String} {block : Block}
    (listed : f.blocks.get? name = some block) :
    f.executed (left ++ [name]) = f.executed left ++ block.instructions := by
  simp [executed, listed]

end Function

namespace Reaching

/-! ### The search ends -/

section

variable {ctx : Context} {names : List String} {points : List Point}

theorem possible_transfer {inst : Instruction} {s : DefMap}
    (assigned : ∀ name, inst.def? = some name → name ∈ names)
    (placed : inst.isTerm = false → inst.point ∈ points)
    (possible : ((Ranked.set points).map names).possible s) :
    ((Ranked.set points).map names).possible (transfer ctx inst s) := by
  have placed_if_writes : ∀ name, Writes ctx inst name → inst.point ∈ points := by
    intro name writes
    refine placed ?_
    cases inst with
    | op _ _ _ => rfl
    | term _ _ => simp [Writes, Instruction.def?, mayWrite] at writes
  constructor
  · intro name member
    rw [mem_map_iff, getElem?_transfer] at member
    split at member
    next assigns => exact assigned name assigns
    next =>
      refine possible.1 name ((mem_map_iff s name).2 ?_)
      cases found : s[name]? with
      | some old => exact ⟨old, rfl⟩
      | none => simp [found] at member
  · intro name value found point member
    rw [getElem?_transfer] at found
    split at found
    next assigns =>
      obtain rfl := Option.some.inj found
      exact (mem_singleton_set _ point).1 member ▸ placed_if_writes name (.inl assigns)
    next =>
      split at found
      next written =>
        obtain ⟨old, before, rfl⟩ := Option.map_eq_some_iff.1 found
        rcases (mem_insert_set old _ point).1 member with rfl | old_member
        · exact placed_if_writes name (.inr written)
        · exact possible.2 name old before point old_member
      next => exact possible.2 name value found point member

def ranking (ctx : Context) (vars : ∀ name ∈ ctx.vars.keys, name ∈ names)
    (assigned : ∀ inst ∈ ctx.function.instructions, ∀ name, inst.def? = some name → name ∈ names)
    (placed : ∀ inst ∈ ctx.function.instructions, inst.isTerm = false → inst.point ∈ points) :
    Analysis.Ranking (analysis ctx) ctx.function (names.length * (1 + points.length)) where
  toRanked := (Ranked.set points).map names
  start := by
    constructor
    · intro name member
      rw [mem_map_iff] at member
      obtain ⟨value, found⟩ := member
      rw [analysis, getElem?_start] at found
      split at found
      next declared => exact vars name declared
      next => simp at found
    · intro name value found point member
      rw [analysis, getElem?_start] at found
      split at found
      next =>
        obtain rfl := Option.some.inj found
        exact absurd member Std.ExtTreeSet.not_mem_empty
      next => simp at found
  transfer {name block state} listed possible := by
    refine List.foldlRecOn (motive := ((Ranked.set points).map names).possible) block.instructions
      _ possible fun s possible inst member => ?_
    have inside := (ctx.function.mem_instructions inst).2 ⟨name, block, listed, member⟩
    exact possible_transfer (assigned inst inside) (placed inst inside) possible

def fullRanking (ctx : Context) : Analysis.Ranking (analysis ctx) ctx.function (height ctx) :=
  (ranking ctx (fun _ => Context.mem_heldNames_of_variable)
    (fun _ member _ => Context.mem_heldNames_of_def member)
    (fun _ member _ => List.mem_map_of_mem member)).weaken (by
      rw [height, List.length_map]
      exact Nat.mul_le_mul_right _ ctx.length_heldNames_le)

theorem solved (ctx : Context) (entry : ctx.function.blocks.contains entryName = true) :
    Analysis.Solved (analysis ctx) ctx.function (solve ctx) :=
  (fullRanking ctx).solved entry

end

/-! ### The solution is exact -/

section

variable {p : Program} {f : Function}

theorem points_start (ctx : Context) (var : String) : (start ctx).points var = ∅ := by
  rw [DefMap.points, getElem?_start]
  split <;> rfl

/-- No definition is found without a path. -/
theorem exists_path_of_mem_points (entry : f.blocks.contains entryName = true) (height : Nat) :
    ∀ (name : String) (s : DefMap),
      (((analysis (.ofFunction p f)).search f height).found.pre[name]? = some s) →
      KnowsVars (.ofFunction p f) s ∧ ∀ point var, point ∈ s.points var →
        ∃ left, f.graph.Path entryName left name ∧
          LastWrote (.ofFunction p f) (f.executed left) point var := by
  refine Analysis.search_pre_induction entry ?_ ?_ ?_ height
  · refine ⟨knowsVars_start _, fun point var member => ?_⟩
    rw [analysis, points_start] at member
    exact absurd member Std.ExtTreeSet.not_mem_empty
  · rintro name block s target ⟨reaching, path⟩ listed edge ⟨knows, found⟩
    refine ⟨knows.transferAll block.instructions, fun point var member => ?_⟩
    rcases (mem_points_transferAll knows block.instructions point var).1 member with
      written | ⟨before, kept⟩
    · refine ⟨_, path.step edge, ?_⟩
      rw [f.executed_concat _ listed, lastWrote_append]
      exact .inl written
    · obtain ⟨left, path, written⟩ := found point var before
      refine ⟨_, path.step edge, ?_⟩
      rw [f.executed_concat _ listed, lastWrote_append]
      exact .inr ⟨written, kept⟩
  · rintro name s t ⟨knows, found⟩ ⟨_, found'⟩
    refine ⟨knows.join t, fun point var member => ?_⟩
    rcases (mem_points_join s t var point).1 member with first | second
    · exact found point var first
    · exact found' point var second

/-- No definition of a path is lost. -/
theorem mem_points_of_path (entry : f.blocks.contains entryName = true) {left : List String}
    {name : String} (path : f.graph.Path entryName left name) {s : DefMap}
    (found : (solve (.ofFunction p f)).pre[name]? = some s) {point : Point} {var : String}
    (written : LastWrote (.ofFunction p f) (f.executed left) point var) :
    point ∈ s.points var := by
  have solved := solved (.ofFunction p f) entry
  induction path generalizing s with
  | start => exact absurd written (not_lastWrote_nil point var)
  | @step left source target path edge ih =>
    obtain ⟨before, at_source⟩ :=
      (mem_map_iff _ source).1 ((solved.mem_pre source).2 ⟨left, path⟩)
    obtain ⟨block, listed, _⟩ := (f.mem_successors_graph source target).1 edge
    have knows := (exists_path_of_mem_points entry _ source before at_source).1
    have at_end := solved.block source block before listed at_source
    rw [f.executed_concat left listed, lastWrote_append] at written
    rw [← solved.edge source target _ s edge at_end found, mem_points_join]
    refine .inr ((mem_points_transferAll knows block.instructions point var).2 ?_)
    exact written.imp_right fun ⟨earlier, kept⟩ => ⟨ih at_source earlier, kept⟩

theorem mem_points_iff (entry : f.blocks.contains entryName = true) {name : String} {s : DefMap}
    (found : (solve (.ofFunction p f)).pre[name]? = some s) (point : Point) (var : String) :
    point ∈ s.points var ↔ ∃ left, f.graph.Path entryName left name ∧
      LastWrote (.ofFunction p f) (f.executed left) point var :=
  ⟨(exists_path_of_mem_points entry _ name s found).2 point var,
    fun ⟨_, path, written⟩ => mem_points_of_path entry path found written⟩

theorem mem_points_within_iff (entry : f.blocks.contains entryName = true) {name : String}
    {s : DefMap} (found : (solve (.ofFunction p f)).pre[name]? = some s)
    (before : List Instruction) (point : Point) (var : String) :
    point ∈ DefMap.points ((analysis (.ofFunction p f)).transferAll before s) var ↔
      ∃ left, f.graph.Path entryName left name ∧
        LastWrote (.ofFunction p f) (f.executed left ++ before) point var := by
  have knows := (exists_path_of_mem_points entry _ name s found).1
  have reached : ∃ left, f.graph.Path entryName left name :=
    ((solved (.ofFunction p f) entry).mem_pre name).1 ((mem_map_iff _ name).2 ⟨s, found⟩)
  simp only [mem_points_transferAll knows, mem_points_iff entry found, lastWrote_append]
  constructor
  · rintro (written | ⟨⟨left, path, written⟩, kept⟩)
    · obtain ⟨left, path⟩ := reached
      exact ⟨left, path, .inl written⟩
    · exact ⟨left, path, .inr ⟨written, kept⟩⟩
  · rintro ⟨left, path, written | ⟨written, kept⟩⟩
    · exact .inl written
    · exact .inr ⟨⟨left, path, written⟩, kept⟩

end

/-! ### What an instruction reads -/

/-- The names whose definitions count as read by an instruction. -/
inductive Reads (ctx : Context) (inst : Instruction) (var : String) : Prop where
  | named : var ∈ inst.uses → Reads ctx inst var
  /-- A load reads whatever a pointer to the type of its destination may point at. -/
  | loaded {block : String} {index : Nat} {dst src : String} {ty : Ty} :
      inst = .op block index (.load dst src) → ctx.typeOf? dst = some ty →
      var ∈ ctx.aliases.mayPointTo ty → Reads ctx inst var
  | loadedUndeclared {block : String} {index : Nat} {dst src : String} {ty : Ty} :
      inst = .op block index (.load dst src) → ctx.typeOf? dst = none →
      ctx.typeOf? src = some (.pointer ty) → var ∈ ctx.aliases.mayPointTo ty → Reads ctx inst var
  /-- Taking an address counts the name that it is taken into. -/
  | addressOf {block : String} {index : Nat} {src : String} :
      inst = .op block index (.addrOf var src) → Reads ctx inst var

theorem mem_readNames_load (ctx : Context) (block : String) (index : Nat) (dst src var : String) :
    var ∈ readNames ctx (.op block index (.load dst src)) ↔
      var ∈ Op.uses (.load dst src) ∨
        ∃ ty, ctx.loadType? dst src = some ty ∧ var ∈ ctx.aliases.mayPointTo ty := by
  simp only [readNames, List.mem_append, Instruction.uses]
  cases ctx.loadType? dst src <;> simp [Std.ExtTreeSet.mem_toList]

theorem mem_readNames (ctx : Context) (inst : Instruction) (var : String) :
    var ∈ readNames ctx inst ↔ Reads ctx inst var := by
  constructor
  · intro member
    cases inst with
    | term _ _ => exact .named (by simpa [readNames] using member)
    | op block index operation =>
      cases operation with
      | load dst src =>
        rcases (mem_readNames_load ctx block index dst src var).1 member with
          named | ⟨ty, type, pointed⟩
        · exact .named named
        · rw [Context.loadType?] at type
          cases declared : ctx.typeOf? dst with
          | some dst_ty =>
            rw [declared] at type
            exact .loaded rfl (declared.trans type) pointed
          | none =>
            rw [declared, Option.none_or, Context.pointeeOf?] at type
            obtain ⟨src_ty, src_declared, pointee⟩ := Option.bind_eq_some_iff.1 type
            cases src_ty with
            | pointer inner =>
              obtain rfl := Option.some.inj pointee
              exact .loadedUndeclared rfl declared src_declared pointed
            | _ => simp [Ty.pointee?] at pointee
      | addrOf dst src =>
        obtain rfl : var = dst := by simpa [readNames, Instruction.uses, Op.uses] using member
        exact .addressOf rfl
      | _ => exact .named (by simpa [readNames] using member)
  · intro reads
    cases reads with
    | named used => exact List.mem_append_left _ used
    | loaded same declared pointed =>
      subst same
      refine (mem_readNames_load ctx _ _ _ _ var).2 (.inr ⟨_, ?_, pointed⟩)
      rw [Context.loadType?, declared, Option.some_or]
    | loadedUndeclared same undeclared declared pointed =>
      subst same
      refine (mem_readNames_load ctx _ _ _ _ var).2 (.inr ⟨_, ?_, pointed⟩)
      rw [Context.loadType?, undeclared, Option.none_or, Context.pointeeOf?, declared]
      rfl
    | addressOf same =>
      subst same
      simp [readNames]

theorem mem_usedPoints (ctx : Context) (inst : Instruction) (s : DefMap) (point : Point) :
    point ∈ usedPoints ctx inst s ↔ ∃ var, Reads ctx inst var ∧ point ∈ s.points var := by
  simp only [usedPoints, mem_ofList_set, List.mem_flatMap, Std.ExtTreeSet.mem_toList, mem_readNames]

/-! ### The whole result -/

theorem exists_record {p : Program} {f : Function} (entry : f.blocks.contains entryName = true)
    (wellFormed : f.WellFormed) {source : String} (reached : f.graph.Reaches source)
    {block : Block} (block_listed : f.blocks.get? source = some block)
    {before after : List Instruction} {inst : Instruction}
    (parts : block.instructions = before ++ inst :: after) :
    ∃ s : DefMap,
      (ReachingDefs.compute (.ofFunction p f)).before[inst.point]? = some s ∧
      (ReachingDefs.compute (.ofFunction p f)).solution[inst.point]? =
        some (usedPoints (.ofFunction p f) inst s) ∧
      ∀ point var, point ∈ s.points var ↔ ∃ left, f.graph.Path entryName left source ∧
        LastWrote (.ofFunction p f) (f.executed left ++ before) point var := by
  have solved := solved (.ofFunction p f) entry
  obtain ⟨state, found⟩ := (mem_map_iff _ source).1 ((solved.mem_pre source).2 reached)
  have record := @ReachingDefs.recordAt_compute (.ofFunction p f) wellFormed _ _ block_listed _ _ _
    parts _ found
  simp only [ReachingDefs.recordAt, Prod.mk.injEq] at record
  exact ⟨_, record.1, record.2.2, mem_points_within_iff entry found before⟩

/-- In a well-formed function of a program, the definitions of a name that reach a point are those
that some path to the point executes last, and the solution at a point joins those of the names
that are read there. -/
theorem mem_reaching_compute_iff {p : Program} {name : String} {f : Function}
    (listed : p.functions.get? name = some f) (entry : f.blocks.contains entryName = true)
    (wellFormed : f.WellFormed) :
    ∃ ctx, Context.build p name = .ok ctx ∧
      ∀ source block inst, f.graph.Reaches source → f.blocks.get? source = some block →
        inst ∈ block.instructions →
        (∀ var point, point ∈ (ReachingDefs.compute ctx).reaching inst.point var ↔
          ∃ trace, f.RunsTo trace inst.point ∧ LastWrote ctx trace point var) ∧
        ∃ points, (ReachingDefs.compute ctx).solution[inst.point]? = some points ∧
          ∀ point, point ∈ points ↔ ∃ var, Reads ctx inst var ∧
            point ∈ (ReachingDefs.compute ctx).reaching inst.point var := by
  refine ⟨.ofFunction p f, by simp [Context.build, listed, entry], ?_⟩
  intro source block inst reached block_listed member
  obtain ⟨before, after, parts⟩ := List.append_of_mem member
  obtain ⟨s, before_inst, solution, exact⟩ :=
    exists_record (p := p) entry wellFormed reached block_listed parts
  have reaching : ∀ var point,
      point ∈ (ReachingDefs.compute (.ofFunction p f)).reaching inst.point var ↔
        point ∈ s.points var := by
    intro var point
    rw [ReachingDefs.reaching, before_inst]
  refine ⟨fun var point => ?_, _, solution, fun point => ?_⟩
  · constructor
    · intro found
      obtain ⟨left, path, written⟩ := (exact point var).1 ((reaching var point).1 found)
      exact ⟨_, ⟨left, source, block, before, inst, after, path, block_listed, parts, rfl, rfl⟩,
        written⟩
    · rintro ⟨_, ⟨left, other, other_block, earlier, twin, later, path, other_listed, other_parts,
        same, rfl⟩, written⟩
      obtain ⟨t, before_twin, _, exact'⟩ :=
        exists_record (p := p) entry wellFormed ⟨left, path⟩ other_listed other_parts
      rw [same, before_inst] at before_twin
      obtain rfl := Option.some.inj before_twin
      exact (reaching var point).2 ((exact' point var).2 ⟨left, path, written⟩)
  · simp only [mem_usedPoints, reaching]

def countdown : Function where
  name := "test"
  params := []
  result := none
  locals := .ofList [("i", .int), ("p", .pointer .int)]
  blocks := .ofList [
    ("entry", ⟨"entry", [.op "entry" 0 (.addrOf "p" "i"), .term "entry" (.jump "loop")]⟩),
    ("loop", ⟨"loop", [.op "loop" 0 (.store "p" (.const 3)),
      .op "loop" 1 (.arith "i" .sub (.var "i") (.const 1)),
      .term "loop" (.branch (.var "i") "loop" "exit")]⟩),
    ("exit", ⟨"exit", [.term "exit" (.ret none)]⟩)]

/-- The counter that the store meets may come from the round before. -/
theorem mem_reaching_compute_iff_countdown :
    (Program.empty.define countdown).functions.get? "test" = some countdown ∧
    countdown.blocks.contains entryName = true ∧ countdown.WellFormed ∧
    ∃ ctx, Context.build (Program.empty.define countdown) "test" = .ok ctx ∧
      ∃ trace, countdown.RunsTo trace (.op "loop" 0) ∧
        LastWrote ctx trace (.op "loop" 1) "i" := by
  have listed : (Program.empty.define countdown).functions.get? "test" = some countdown := by
    decide +kernel
  have entry : countdown.blocks.contains entryName = true := by decide +kernel
  have wellFormed : countdown.WellFormed := by decide +kernel
  have edge : "loop" ∈ countdown.graph.successors entryName := by decide +kernel
  obtain ⟨ctx, built, exact⟩ := mem_reaching_compute_iff listed entry wellFormed
  have at_store := exact "loop" _ (.op "loop" 0 (.store "p" (.const 3)))
    (FlowGraph.Reaches.entry.step edge) rfl (by decide)
  refine ⟨listed, entry, wellFormed, ctx, built, (at_store.1 "i" (.op "loop" 1)).1 ?_⟩
  obtain rfl : Context.ofFunction (Program.empty.define countdown) countdown = ctx := by
    simpa [Context.build, listed, entry] using built
  decide +kernel

def takesTwice : Function where
  name := "test"
  params := []
  result := none
  locals := .ofList [("x", .int), ("p", .pointer .int)]
  blocks := .ofList [("entry", ⟨"entry",
    [.op "entry" 0 (.addrOf "p" "x"), .op "entry" 1 (.addrOf "p" "x"), .term "entry" (.ret none)]⟩)]

/-- The names used and what a load of a declared type may meet are not all that counts as read:
the second address has the first one in its solution. -/
theorem solution_ne_uses_and_loaded :
    ¬ ∀ (p : Program) (name : String) (f : Function), p.functions.get? name = some f →
      f.blocks.contains entryName = true → f.WellFormed →
      ∀ source block inst, f.graph.Reaches source → f.blocks.get? source = some block →
        inst ∈ block.instructions →
        ∃ points, (ReachingDefs.compute (.ofFunction p f)).solution[inst.point]? = some points ∧
          ∀ point, point ∈ points ↔ ∃ var, (var ∈ inst.uses ∨
              ∃ block index dst src ty, inst = .op block index (.load dst src) ∧
                (Context.ofFunction p f).typeOf? dst = some ty ∧
                var ∈ (Context.ofFunction p f).aliases.mayPointTo ty) ∧
            point ∈ (ReachingDefs.compute (.ofFunction p f)).reaching inst.point var := by
  intro claimed
  obtain ⟨points, solution, exact⟩ := claimed (Program.empty.define takesTwice) "test" takesTwice
    (by decide +kernel) (by decide +kernel) (by decide +kernel) "entry" _
    (.op "entry" 1 (.addrOf "p" "x")) .entry rfl (by decide)
  have first : .op "entry" 0 ∈ points := by
    have held : ((ReachingDefs.compute (.ofFunction (Program.empty.define takesTwice)
        takesTwice)).solution[Point.op "entry" 1]?.getD ∅).contains (.op "entry" 0) = true := by
      decide +kernel
    rwa [show (.op "entry" 1 : Point) = (Instruction.op "entry" 1 (.addrOf "p" "x")).point from rfl,
      solution] at held
  obtain ⟨var, (used | ⟨_, _, _, _, _, load, _⟩), _⟩ := (exact _).1 first
  · exact absurd used List.not_mem_nil
  · simp at load

end Reaching

end Lir
