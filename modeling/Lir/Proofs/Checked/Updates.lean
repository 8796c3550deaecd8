import Lir.Proofs.Checked.Search
import Lir.Proofs.Memory.Partition
import Lir.Proofs.Reaching.Recorded

/-!
Reaching definitions with every name checked that may be written through memory.

A weak update of a name that the state does not know would be lost. Here it is a fault instead, and
none is met: what a store or a call may write is in the table of variables, every variable is known
at the start, and no instruction or join forgets a name.
-/

set_option autoImplicit false

namespace Lir

namespace Checked

/-- A name that may be written and has no definitions, not even an empty set of them. -/
structure UnknownName where
  name : String
  deriving DecidableEq

def weakUpdate (s : DefMap) (name : String) (point : Point) : Except UnknownName DefMap :=
  match s[name]? with
  | some points => .ok (s.insert name (points.insert point))
  | none => .error ⟨name⟩

def weakUpdateAll (s : DefMap) (names : NameSet) (point : Point) : Except UnknownName DefMap :=
  names.toList.foldlM (fun s name => weakUpdate s name point) s

/-- The effect of an instruction on definitions; only weak updates can fail. -/
def reachingTransfer (ctx : Context) : Instruction → DefMap → Except UnknownName DefMap
  | .op block index (.store dst value), s =>
    weakUpdateAll s (ctx.storeTargets dst value) (.op block index)
  | .op block index (.call site), s => do
    let point := Point.op block index
    let s ← weakUpdateAll s (ctx.aliases.clobbered point) point
    match site.dst with
    | some dst => .ok (s.strongUpdate dst point)
    | none => .ok s
  | inst, s => .ok (Reaching.transfer ctx inst s)

theorem weakUpdate_eq {s : DefMap} {name : String} (known : name ∈ s) (point : Point) :
    weakUpdate s name point = .ok (s.weakUpdate name point).1 := by
  obtain ⟨points, found⟩ := (mem_map_iff s name).1 known
  simp only [weakUpdate, DefMap.weakUpdate, found]

theorem weakUpdateAll_eq {s : DefMap} {names : NameSet} (known : ∀ name ∈ names, name ∈ s)
    (point : Point) : weakUpdateAll s names point = .ok (s.weakUpdateAll names point) := by
  -- A weak update forgets no name, so those that come later are still known.
  refine (foldlM_ok_of_invariant (motive := fun s : DefMap => ∀ name ∈ names, name ∈ s) known
    fun name member s known => ⟨?_, ?_⟩).1
  · exact weakUpdate_eq (known name (Std.ExtTreeSet.mem_toList.1 member)) point
  · intro other other_member
    obtain ⟨points, found⟩ := (mem_map_iff s other).1 (known other other_member)
    rw [mem_map_iff, DefMap.getElem?_weakUpdate, found]
    split <;> exact ⟨_, rfl⟩

theorem reachingTransfer_eq {ctx : Context} {inst : Instruction} {s : DefMap}
    (known : ∀ name ∈ Reaching.mayWrite ctx inst, name ∈ s) :
    reachingTransfer ctx inst s = .ok (Reaching.transfer ctx inst s) := by
  cases inst with
  | term _ _ => rfl
  | op block index operation =>
    cases operation with
    | store dst value => exact weakUpdateAll_eq known _
    | call site =>
      have updated := weakUpdateAll_eq known (.op block index)
      simp only [Reaching.mayWrite] at updated
      rw [reachingTransfer, updated, ok_bind, Reaching.transfer]
      cases site.dst <;> rfl
    | _ => rfl

theorem reachingTransferAll_eq {p : Program} {f : Function} {s : DefMap}
    (knows : Reaching.KnowsVars (.ofFunction p f) s) (instructions : List Instruction) :
    instructions.foldlM (fun s inst => reachingTransfer (.ofFunction p f) inst s) s =
      .ok ((Reaching.analysis (.ofFunction p f)).transferAll instructions s) := by
  refine (foldlM_ok_of_invariant (motive := Reaching.KnowsVars (.ofFunction p f)) knows
    fun inst _ s knows => ⟨?_, knows.transfer inst⟩).1
  exact reachingTransfer_eq fun name member => knows name (Reaching.mem_vars_of_mem_mayWrite member)

end Checked

namespace Reaching

variable {p : Program} {f : Function}

/-- Every state that a block has at its start, at any time of the search, knows the variables. -/
theorem knowsVars_searchSteps (entry : f.blocks.contains entryName = true) (steps : Nat)
    (name : String) (state : DefMap)
    (found : ((analysis (.ofFunction p f)).searchSteps f steps
      (analysis (.ofFunction p f)).initial).found.pre[name]? = some state) :
    KnowsVars (.ofFunction p f) state := by
  refine Analysis.searchSteps_pre_induction (motive := fun _ => KnowsVars (.ofFunction p f)) entry
    (knowsVars_start _) ?_ ?_ steps name state found
  · exact fun _ block _ _ _ _ _ knows => knows.transferAll block.instructions
  · exact fun _ _ t knows _ => knows.join t

/-- The name has definitions, if only an empty set of them, in the states at both ends of every
reachable block and around each of its instructions. -/
structure KnownThroughout (ctx : Context) (name : String) : Prop where
  pre : ∀ source, ctx.function.graph.Reaches source →
    ∃ s : DefMap, (ReachingDefs.compute ctx).fixpoint.pre[source]? = some s ∧ name ∈ s
  post : ∀ source, ctx.function.graph.Reaches source →
    ∃ s : DefMap, (ReachingDefs.compute ctx).fixpoint.post[source]? = some s ∧ name ∈ s
  before : ∀ source block, ctx.function.graph.Reaches source →
    ctx.function.blocks.get? source = some block → ∀ inst ∈ block.instructions,
      ∃ s : DefMap, (ReachingDefs.compute ctx).before[inst.point]? = some s ∧ name ∈ s
  after : ∀ source block, ctx.function.graph.Reaches source →
    ctx.function.blocks.get? source = some block → ∀ inst ∈ block.instructions,
      ∃ s : DefMap, (ReachingDefs.compute ctx).after[inst.point]? = some s ∧ name ∈ s

theorem knownThroughout_of_variable (entry : f.blocks.contains entryName = true) {name : String}
    (declared : name ∈ (Context.ofFunction p f).vars.keys) :
    KnownThroughout (.ofFunction p f) name := by
  have solved := solved (.ofFunction p f) entry
  have fixpoint : (ReachingDefs.compute (.ofFunction p f)).fixpoint = solve (.ofFunction p f) :=
    ReachingDefs.foldl_recordBlock_fixpoint _ _
  have knows : ∀ (source : String) (s : DefMap),
      (solve (.ofFunction p f)).pre[source]? = some s → KnowsVars (.ofFunction p f) s :=
    knowsVars_searchSteps entry _
  have recorded : ∀ source block, f.graph.Reaches source → f.blocks.get? source = some block →
      ∀ inst ∈ block.instructions, ∃ before after : DefMap,
        (ReachingDefs.compute (.ofFunction p f)).before[inst.point]? = some before ∧
        (ReachingDefs.compute (.ofFunction p f)).after[inst.point]? = some after ∧
        name ∈ before ∧ name ∈ after := by
    intro source block reached listed inst member
    have record : ReachingDefs.IsRecord (.ofFunction p f) inst.point
        (ReachingDefs.recordAt (ReachingDefs.compute (.ofFunction p f)) inst.point) :=
      ReachingDefs.isRecord_compute listed ((solved.mem_pre source).2 reached)
        (List.mem_map_of_mem member)
    obtain ⟨other, _, earlier, twin, _, state, _, _, found, _, same⟩ := record
    simp only [ReachingDefs.recordAt, Prod.mk.injEq] at same
    have known := (knows other state found).transferAll earlier
    exact ⟨_, _, same.1, same.2.1, known name declared, known.transfer twin name declared⟩
  refine ⟨fun source reached => ?_, fun source reached => ?_, ?_, ?_⟩
  · obtain ⟨s, found⟩ := (mem_map_iff _ source).1 ((solved.mem_pre source).2 reached)
    exact ⟨s, fixpoint ▸ found, knows source s found name declared⟩
  · obtain ⟨s, found⟩ := (mem_map_iff _ source).1 ((solved.mem_pre source).2 reached)
    obtain ⟨block, listed⟩ := Function.exists_block entry reached
    exact ⟨_, fixpoint ▸ solved.block source block s listed found,
      (knows source s found).transferAll block.instructions name declared⟩
  · intro source block reached listed inst member
    obtain ⟨s, _, found, _, known, _⟩ := recorded source block reached listed inst member
    exact ⟨s, found, known⟩
  · intro source block reached listed inst member
    obtain ⟨_, s, _, found, _, known⟩ := recorded source block reached listed inst member
    exact ⟨s, found, known⟩

/-- What a store or a call may write through memory is a variable and known in every state of the
analysis. So whenever a block is run, in the search or for the records, no weak update meets a name
that its state does not know. -/
theorem weak_updates_known {p : Program} {name : String} {f : Function}
    (listed : p.functions.get? name = some f) (entry : f.blocks.contains entryName = true) :
    ∃ ctx, Context.build p name = .ok ctx ∧
      (∀ inst ∈ f.instructions, ∀ written ∈ mayWrite ctx inst,
        written ∈ ctx.vars.keys ∧ KnownThroughout ctx written) ∧
      ∀ steps source block (state : DefMap),
        ((analysis ctx).searchSteps f steps (analysis ctx).initial).found.pre[source]? =
          some state →
        f.blocks.get? source = some block →
        block.instructions.foldlM (fun s inst => Checked.reachingTransfer ctx inst s) state =
          .ok ((analysis ctx).transferBlock block state) := by
  refine ⟨.ofFunction p f, Context.build_eq_ok listed entry, ?_, ?_⟩
  · intro inst _ written member
    have declared := mem_vars_of_mem_mayWrite member
    exact ⟨declared, knownThroughout_of_variable entry declared⟩
  · intro steps source block state found _
    exact Checked.reachingTransferAll_eq (knowsVars_searchSteps entry steps source state found)
      block.instructions

/-- The cell that a store writes is known although a declared variable took its name. -/
theorem weak_updates_known_declaresCellName :
    ∃ f ctx, (Program.load Context.declaresCellName).1.functions.get? "test" = some f ∧
      f.blocks.contains entryName = true ∧
      Context.build (Program.load Context.declaresCellName).1 "test" = .ok ctx ∧
      "fake_int" ∈ mayWrite ctx (.op "entry" 0 (.store "p" (.const 1))) ∧
      KnownThroughout ctx "fake_int" ∧
      ∃ block state, f.blocks.get? entryName = some block ∧
        block.instructions.foldlM (fun s inst => Checked.reachingTransfer ctx inst s) state =
          .ok ((analysis ctx).transferBlock block state) := by
  let p := (Program.load Context.declaresCellName).1
  have evaluated : ∃ f ∈ p.functions.get? "test", f.blocks.contains entryName = true ∧
      .op "entry" 0 (.store "p" (.const 1)) ∈ f.instructions ∧
      "fake_int" ∈ mayWrite (.ofFunction p f) (.op "entry" 0 (.store "p" (.const 1))) := by
    decide +kernel
  obtain ⟨f, listed, entry, store, written⟩ := evaluated
  obtain ⟨ctx, built, known, runs⟩ := weak_updates_known listed entry
  obtain rfl := Except.ok.inj (built.symm.trans (Context.build_eq_ok listed entry))
  obtain ⟨block, entry_listed⟩ := (Table.contains_eq_true_iff _ _).1 entry
  have started : ((analysis (.ofFunction p f)).searchSteps f 0
      (analysis (.ofFunction p f)).initial).found.pre[entryName]? =
        some (start (.ofFunction p f)) := Std.ExtTreeMap.getElem?_insert_self
  exact ⟨f, _, listed, entry, built, written, (known _ store _ written).2, block, _, entry_listed,
    runs 0 entryName block _ started entry_listed⟩

end Reaching

end Lir
