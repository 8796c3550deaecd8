import Lir.Proofs.Flow.Alike
import Lir.Proofs.Reaching.Indirect
import Lir.Proofs.Stable
import Lir.Request

/-!
The names in the results of analyses.

Dominators and frontiers name blocks of the graph, the solution of reaching definitions names points
of the function, and the constants name its blocks and what they mention. In a function that a
source can spell all of these are identifiers.
-/

set_option autoImplicit false

namespace Lir

namespace Dominance

variable {g : FlowGraph}

theorem contains_of_mem_dominators (closed : g.Closed) {block : String}
    (known : block ∈ (build g).dominators) : g.contains block = true := by
  by_cases entry : g.contains entryName = true
  · exact (mem_dominators_build closed entry block).1 known
  · obtain ⟨set, found⟩ := (mem_map_iff _ _).1 known
    simp only [build, completeSets, getElem?_foldl_insertIfNew,
      reversePostorder_without_entry entry] at found
    have none_refined : (reachableSets g [])[block]? = none := Std.ExtTreeMap.getElem?_empty
    rw [none_refined, Option.none_or] at found
    split at found
    next listed => exact (g.mem_blocks block).1 listed
    next => simp at found

theorem contains_of_mem_setAt_dominators (closed : g.Closed) {block member : String}
    (known : block ∈ (build g).dominators) (inside : member ∈ setAt (build g).dominators block) :
    g.contains member = true := by
  have present := contains_of_mem_dominators closed known
  by_cases reached : g.Reaches block
  · have entry : g.contains entryName = true := by
      by_contra absent
      exact absent (reached.eq_entry absent ▸ present)
    have dominates := (mem_setAt_dominators closed entry reached member).1 inside
    exact (reached.dominator dominates).contains closed entry
  · rw [setAt_dominators_of_unreached closed present reached, mem_singleton_set] at inside
    exact inside ▸ present

theorem contains_of_mem_setAt_frontiers (closed : g.Closed) {block member : String}
    (inside : member ∈ setAt (build g).frontiers block) : g.contains member = true := by
  obtain ⟨pred, _, edge, _⟩ := (mem_frontiers_iff closed block member).1 inside
  exact closed pred member edge

end Dominance

namespace Function.Writable

variable {f : Function}

theorem isIdentifier_block (writable : f.Writable) {name : String}
    (present : f.blocks.contains name = true) : isIdentifier name := by
  obtain ⟨block, listed⟩ := (f.blocks.contains_eq_true_iff name).1 present
  obtain ⟨named, spelled⟩ := writable.blocks.get? listed
  exact named ▸ spelled.identifier

theorem isIdentifier_point (writable : f.Writable) {inst : Instruction}
    (member : inst ∈ f.instructions) : isIdentifier inst.point.block := by
  obtain ⟨name, block, listed, inside⟩ := (f.mem_instructions inst).1 member
  rw [writable.wellFormed.block_point listed inside]
  exact writable.isIdentifier_block ((f.blocks.contains_eq_true_iff name).2 ⟨block, listed⟩)

end Function.Writable

theorem Instruction.mentions_subset_names (inst : Instruction) : inst.mentions ⊆ inst.names := by
  intro name member
  cases inst with
  | term block terminator =>
    have read : name ∈ terminator.uses := by simpa [mentions, def?, uses] using member
    cases terminator with
    | jump target => exact absurd read List.not_mem_nil
    | branch cond thenBlock elseBlock => exact List.mem_append_left _ read
    | ret value => exact read
  | op block index operation =>
    cases operation with
    | call site =>
      obtain ⟨dst, kind, callee, args, next⟩ := site
      have parts : name ∈ dst.toList ∨ name ∈ Op.uses (.call ⟨dst, kind, callee, args, next⟩) := by
        simpa [mentions, def?, uses, Op.def?] using member
      simp only [names, Op.names, List.mem_append, List.mem_cons]
      rcases parts with assigned | read
      · exact .inl assigned
      · cases kind with
        | indirect => exact .inr ((List.mem_cons.1 read).imp_right .inl)
        | external => exact .inr (.inr (.inl read))
        | direct => exact .inr (.inr (.inl read))
    | _ =>
      simp only [mentions, names, def?, uses, Op.def?, Op.uses, Op.names] at member ⊢
      grind

def SpelledSets (sets : NameMap NameSet) : Prop :=
  ∀ (block : String) (set : NameSet), sets[block]? = some set →
    isIdentifier block ∧ ∀ member ∈ set, isIdentifier member

theorem spelledSets_of_contains {f : Function} (writable : f.Writable) {sets : NameMap NameSet}
    (keys : ∀ block ∈ sets, f.graph.contains block = true)
    (members : ∀ block ∈ sets, ∀ member ∈ Dominance.setAt sets block,
      f.graph.contains member = true) :
    SpelledSets sets := by
  have spelled : ∀ name, f.graph.contains name = true → isIdentifier name := fun name present =>
    writable.isIdentifier_block ((f.contains_graph name).symm.trans present)
  intro block set found
  have known := (mem_map_iff _ _).2 ⟨set, found⟩
  refine ⟨spelled block (keys block known), fun member inside => spelled member ?_⟩
  apply members block known
  rwa [Dominance.setAt, found]

theorem spelledSets_dominators {f : Function} (writable : f.Writable) :
    SpelledSets (Dominance.build f.graph).dominators :=
  spelledSets_of_contains writable
    (fun _ => Dominance.contains_of_mem_dominators f.closed_graph)
    fun _ known _ => Dominance.contains_of_mem_setAt_dominators f.closed_graph known

theorem spelledSets_frontiers {f : Function} (writable : f.Writable) :
    SpelledSets (Dominance.build f.graph).frontiers :=
  spelledSets_of_contains writable (fun block => (Dominance.mem_frontiers_build f.graph block).1)
    fun _ _ _ => Dominance.contains_of_mem_setAt_frontiers f.closed_graph

def SpelledSolution (solution : PointMap PointSet) : Prop :=
  ∀ (point : Point) (points : PointSet), solution[point]? = some points →
    isIdentifier point.block ∧ ∀ definition ∈ points, isIdentifier definition.block

theorem spelledSolution_compute {p : Program} {f : Function} (writable : f.Writable)
    (entry : f.blocks.contains entryName = true) :
    SpelledSolution (ReachingDefs.compute (.ofFunction p f)).solution := by
  intro point points found
  -- A point without an instruction in a reached block is not recorded.
  obtain ⟨name, block, listed, reached, member⟩ : ∃ name block, f.blocks.get? name = some block ∧
      name ∈ (Reaching.solve (.ofFunction p f)).pre ∧
      point ∈ block.instructions.map Instruction.point := by
    by_contra! absent
    have unrecorded : (ReachingDefs.compute (.ofFunction p f)).recordAt point =
        (none, none, none) :=
      ReachingDefs.recordAt_compute_of_notMem absent
    simp [ReachingDefs.recordAt, found] at unrecorded
  obtain ⟨inst, inside, rfl⟩ := List.mem_map.1 member
  obtain ⟨before, after, parts⟩ := List.append_of_mem inside
  have in_function := (f.mem_instructions inst).2 ⟨name, block, listed, inside⟩
  refine ⟨writable.isIdentifier_point in_function, fun definition read => ?_⟩
  obtain ⟨s, _, solution, exact_points⟩ := Reaching.exists_record (p := p) entry
    writable.wellFormed (((Reaching.solved _ entry).mem_pre name).1 reached) listed parts
  obtain rfl := Option.some.inj (found.symm.trans solution)
  obtain ⟨var, _, reaching⟩ := (Reaching.mem_usedPoints _ _ _ _).1 read
  obtain ⟨left, _, earlier, writer, later, trace, rfl, _⟩ :=
    (exact_points definition var).1 reaching
  apply writable.isIdentifier_point
  apply Function.mem_instructions_of_executed listed parts
  rw [trace]
  exact List.mem_append_right _ List.mem_cons_self

structure SpelledConstants (rows : List (String × List (String × FlatInt))) : Prop where
  blocks : ∀ row ∈ rows, isIdentifier row.1
  blocks_sorted : rows.Pairwise fun row other => row.1 < other.1
  names : ∀ row ∈ rows, ∀ value ∈ row.2, isIdentifier value.1
  names_sorted : ∀ row ∈ rows, row.2.Pairwise fun value other => value.1 < other.1

theorem lt_of_compare {name other : String} (less : compare name other = .lt) : name < other :=
  compareOfLessAndEq_eq_lt.1 less

theorem pairwise_lt_toList (names : NameSet) : names.toList.Pairwise (· < ·) :=
  Std.ExtTreeSet.ordered_toList.imp lt_of_compare

theorem pairwise_fst_lt_toList {α : Type} (m : NameMap α) :
    m.toList.Pairwise fun entry other => entry.1 < other.1 :=
  Std.ExtTreeMap.ordered_keys_toList.imp lt_of_compare

theorem map_fst_knownValues (block : Block) (state : ConstEnv) :
    ((Constants.knownValues block state).map Prod.fst).Sublist
      (Constants.mentioned block).toList := by
  rw [Constants.knownValues]
  generalize (Constants.mentioned block).toList = names
  induction names with
  | nil => exact .slnil
  | cons name names ih =>
    cases found : (state[name]? : Option FlatInt) with
    | none => simpa [found] using ih.cons name
    | some value =>
      cases value with
      | bottom => simpa [found] using ih.cons name
      | top => simpa [found] using ih
      | const => simpa [found] using ih

theorem pairwise_lt_knownValues (block : Block) (state : ConstEnv) :
    (Constants.knownValues block state).Pairwise fun value other => value.1 < other.1 :=
  List.pairwise_map.1 ((pairwise_lt_toList _).sublist (map_fst_knownValues block state))

theorem isIdentifier_of_mem_knownValues {block : Block} (writable : block.Writable)
    {state : ConstEnv} {value : String × FlatInt}
    (known : value ∈ Constants.knownValues block state) : isIdentifier value.1 := by
  have mentioned := (map_fst_knownValues block state).subset (List.mem_map_of_mem known)
  rw [Std.ExtTreeSet.mem_toList, Constants.mentioned, NameSet.mem_ofNames, List.mem_flatMap]
    at mentioned
  obtain ⟨inst, inside, mentions⟩ := mentioned
  exact writable.instructions inst inside value.1 (inst.mentions_subset_names mentions)

theorem spelledConstants_endValues {p : Program} {f : Function} (writable : f.Writable)
    (entry : f.blocks.contains entryName = true) :
    SpelledConstants
      (Constants.endValues (.ofFunction p f) (Constants.solve (.ofFunction p f))) := by
  have row_of : ∀ row ∈ Constants.endValues (.ofFunction p f) (Constants.solve (.ofFunction p f)),
      ∃ block state, f.blocks.get? row.1 = some block ∧
        row.2 = Constants.knownValues block state := by
    intro row member
    obtain ⟨⟨name, state⟩, listed, rfl⟩ := List.mem_map.1 member
    have at_end := Std.ExtTreeMap.mem_toList_iff_getElem?_eq_some.1 listed
    have reached := ((Constants.solved p entry).mem_post name).1 ((mem_map_iff _ _).2 ⟨_, at_end⟩)
    obtain ⟨block, block_listed⟩ := Function.exists_block entry reached
    exact ⟨block, state, block_listed, by simp [Context.ofFunction, block_listed]⟩
  constructor
  · intro row member
    obtain ⟨block, _, listed, _⟩ := row_of row member
    exact writable.isIdentifier_block ((f.blocks.contains_eq_true_iff _).2 ⟨block, listed⟩)
  · exact List.pairwise_map.2 (pairwise_fst_lt_toList _)
  · intro row member value known
    obtain ⟨block, state, listed, same⟩ := row_of row member
    exact isIdentifier_of_mem_knownValues (writable.blocks.get? listed).2 (same ▸ known)
  · intro row member
    obtain ⟨block, state, _, same⟩ := row_of row member
    rw [same]
    exact pairwise_lt_knownValues block state

end Lir
