import Lir.Flow.Dominance
import Lir.Proofs.Counting
import Lir.Proofs.Flow.Walk

/-!
Dominator sets are exact: a block is in the set of a reachable block if and only if every path
from the entry goes through it.

Refinement starts above the dominators and never drops one, so what it ends with holds them all.
Where it ends, a set holds nothing but its block and what all its predecessors share, which is on
every path.
-/

set_option autoImplicit false

namespace Lir

namespace FlowGraph

/-- Every path from the entry to the second block goes through the first. -/
def Dominates (g : FlowGraph) (block target : String) : Prop :=
  ∀ left, g.Path entryName left target → block ∈ left ++ [target]

variable {g : FlowGraph}

theorem Reaches.dominator {block target : String} (reached : g.Reaches target)
    (dominates : g.Dominates block target) : g.Reaches block := by
  obtain ⟨left, path⟩ := reached
  have along := dominates left path
  clear dominates
  induction path with
  | start =>
    obtain rfl : block = entryName := by simpa using along
    exact .entry
  | @step left middle target path edge ih =>
    rcases List.mem_append.1 along with before | last
    · exact ih before
    · obtain rfl := List.mem_singleton.1 last
      exact Reaches.step ⟨left, path⟩ edge

theorem Dominates.predecessor {block source target : String}
    (dominates : g.Dominates block target) (different : block ≠ target)
    (edge : target ∈ g.successors source) : g.Dominates block source := by
  intro left path
  have along := dominates _ (path.step edge)
  simpa [different] using along

theorem Reaches.exists_predecessor {block : String} (reached : g.Reaches block)
    (later : block ≠ entryName) : ∃ source, g.Reaches source ∧ block ∈ g.successors source := by
  obtain ⟨left, path⟩ := reached
  cases path with
  | start => exact absurd rfl later
  | step path edge => exact ⟨_, ⟨_, path⟩, edge⟩

end FlowGraph

namespace Dominance

variable {g : FlowGraph}

theorem mem_foldl_inter (sets : List NameSet) (first : NameSet) (member : String) :
    member ∈ sets.foldl (· ∩ ·) first ↔ member ∈ first ∧ ∀ set ∈ sets, member ∈ set := by
  induction sets generalizing first with
  | nil => simp
  | cons set rest ih =>
    rw [List.foldl_cons, ih, Std.ExtTreeSet.mem_inter_iff, List.forall_mem_cons, and_assoc]

theorem mem_meet {sets : List NameSet} (some_set : sets ≠ []) (member : String) :
    member ∈ meet sets ↔ ∀ set ∈ sets, member ∈ set := by
  match sets with
  | [] => exact absurd rfl some_set
  | first :: rest => rw [meet, mem_foldl_inter, List.forall_mem_cons]

def setAt (sets : NameMap NameSet) (block : String) : NameSet := sets[block]?.getD ∅

theorem setAt_insert (sets : NameMap NameSet) (block other : String) (set : NameSet) :
    setAt (sets.insert block set) other = if block = other then set else setAt sets other := by
  rw [setAt, getElem?_insert_map]
  split <;> rfl

theorem mem_refineBlock {sets : NameMap NameSet} {block source : String}
    (edge : block ∈ g.successors source) (known : source ∈ sets) (member : String) :
    member ∈ refineBlock g sets block ↔
      member = block ∨ ∀ pred, block ∈ g.successors pred → pred ∈ sets →
        member ∈ setAt sets pred := by
  have listed : ∀ set, set ∈ (g.predecessors block).filterMap (fun pred => sets[pred]?) ↔
      ∃ pred, block ∈ g.successors pred ∧ pred ∈ sets ∧ set = setAt sets pred := by
    intro set
    simp only [List.mem_filterMap, g.mem_predecessors, mem_map_iff, setAt]
    refine exists_congr fun pred => and_congr_right fun _ => ?_
    cases sets[pred]? <;> simp [eq_comm]
  have some_set : (g.predecessors block).filterMap (fun pred => sets[pred]?) ≠ [] :=
    List.ne_nil_of_mem ((listed _).2 ⟨source, edge, known, rfl⟩)
  rw [refineBlock, mem_insert_set, mem_meet some_set]
  refine or_congr_right ⟨?_, ?_⟩
  · exact fun all pred edge known => all _ ((listed _).2 ⟨pred, edge, known, rfl⟩)
  · intro all set member
    obtain ⟨pred, edge, known, rfl⟩ := (listed set).1 member
    exact all pred edge known

/-! ### What refinement keeps -/

/-- Sets on their way down from all reachable blocks to the dominators. -/
structure Refining (g : FlowGraph) (sets : NameMap NameSet) : Prop where
  known : ∀ block, block ∈ sets ↔ g.Reaches block
  entry : setAt sets entryName = {entryName}
  within : ∀ block, ∀ member ∈ setAt sets block, g.Reaches member
  above : ∀ block, g.Reaches block → ∀ member, g.Dominates member block → member ∈ setAt sets block
  shrinks : ∀ block, g.Reaches block → block ≠ entryName →
    ∀ member ∈ refineBlock g sets block, member ∈ setAt sets block

theorem Refining.mem_refineBlock {sets : NameMap NameSet} (refining : Refining g sets)
    {block : String} (reached : g.Reaches block) (later : block ≠ entryName) (member : String) :
    member ∈ refineBlock g sets block ↔
      member = block ∨ ∀ pred, block ∈ g.successors pred → g.Reaches pred →
        member ∈ setAt sets pred := by
  obtain ⟨source, source_reached, edge⟩ := reached.exists_predecessor later
  simpa only [refining.known] using
    Dominance.mem_refineBlock edge ((refining.known source).2 source_reached) member

/-- Putting the refined set in place of a block's set keeps the invariant. -/
theorem Refining.insert {sets : NameMap NameSet} (refining : Refining g sets) {block : String}
    (reached : g.Reaches block) (later : block ≠ entryName) :
    Refining g (sets.insert block (refineBlock g sets block)) := by
  have known : ∀ other, other ∈ sets.insert block (refineBlock g sets block) ↔ g.Reaches other := by
    intro other
    rw [Std.ExtTreeMap.mem_insert, Std.compare_eq_iff_eq, refining.known]
    exact or_iff_right_of_imp fun same => same ▸ reached
  have smaller : ∀ other, ∀ member ∈ setAt (sets.insert block (refineBlock g sets block)) other,
      member ∈ setAt sets other := by
    intro other member inSet
    rw [setAt_insert] at inSet
    split at inSet
    next same => exact same ▸ refining.shrinks block reached later member inSet
    next => exact inSet
  -- Smaller sets leave less that all predecessors share.
  have monotone : ∀ other, g.Reaches other → other ≠ entryName →
      ∀ member ∈ refineBlock g (sets.insert block (refineBlock g sets block)) other,
        member ∈ refineBlock g sets other := by
    intro other other_reached other_later member shared
    obtain ⟨source, source_reached, edge⟩ := other_reached.exists_predecessor other_later
    rw [Dominance.mem_refineBlock edge ((known source).2 source_reached)] at shared
    rw [refining.mem_refineBlock other_reached other_later]
    exact shared.imp_right fun all pred edge pred_reached =>
      smaller pred member (all pred edge ((known pred).2 pred_reached))
  refine ⟨known, ?_, ?_, ?_, ?_⟩
  · rw [setAt_insert, if_neg later]
    exact refining.entry
  · exact fun other member inSet => refining.within other member (smaller other member inSet)
  · intro other other_reached member dominates
    rw [setAt_insert]
    split
    next same =>
      subst same
      refine (refining.mem_refineBlock reached later member).2 ?_
      by_cases same : member = block
      · exact .inl same
      · exact .inr fun pred edge pred_reached =>
          refining.above pred pred_reached member (dominates.predecessor same edge)
    next => exact refining.above other other_reached member dominates
  · intro other other_reached other_later member shared
    have shared := monotone other other_reached other_later member shared
    rw [setAt_insert]
    split
    next same => exact same ▸ shared
    next => exact refining.shrinks other other_reached other_later member shared

/-! ### Refinement stops -/

def total (order : List String) (sets : NameMap NameSet) : Nat :=
  (order.map fun block => countIn order (setAt sets block)).sum

/-- One block's turn: its set is already refined, or it gets smaller. -/
theorem Refining.refineInto_cases {order : List String} {sets : NameMap NameSet}
    (changed : Bool) (listed : ∀ block, block ∈ order ↔ g.Reaches block) (refining : Refining g sets)
    {block : String} (reached : g.Reaches block) (later : block ≠ entryName) :
    (refineInto g (sets, changed) block = (sets, changed) ∧
      setAt sets block = refineBlock g sets block) ∨
    (∃ smaller, refineInto g (sets, changed) block = (smaller, true) ∧ Refining g smaller ∧
      total order smaller < total order sets) := by
  by_cases same : sets[block]? = some (refineBlock g sets block)
  · exact .inl ⟨by simp [Dominance.refineInto, same], by simp [setAt, same]⟩
  · refine .inr ⟨_, by simp [Dominance.refineInto, same], refining.insert reached later, ?_⟩
    have shrinks := refining.shrinks block reached later
    obtain ⟨dropped, dropped_old, dropped_refined⟩ :
        ∃ member ∈ setAt sets block, member ∉ refineBlock g sets block := by
      by_contra none_dropped
      push Not at none_dropped
      obtain ⟨old, found⟩ := (mem_map_iff sets block).1 ((refining.known block).2 reached)
      have subset : ∀ member, member ∈ old ↔ member ∈ refineBlock g sets block := by
        intro member
        have at_block : setAt sets block = old := by simp [setAt, found]
        rw [← at_block]
        exact ⟨none_dropped member, shrinks member⟩
      exact same (found.trans (congrArg some (Std.ExtTreeSet.ext_mem subset)))
    apply List.sum_lt_sum
    · intro other _
      apply countIn_mono
      intro member inSet
      rw [setAt_insert] at inSet
      split at inSet
      next same => exact same ▸ shrinks member inSet
      next => exact inSet
    · refine ⟨block, (listed block).2 reached, ?_⟩
      rw [setAt_insert, if_pos rfl]
      exact countIn_lt shrinks ((listed dropped).2 (refining.within block dropped dropped_old))
        dropped_old dropped_refined

/-- A round that reports no change leaves every block of it refined; any other round makes the
sets smaller. -/
theorem Refining.foldl_refineInto {order : List String}
    (listed : ∀ block, block ∈ order ↔ g.Reaches block) {blocks : List String}
    (later : ∀ block ∈ blocks, g.Reaches block ∧ block ≠ entryName) {sets : NameMap NameSet}
    (changed : Bool) (refining : Refining g sets) :
    (blocks.foldl (refineInto g) (sets, changed) = (sets, changed) ∧
      ∀ block ∈ blocks, setAt sets block = refineBlock g sets block) ∨
    (∃ smaller, blocks.foldl (refineInto g) (sets, changed) = (smaller, true) ∧
      Refining g smaller ∧ total order smaller < total order sets) := by
  induction blocks generalizing sets changed with
  | nil => exact .inl ⟨rfl, by simp⟩
  | cons block rest ih =>
    obtain ⟨⟨reached, not_entry⟩, later⟩ := List.forall_mem_cons.1 later
    rw [List.foldl_cons]
    rcases refining.refineInto_cases changed listed reached not_entry with
      ⟨same, refined⟩ | ⟨smaller, changes, refining, less⟩
    · rw [same]
      exact (ih later changed refining).imp_left fun ⟨same, all⟩ =>
        ⟨same, List.forall_mem_cons.2 ⟨refined, all⟩⟩
    · rw [changes]
      rcases ih later true refining with ⟨same, _⟩ | ⟨smallest, changes, refining, less_again⟩
      · exact .inr ⟨smaller, same, refining, less⟩
      · exact .inr ⟨smallest, changes, refining, less_again.trans less⟩

/-- With more steps than there are members to lose, refinement ends in a round without change. -/
theorem Refining.refineSteps_ends {order later : List String}
    (listed : ∀ block, block ∈ order ↔ g.Reaches block)
    (after_entry : ∀ block ∈ later, g.Reaches block ∧ block ≠ entryName) {steps : Nat}
    {sets : NameMap NameSet} (refining : Refining g sets) (enough : total order sets < steps) :
    Refining g (refineSteps g later steps sets) ∧
      (refineRound g later (refineSteps g later steps sets)).2 = false ∧
      ∀ block ∈ later, setAt (refineSteps g later steps sets) block =
        refineBlock g (refineSteps g later steps sets) block := by
  induction steps generalizing sets with
  | zero => exact absurd enough (Nat.not_lt_zero _)
  | succ steps ih =>
    rcases refining.foldl_refineInto listed after_entry false with
      ⟨same, refined⟩ | ⟨smaller, changes, refining, less⟩
    · have stays : refineSteps g later (steps + 1) sets = sets := by
        simp [refineSteps, refineRound, same]
      rw [stays]
      exact ⟨refining, by simp [refineRound, same], refined⟩
    · have goes_on : refineSteps g later (steps + 1) sets = refineSteps g later steps smaller := by
        simp [refineSteps, refineRound, changes]
      rw [goes_on]
      exact ih refining (by omega)

theorem total_le (order : List String) (sets : NameMap NameSet) :
    total order sets ≤ order.length * order.length := by
  have bound := List.sum_le_card_nsmul
    (order.map fun block => countIn order (setAt sets block)) order.length (by
      intro count member
      obtain ⟨block, _, rfl⟩ := List.mem_map.1 member
      exact countIn_le_length order _)
  simpa [total] using bound

/-! ### From the initial sets to the result -/

theorem getElem?_initialSets (later : List String) (block : String)
    (fresh : entryName ∉ later) :
    (initialSets (entryName :: later))[block]? =
      if block = entryName then some {entryName}
      else if block ∈ later then some (.ofNames (entryName :: later)) else none := by
  have fill := @getElem?_foldl_entry NameSet
    (fun sets block => sets.insert block (.ofNames (entryName :: later)))
    (fun _ _ => some (.ofNames (entryName :: later))) (fun _ _ => rfl)
    (fun sets name other => getElem?_insert_map sets name other _)
  rw [initialSets, fill, getElem?_insert_map]
  by_cases same : block = entryName
  · subst same
    simp [fresh]
  · simp [same, Ne.symm same]

theorem refining_initialSets {later : List String} (fresh : entryName ∉ later)
    (listed : ∀ block, block ∈ entryName :: later ↔ g.Reaches block) :
    Refining g (initialSets (entryName :: later)) := by
  have at_entry : setAt (initialSets (entryName :: later)) entryName = {entryName} := by
    simp [setAt, getElem?_initialSets later entryName fresh]
  have at_later : ∀ block ∈ later,
      setAt (initialSets (entryName :: later)) block = .ofNames (entryName :: later) := by
    intro block member
    have different : block ≠ entryName := fun same => fresh (same ▸ member)
    simp [setAt, getElem?_initialSets later block fresh, different, member]
  have reached_later : ∀ block, g.Reaches block → block ≠ entryName → block ∈ later :=
    fun block reached different =>
      (List.mem_cons.1 ((listed block).2 reached)).resolve_left different
  have in_order : ∀ block, g.Reaches block → block ∈ NameSet.ofNames (entryName :: later) :=
    fun block reached => (NameSet.mem_ofNames _ _).2 ((listed block).2 reached)
  have within : ∀ block, ∀ member ∈ setAt (initialSets (entryName :: later)) block,
      g.Reaches member := by
    intro block member inSet
    rw [setAt, getElem?_initialSets later block fresh] at inSet
    split at inSet
    · exact (mem_singleton_set entryName member).1 inSet ▸ .entry
    · split at inSet
      · exact (listed member).1 ((NameSet.mem_ofNames _ _).1 inSet)
      · simp at inSet
  refine ⟨?_, at_entry, within, ?_, ?_⟩
  · intro block
    rw [mem_map_iff, getElem?_initialSets later block fresh, ← listed, List.mem_cons]
    by_cases same : block = entryName <;> by_cases member : block ∈ later <;> simp [same, member]
  · intro block reached member dominates
    by_cases same : block = entryName
    · subst same
      have here : member = entryName := by simpa using dominates [] .start
      simp [at_entry, here]
    · rw [at_later block (reached_later block reached same)]
      exact in_order member (reached.dominator dominates)
  · intro block reached different member shared
    rw [at_later block (reached_later block reached different)]
    obtain ⟨source, source_reached, edge⟩ := reached.exists_predecessor different
    have source_known : source ∈ initialSets (entryName :: later) := by
      rw [mem_map_iff, getElem?_initialSets later source fresh]
      have present := (listed source).2 source_reached
      by_cases same : source = entryName
      · simp [same]
      · simp [same, (List.mem_cons.1 present).resolve_left same]
    rcases (mem_refineBlock edge source_known member).1 shared with rfl | all
    · exact in_order member reached
    · exact in_order member (within source member (all source edge source_known))

theorem reachableSets_ends (closed : g.Closed) (entry : g.contains entryName = true) :
    Refining g (reachableSets g g.reversePostorder) ∧
      (refineRound g g.reversePostorder.tail (reachableSets g g.reversePostorder)).2 = false ∧
      ∀ block, g.Reaches block → block ≠ entryName →
        setAt (reachableSets g g.reversePostorder) block =
          refineBlock g (reachableSets g g.reversePostorder) block := by
  have listed := g.mem_reversePostorder closed entry
  obtain ⟨later, order, fresh⟩ := g.reversePostorder_eq_cons closed entry
  rw [order] at listed ⊢
  have after_entry : ∀ block ∈ later, g.Reaches block ∧ block ≠ entryName := fun block member =>
    ⟨(listed block).1 (List.mem_cons_of_mem _ member), fun same => fresh (same ▸ member)⟩
  obtain ⟨refining, stops, refined⟩ := (refining_initialSets fresh listed).refineSteps_ends listed
    after_entry (Nat.lt_succ_of_le (total_le (entryName :: later) _))
  refine ⟨refining, stops, fun block reached different => ?_⟩
  exact refined block ((List.mem_cons.1 ((listed block).2 reached)).resolve_left different)

/-- Where refinement has ended, a member of a block's set is on every path to the block. -/
theorem Refining.dominates {sets : NameMap NameSet} (refining : Refining g sets)
    (refined : ∀ block, g.Reaches block → block ≠ entryName →
      setAt sets block = refineBlock g sets block)
    {block member : String} (inSet : member ∈ setAt sets block) : g.Dominates member block := by
  intro left path
  induction path generalizing member with
  | start =>
    rw [refining.entry, mem_singleton_set] at inSet
    simp [inSet]
  | @step left source target path edge ih =>
    have reached : g.Reaches target := .step ⟨left, path⟩ edge
    by_cases at_entry : target = entryName
    · subst at_entry
      rw [refining.entry, mem_singleton_set] at inSet
      simp [inSet]
    · rw [refined target reached at_entry, refining.mem_refineBlock reached at_entry] at inSet
      rcases inSet with rfl | all
      · simp
      · exact List.mem_append_left _ (ih (all source edge ⟨left, path⟩))

theorem mem_setAt_reachableSets (closed : g.Closed) (entry : g.contains entryName = true)
    {block : String} (reached : g.Reaches block) (member : String) :
    member ∈ setAt (reachableSets g g.reversePostorder) block ↔ g.Dominates member block := by
  obtain ⟨refining, _, refined⟩ := reachableSets_ends closed entry
  exact ⟨refining.dominates refined, refining.above block reached member⟩

theorem getElem?_foldl_insertIfNew (blocks : List String) (sets : NameMap NameSet)
    (block : String) :
    (blocks.foldl (fun sets block => sets.insertIfNew block {block}) sets)[block]? =
      sets[block]?.or (if block ∈ blocks then some {block} else none) := by
  have twice : ∀ (name : String) (entry : Option NameSet),
      (entry.or (some {name})).or (some {name}) = entry.or (some {name}) := fun name entry => by
    cases entry <;> rfl
  have step_eq : ∀ (sets : NameMap NameSet) (name other : String),
      (sets.insertIfNew name {name})[other]? =
        if name = other then sets[other]?.or (some {name}) else sets[other]? := by
    intro sets name other
    simp only [Std.ExtTreeMap.getElem?_insertIfNew, Std.compare_eq_iff_eq]
    by_cases same : name = other
    · subst same
      cases found : sets[name]? <;> simp [mem_map_iff, found]
    · simp [same]
  rw [@getElem?_foldl_entry NameSet _ (fun name entry => entry.or (some {name})) twice step_eq]
  split <;> simp

theorem getElem?_dominators (g : FlowGraph) (block : String) (present : g.contains block = true) :
    (build g).dominators[block]? =
      some ((reachableSets g g.reversePostorder)[block]?.getD {block}) := by
  have listed : block ∈ g.blocks := (g.mem_blocks block).2 present
  simp only [build, completeSets, getElem?_foldl_insertIfNew, listed, if_true]
  cases (reachableSets g g.reversePostorder)[block]? <;> rfl

theorem dominates_iff_mem (g : FlowGraph) (block : String) (present : g.contains block = true)
    (other : String) : (build g).dominates other block = true ↔
      other ∈ (reachableSets g g.reversePostorder)[block]?.getD {block} := by
  simp [dominates, getElem?_dominators g block present]

theorem reversePostorder_without_entry (entry : ¬ g.contains entryName = true) :
    g.reversePostorder = [] := by
  simp [FlowGraph.reversePostorder, FlowGraph.walk, entry]

theorem refineRound_reachableSets (closed : g.Closed) :
    (refineRound g g.reversePostorder.tail (reachableSets g g.reversePostorder)).2 = false := by
  by_cases entry : g.contains entryName = true
  · exact (reachableSets_ends closed entry).2.1
  · rw [reversePostorder_without_entry entry]
    rfl

theorem mem_reachableSets (closed : g.Closed) {block : String} (present : g.contains block = true) :
    block ∈ reachableSets g g.reversePostorder ↔ g.Reaches block := by
  by_cases entry : g.contains entryName = true
  · exact (reachableSets_ends closed entry).1.known block
  · rw [reversePostorder_without_entry entry]
    refine iff_of_false Std.ExtTreeMap.not_mem_empty fun reached => ?_
    exact entry (reached.eq_entry entry ▸ present)

/-- Building the dominators of a function stops, and what they say is exact: a block dominates a
reachable one if and only if it is on every path there, and an unreachable one if and only if it is
that block. -/
theorem dominates_build_iff (f : Function) :
    f.graph.walk.stack = [] ∧
    (refineRound f.graph f.graph.reversePostorder.tail
      (reachableSets f.graph f.graph.reversePostorder)).2 = false ∧
    ∀ target, f.blocks.contains target = true → ∀ block,
      (f.graph.Reaches target →
        ((build f.graph).dominates block target = true ↔ f.graph.Dominates block target)) ∧
      (¬ f.graph.Reaches target →
        ((build f.graph).dominates block target = true ↔ block = target)) := by
  have closed := f.closed_graph
  refine ⟨FlowGraph.walk_ends closed, refineRound_reachableSets closed, ?_⟩
  intro target present block
  rw [← f.contains_graph] at present
  rw [dominates_iff_mem _ target present]
  have known := mem_reachableSets closed present
  rw [mem_map_iff] at known
  constructor
  · intro reached
    obtain ⟨set, found⟩ := known.2 reached
    have entry : f.graph.contains entryName = true := by
      by_contra absent
      exact absent (reached.eq_entry absent ▸ present)
    rw [← mem_setAt_reachableSets closed entry reached, setAt, found]
    rfl
  · intro unreached
    cases found : (reachableSets f.graph f.graph.reversePostorder)[target]? with
    | none => exact mem_singleton_set target block
    | some set => exact absurd (known.1 ⟨set, found⟩) unreached

/-- A loop with an exit, and a block that nothing leads to. -/
def loopWithExit : Function where
  name := "loop"
  params := []
  result := none
  locals := ∅
  blocks := .ofList [
    ("entry", ⟨"entry", [.term "entry" (.jump "header")]⟩),
    ("header", ⟨"header", [.term "header" (.branch (.var "c") "body" "exit")]⟩),
    ("body", ⟨"body", [.term "body" (.jump "header")]⟩),
    ("exit", ⟨"exit", [.term "exit" (.ret none)]⟩),
    ("dead", ⟨"dead", [.term "dead" (.jump "exit")]⟩)]

theorem reaches_loopWithExit_iff (block : String) :
    loopWithExit.graph.Reaches block ↔ block ∈ ["entry", "header", "exit", "body"] := by
  have order : loopWithExit.graph.reversePostorder = ["entry", "header", "exit", "body"] := by
    decide +kernel
  rw [← order]
  exact (FlowGraph.mem_reversePostorder loopWithExit.closed_graph (by decide) block).symm

theorem dominates_build_iff_loopWithExit :
    loopWithExit.blocks.contains "exit" = true ∧ loopWithExit.graph.Reaches "exit" ∧
    loopWithExit.graph.Dominates "header" "exit" ∧ ¬ loopWithExit.graph.Dominates "body" "exit" ∧
    loopWithExit.blocks.contains "dead" = true ∧ ¬ loopWithExit.graph.Reaches "dead" ∧
    (build loopWithExit.graph).dominates "dead" "dead" = true := by
  have listed := FlowGraph.mem_reversePostorder loopWithExit.closed_graph (by decide)
  have exit_reached : loopWithExit.graph.Reaches "exit" := (listed "exit").1 (by decide +kernel)
  have dead_unreached : ¬ loopWithExit.graph.Reaches "dead" := fun reached =>
    absurd ((listed "dead").2 reached) (by decide +kernel)
  have at_exit := (dominates_build_iff loopWithExit).2.2 "exit" (by decide)
  have at_dead := (dominates_build_iff loopWithExit).2.2 "dead" (by decide)
  refine ⟨by decide, exit_reached, ?_, ?_, by decide, dead_unreached, ?_⟩
  · exact ((at_exit "header").1 exit_reached).1 (by decide +kernel)
  · exact mt ((at_exit "body").1 exit_reached).2 (by decide +kernel)
  · exact ((at_dead "dead").2 dead_unreached).2 rfl

end Dominance

end Lir
