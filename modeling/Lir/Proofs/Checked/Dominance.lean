import Lir.Proofs.Checked.Search
import Lir.Proofs.Flow.Dominators

/-!
Dominance with every partial operation checked.

Every lookup of a block's dominators finds them: what is refined, compared or climbed to is a block
of the order, and those have sets from the start that name no other blocks.
-/

set_option autoImplicit false

namespace Lir

namespace Checked

/-! ### The walk -/

def walkSteps (g : FlowGraph) : Nat → Walk → Except Fault Walk
  | 0, w => if w.stack.isEmpty then .ok w else .error .unfinished
  | steps + 1, w => if w.stack.isEmpty then .ok w else walkSteps g steps (g.walkStep w)

def reversePostorder (g : FlowGraph) : Except Fault (List String) :=
  if g.contains entryName then
    (walkSteps g (g.edgeCount + g.blocks.length)
      ⟨[(entryName, g.successors entryName)], {entryName}, []⟩).map Walk.order
  else .ok []

theorem walkSteps_eq {g : FlowGraph} {steps : Nat} {w : Walk}
    (ends : (g.walkSteps steps w).stack = []) :
    walkSteps g steps w = .ok (g.walkSteps steps w) := by
  induction steps generalizing w with
  | zero => exact if_pos (List.isEmpty_iff.2 ends)
  | succ steps ih =>
    rw [FlowGraph.walkSteps] at ends ⊢
    rw [walkSteps]
    split
    next => rfl
    next unfinished =>
      rw [if_neg unfinished] at ends
      exact ih ends

theorem reversePostorder_eq {g : FlowGraph} (closed : g.Closed) :
    reversePostorder g = .ok g.reversePostorder := by
  rw [reversePostorder, FlowGraph.reversePostorder, FlowGraph.walk]
  split
  next entry =>
    rw [walkSteps_eq (FlowGraph.walkSteps_ends closed g.sound_start
      (FlowGraph.remaining_start entry).le).1]
    rfl
  next => rfl

/-! ### Refinement -/

/-- Refine one block in place, which must have a set. -/
def refineInto (g : FlowGraph) (state : NameMap NameSet × Bool) (block : String) :
    Except Fault (NameMap NameSet × Bool) := do
  let old ← found (.noDominators block) state.1[block]?
  let refined := Dominance.refineBlock g state.1 block
  .ok (if old = refined then state else (state.1.insert block refined, true))

def refineSteps (g : FlowGraph) (order : List String) :
    Nat → NameMap NameSet → Except Fault (NameMap NameSet)
  | 0, _ => .error .unfinished
  | steps + 1, sets => do
    match ← order.foldlM (refineInto g) (sets, false) with
    | (sets, true) => refineSteps g order steps sets
    | (sets, false) => .ok sets

variable {g : FlowGraph} {sets : NameMap NameSet}

theorem refineInto_eq {state : NameMap NameSet × Bool} {block : String} (known : block ∈ state.1) :
    refineInto g state block = .ok (Dominance.refineInto g state block) := by
  obtain ⟨old, at_block⟩ := (mem_map_iff _ block).1 known
  simp only [refineInto, Dominance.refineInto, at_block, found_some, ok_bind, Option.some.injEq]

/-- Refinement takes no set away, so the blocks of a round keep theirs. -/
theorem foldlM_refineInto_eq {blocks : List String} (known : ∀ block ∈ blocks, block ∈ sets)
    (changed : Bool) :
    blocks.foldlM (refineInto g) (sets, changed) =
      .ok (blocks.foldl (Dominance.refineInto g) (sets, changed)) := by
  refine (foldlM_ok_of_invariant (motive := fun state => ∀ block ∈ blocks, block ∈ state.1) known
    fun block member state kept => ⟨refineInto_eq (kept block member), ?_⟩).1
  intro other listed
  rw [Dominance.refineInto]
  split
  · exact kept other listed
  · exact Std.ExtTreeMap.mem_insert.2 (.inr (kept other listed))

/-- The sets get smaller with every round but the last, so the rounds are enough. -/
theorem refineSteps_eq {order later : List String}
    (listed : ∀ block, block ∈ order ↔ g.Reaches block)
    (after_entry : ∀ block ∈ later, g.Reaches block ∧ block ≠ entryName) {steps : Nat}
    (refining : Dominance.Refining g sets) (enough : Dominance.total order sets < steps) :
    refineSteps g later steps sets = .ok (Dominance.refineSteps g later steps sets) := by
  induction steps generalizing sets with
  | zero => exact absurd enough (Nat.not_lt_zero _)
  | succ steps ih =>
    have round : later.foldlM (refineInto g) (sets, false) =
        .ok (later.foldl (Dominance.refineInto g) (sets, false)) :=
      foldlM_refineInto_eq
        (fun block member => (refining.known block).2 (after_entry block member).1) false
    rw [refineSteps, Dominance.refineSteps, Dominance.refineRound, round, ok_bind]
    rcases refining.foldl_refineInto listed after_entry false with
      ⟨same, _⟩ | ⟨smaller, changes, refining, less⟩
    · -- Nothing changed, so this round was the last.
      rw [same]
    · rw [changes]
      exact ih refining (by omega)

theorem reachableSets_eq (closed : g.Closed) :
    refineSteps g g.reversePostorder.tail
        (g.reversePostorder.length * g.reversePostorder.length + 1)
        (Dominance.initialSets g.reversePostorder) =
      .ok (Dominance.reachableSets g g.reversePostorder) := by
  rw [Dominance.reachableSets]
  by_cases entry : g.contains entryName = true
  · have listed := g.mem_reversePostorder closed entry
    obtain ⟨later, order, fresh⟩ := g.reversePostorder_eq_cons closed entry
    rw [order] at listed ⊢
    have after_entry : ∀ block ∈ later, g.Reaches block ∧ block ≠ entryName := fun block member =>
      ⟨(listed block).1 (List.mem_cons_of_mem _ member), fun same => fresh (same ▸ member)⟩
    exact refineSteps_eq listed after_entry (Dominance.refining_initialSets fresh listed)
      (Nat.lt_succ_of_le (Dominance.total_le (entryName :: later) _))
  · -- Without an entry nothing is in the order, and the first round changes nothing.
    rw [Dominance.reversePostorder_without_entry entry]
    rfl

/-! ### Immediate dominators -/

def depth (sets : NameMap NameSet) (block : String) : Except Fault Nat :=
  (found (.noDominators block) sets[block]?).map (·.size)

def deepest (sets : NameMap NameSet) : List String → Except Fault (Option String)
  | [] => .ok none
  | first :: rest => do
    let size ← depth sets first
    let best ← rest.foldlM
      (fun best block => do
        let size ← depth sets block
        .ok (if best.2 ≤ size then (block, size) else best)) (first, size)
    .ok (some best.1)

def immediate (sets : NameMap NameSet) (block : String) : Except Fault (Option String) := do
  let set ← found (.noDominators block) sets[block]?
  deepest sets (set.toList.filter fun other => other ≠ block)

def immediates (sets : NameMap NameSet) (reachable : List String) :
    Except Fault (NameMap String) :=
  reachable.foldlM
    (fun idom block => do
      match ← immediate sets block with
      | some parent => .ok (idom.insert block parent)
      | none => .ok idom)
    ∅

/-- The blocks of the order have sets, and no other blocks are in those. -/
def Covered (order : List String) (sets : NameMap NameSet) : Prop :=
  ∀ block ∈ order, ∃ set, sets[block]? = some set ∧ ∀ member ∈ set, member ∈ order

variable {order : List String}

theorem Covered.known (covered : Covered order sets) {block : String} (listed : block ∈ order) :
    block ∈ sets := by
  obtain ⟨set, at_block, _⟩ := covered block listed
  exact (mem_map_iff sets block).2 ⟨set, at_block⟩

theorem depth_eq {block : String} (known : block ∈ sets) :
    depth sets block = .ok (Dominance.depth sets block) := by
  obtain ⟨set, at_block⟩ := (mem_map_iff sets block).1 known
  rw [depth, Dominance.depth, at_block]
  rfl

theorem deepest_eq {blocks : List String} (known : ∀ block ∈ blocks, block ∈ sets) :
    deepest sets blocks = .ok (Dominance.deepest? sets blocks) := by
  cases blocks with
  | nil => rfl
  | cons first rest =>
    obtain ⟨first_known, later⟩ := List.forall_mem_cons.1 known
    rw [deepest, Dominance.deepest?, depth_eq first_known, ok_bind]
    clear first_known known
    -- Induction on the blocks to come, whichever block is the deepest so far.
    induction rest generalizing first with
    | nil => rfl
    | cons block rest ih =>
      obtain ⟨here, later⟩ := List.forall_mem_cons.1 later
      rw [List.foldlM_cons, List.foldl_cons, depth_eq here, ok_bind, ok_bind]
      split
      · exact ih block later
      · exact ih first later

theorem immediate_eq (covered : Covered order sets) {block : String} (listed : block ∈ order) :
    immediate sets block = .ok (Dominance.immediate? sets block) := by
  obtain ⟨set, at_block, inside⟩ := covered block listed
  rw [immediate, Dominance.immediate?, at_block, found_some, ok_bind]
  refine deepest_eq fun other member => ?_
  have dominates := Std.ExtTreeSet.mem_toList.1 (List.mem_filter.1 member).1
  exact covered.known (inside other dominates)

theorem immediates_eq (covered : Covered order sets) (reachable : List String)
    (listed : ∀ block ∈ reachable, block ∈ order) :
    immediates sets reachable = .ok (Dominance.immediates sets reachable) := by
  refine foldlM_ok (fun block member idom => ?_) _
  rw [immediate_eq covered (listed block member), ok_bind]
  cases Dominance.immediate? sets block <;> rfl

/-! ### Frontiers -/

/-- The dominators of the predecessor must be known, and those of `join` once a runner is another
block. -/
def addJoin (sets : NameMap NameSet) (join pred : String) (frontiers : NameMap NameSet) :
    Except Fault (NameMap NameSet) := do
  let above ← found (.noDominators pred) sets[pred]?
  above.toList.foldlM
    (fun frontiers runner =>
      if runner = join then .ok (frontiers.modify runner (·.insert join))
      else do
        let set ← found (.noDominators join) sets[join]?
        .ok (if runner ∉ set then frontiers.modify runner (·.insert join) else frontiers))
    frontiers

def frontierSets (g : FlowGraph) (order : List String) (sets : NameMap NameSet) :
    Except Fault (NameMap NameSet) :=
  order.foldlM
    (fun frontiers join =>
      ((g.predecessors join).filter fun pred => pred ∈ order).foldlM
        (fun frontiers pred => addJoin sets join pred frontiers) frontiers)
    (g.blocks.foldl (fun frontiers block => frontiers.insert block ∅) (∅ : NameMap NameSet))

theorem addJoin_eq {join pred : String} (join_known : join ∈ sets) (pred_known : pred ∈ sets)
    (frontiers : NameMap NameSet) :
    addJoin sets join pred frontiers = .ok (Dominance.addJoin sets join pred frontiers) := by
  obtain ⟨above, at_pred⟩ := (mem_map_iff sets pred).1 pred_known
  obtain ⟨set, at_join⟩ := (mem_map_iff sets join).1 join_known
  rw [addJoin, Dominance.addJoin, at_pred, at_join, found_some, ok_bind]
  refine foldlM_ok (fun runner _ frontiers => ?_) _
  by_cases same : runner = join
  · simp only [same, if_true, true_or]
  · simp only [same, if_false, false_or, found_some, ok_bind, Option.getD_some]

theorem frontierSets_eq (covered : Covered order sets) :
    frontierSets g order sets = .ok (Dominance.frontierSets g order sets) := by
  refine foldlM_ok (fun join listed => foldlM_ok fun pred member frontiers => ?_) _
  have pred_listed : pred ∈ order := of_decide_eq_true (List.mem_filter.1 member).2
  exact addJoin_eq (covered.known listed) (covered.known pred_listed) frontiers

/-! ### All of it -/

def dominance (g : FlowGraph) : Except Fault Dominance := do
  let order ← reversePostorder g
  let sets ← refineSteps g order.tail (order.length * order.length + 1)
    (Dominance.initialSets order)
  let sets := Dominance.completeSets g sets
  let idom ← immediates sets (NameSet.ofNames order).toList
  let frontiers ← frontierSets g order sets
  .ok ⟨sets, idom, Dominance.childLists idom, frontiers⟩

theorem covered_completeSets (closed : g.Closed) :
    Covered g.reversePostorder
      (Dominance.completeSets g (Dominance.reachableSets g g.reversePostorder)) := by
  intro block listed
  have entry : g.contains entryName = true := by
    by_contra absent
    rw [Dominance.reversePostorder_without_entry absent] at listed
    exact absurd listed List.not_mem_nil
  have reaches := g.mem_reversePostorder closed entry
  have refining := (Dominance.reachableSets_ends closed entry).1
  have known := (refining.known block).2 ((reaches block).1 listed)
  obtain ⟨set, at_block⟩ := (mem_map_iff _ block).1 known
  refine ⟨set, ?_, fun member inside => (reaches member).2 (refining.within block member ?_)⟩
  · rw [Dominance.completeSets, Dominance.getElem?_foldl_insertIfNew, at_block, Option.some_or]
  · rwa [Dominance.setAt, at_block]

theorem dominance_eq (closed : g.Closed) : dominance g = .ok (Dominance.build g) := by
  have covered := covered_completeSets closed
  have climbed := immediates_eq covered (NameSet.ofNames g.reversePostorder).toList
    fun block member => (NameSet.mem_ofNames _ block).1 (Std.ExtTreeSet.mem_toList.1 member)
  simp only [dominance, reversePostorder_eq closed, reachableSets_eq closed, climbed,
    frontierSets_eq covered, ok_bind]
  rfl

end Checked

end Lir
