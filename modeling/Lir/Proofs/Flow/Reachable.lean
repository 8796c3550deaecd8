import Lir.Proofs.Collecting
import Lir.Proofs.Flow.Walk

/-!
The breadth-first visit ends with the blocks that paths from the entry lead to.

Each visit takes one place off the queue, and only the first visit of a block adds places to it,
one for each edge out of the block.
-/

set_option autoImplicit false

namespace Lir

namespace FlowGraph

variable {g : FlowGraph}

/-- Places in the queue, and those that blocks not visited so far will add to it. -/
def visitsLeft (g : FlowGraph) (queue : List String) (seen : NameSet) : Nat :=
  queue.length +
    (g.blocks.map fun block => if block ∈ seen then 0 else (g.successors block).length).sum

theorem visitSteps_ends (closed : g.Closed) (entry : g.contains entryName = true) {steps : Nat}
    {queue : List String} {seen : NameSet}
    (collecting : Collecting g.successors (fun _ => True) g.Reaches entryName queue seen)
    (enough : g.visitsLeft queue seen ≤ steps) :
    Collecting g.successors (fun _ => True) g.Reaches entryName []
      (g.visitSteps steps queue seen) := by
  induction steps generalizing queue seen with
  | zero =>
    have none_queued : queue = [] := by
      rw [visitsLeft] at enough
      exact List.eq_nil_of_length_eq_zero (by omega)
    exact none_queued ▸ collecting
  | succ steps ih =>
    cases queue with
    | nil => exact collecting
    | cons block queue =>
      rw [visitSteps]
      split
      next met =>
        refine ih (collecting.drop fun _ => met) ?_
        rw [visitsLeft, List.length_cons] at enough
        rw [visitsLeft]
        omega
      next new =>
        have reached := collecting.reached_waiting block List.mem_cons_self trivial
        have listed := (g.mem_blocks block).2 (reached.contains closed entry)
        have entered := sum_unseen_insert (fun block => (g.successors block).length)
          g.nodup_blocks listed new
        refine ih (collecting.enter trivial (fun _ edge _ source => source.step edge) fun other =>
          List.mem_append.trans or_comm) ?_
        rw [visitsLeft, List.length_cons] at enough
        rw [visitsLeft, List.length_append]
        omega

theorem mem_reachable (closed : g.Closed) (entry : g.contains entryName = true) (block : String) :
    block ∈ g.reachable ↔ g.Reaches block := by
  have places : g.visitsLeft [entryName] ∅ = g.edgeCount + 1 := by
    simp only [visitsLeft, Std.ExtTreeSet.not_mem_empty, if_false, List.length_singleton]
    rw [map_successors_blocks, edgeCount, List.length_flatten, Nat.add_comm]
  have found := visitSteps_ends closed entry (collecting_start fun _ => Reaches.entry) places.le
  rw [reachable, if_pos entry]
  constructor
  · exact found.reached_seen block
  · intro reached
    refine reached.induction ?_ ?_
    · exact (found.started trivial).resolve_right List.not_mem_nil
    · intro source target _ seen edge
      exact (found.followed source seen target edge trivial).resolve_right List.not_mem_nil

end FlowGraph

end Lir
