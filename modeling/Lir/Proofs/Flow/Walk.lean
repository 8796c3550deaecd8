import Lir.Proofs.Counting
import Lir.Proofs.Flow.Path
import Mathlib.Data.List.Nodup

/-!
The depth-first walk ends with every reachable block in its order, once, and the entry in front.

The blocks on the stack, bottom first, followed by those in the order form one line. Finishing a
block leaves the line as it is, and entering a block puts it into the line behind the entry.
-/

set_option autoImplicit false

namespace Lir

namespace Walk

/-- The blocks met so far: those on the stack, bottom first, and then the order. -/
def line (w : Walk) : List String := (w.stack.map Prod.fst).reverse ++ w.order

/-- Edges that the walk has yet to follow and blocks that it has yet to finish. -/
def remaining (g : FlowGraph) (w : Walk) : Nat :=
  (g.blocks.map fun block => if block ∈ w.seen then 0 else (g.successors block).length + 1).sum +
    (w.stack.map fun frame => frame.2.length + 1).sum

/-- What every step of a walk from the entry keeps. -/
structure Sound (g : FlowGraph) (w : Walk) : Prop where
  seen : ∀ block, block ∈ w.seen ↔ block ∈ w.line
  nodup : w.line.Nodup
  head : w.line.head? = some entryName
  reached : ∀ block ∈ w.line, g.Reaches block
  edges : ∀ frame ∈ w.stack, ∀ target ∈ frame.2, target ∈ g.successors frame.1
  followed : ∀ frame ∈ w.stack, ∀ target ∈ g.successors frame.1,
    target ∈ w.seen ∨ target ∈ frame.2
  finished : ∀ block ∈ w.order, ∀ target ∈ g.successors block, target ∈ w.seen

section

variable {g : FlowGraph} {block target : String} {later : List String}
  {stack : List (String × List String)} {seen : NameSet} {order : List String}

theorem Sound.finish (sound : Sound g ⟨(block, []) :: stack, seen, order⟩) :
    Sound g ⟨stack, seen, block :: order⟩ := by
  -- The block moves across the middle of the line.
  have same : line ⟨stack, seen, block :: order⟩ = line ⟨(block, []) :: stack, seen, order⟩ := by
    simp [line]
  refine ⟨same ▸ sound.seen, same ▸ sound.nodup, same ▸ sound.head, same ▸ sound.reached,
    (List.forall_mem_cons.1 sound.edges).2, (List.forall_mem_cons.1 sound.followed).2, ?_⟩
  refine List.forall_mem_cons.2 ⟨fun target edge => ?_, sound.finished⟩
  exact (sound.followed _ List.mem_cons_self target edge).resolve_right List.not_mem_nil

theorem Sound.skip (sound : Sound g ⟨(block, target :: later) :: stack, seen, order⟩)
    (met : target ∈ seen) : Sound g ⟨(block, later) :: stack, seen, order⟩ := by
  obtain ⟨edges, edges_below⟩ := List.forall_mem_cons.1 sound.edges
  obtain ⟨followed, followed_below⟩ := List.forall_mem_cons.1 sound.followed
  refine ⟨sound.seen, sound.nodup, sound.head, sound.reached, ?_, ?_, sound.finished⟩
  · exact List.forall_mem_cons.2
      ⟨fun other member => edges other (List.mem_cons_of_mem _ member), edges_below⟩
  · refine List.forall_mem_cons.2 ⟨fun other edge => ?_, followed_below⟩
    rcases followed other edge with known | pending
    · exact .inl known
    · rcases List.mem_cons.1 pending with rfl | member
      · exact .inl met
      · exact .inr member

theorem Sound.enter (sound : Sound g ⟨(block, target :: later) :: stack, seen, order⟩)
    (unmet : target ∉ seen) :
    Sound g ⟨(target, g.successors target) :: (block, later) :: stack, seen.insert target,
      order⟩ := by
  obtain ⟨edges, edges_below⟩ := List.forall_mem_cons.1 sound.edges
  obtain ⟨followed, followed_below⟩ := List.forall_mem_cons.1 sound.followed
  have grown : ∀ other, other ∈ seen.insert target ↔ other = target ∨ other ∈ seen :=
    mem_insert_set seen target
  have members : ∀ other,
      other ∈ line ⟨(target, g.successors target) :: (block, later) :: stack,
        seen.insert target, order⟩ ↔
      other = target ∨ other ∈ line ⟨(block, target :: later) :: stack, seen, order⟩ := by
    intro other
    simp only [line, List.map_cons, List.reverse_cons, List.mem_append, List.mem_singleton]
    tauto
  refine ⟨?_, ?_, ?_, ?_, ?_, ?_, ?_⟩
  · intro other
    rw [members, grown, sound.seen]
  · -- The top of the stack is inside the line.
    have fresh : target ∉ line ⟨(block, target :: later) :: stack, seen, order⟩ :=
      fun member => unmet ((sound.seen target).2 member)
    have middle := List.nodup_middle.2 (List.nodup_cons.2 ⟨fresh, sound.nodup⟩)
    simpa [line] using middle
  · have head := sound.head
    simp only [line, List.map_cons, List.reverse_cons, List.append_assoc, List.head?_append,
      List.singleton_append, List.head?_cons] at head ⊢
    exact head
  · intro other member
    rcases (members other).1 member with rfl | member
    · exact (sound.reached block (by simp [line])).step (edges _ List.mem_cons_self)
    · exact sound.reached other member
  · refine List.forall_mem_cons.2 ⟨fun _ edge => edge, List.forall_mem_cons.2 ⟨?_, edges_below⟩⟩
    exact fun other member => edges other (List.mem_cons_of_mem _ member)
  · refine List.forall_mem_cons.2 ⟨fun _ edge => .inr edge, List.forall_mem_cons.2 ⟨?_, ?_⟩⟩
    · intro other edge
      rcases followed other edge with known | pending
      · exact .inl ((grown other).2 (.inr known))
      · exact (List.mem_cons.1 pending).imp_left fun same => (grown other).2 (.inl same)
    · exact fun frame member other edge =>
        (followed_below frame member other edge).imp_left fun known => (grown other).2 (.inr known)
  · exact fun other member successor edge =>
      (grown successor).2 (.inr (sound.finished other member successor edge))

end

end Walk

namespace FlowGraph

variable {g : FlowGraph}

theorem walkStep_cases {w : Walk} {block : String} {targets : List String}
    {stack : List (String × List String)} (top : w.stack = (block, targets) :: stack) :
    (targets = [] ∧ g.walkStep w = ⟨stack, w.seen, block :: w.order⟩) ∨
    (∃ target later, targets = target :: later ∧ target ∈ w.seen ∧
      g.walkStep w = ⟨(block, later) :: stack, w.seen, w.order⟩) ∨
    (∃ target later, targets = target :: later ∧ target ∉ w.seen ∧
      g.walkStep w = ⟨(target, g.successors target) :: (block, later) :: stack,
        w.seen.insert target, w.order⟩) := by
  cases targets with
  | nil => exact .inl ⟨rfl, by simp [walkStep, top]⟩
  | cons target later =>
    by_cases met : target ∈ w.seen
    · exact .inr (.inl ⟨target, later, rfl, met, by simp [walkStep, top, met]⟩)
    · exact .inr (.inr ⟨target, later, rfl, met, by simp [walkStep, top, met]⟩)

theorem sound_walkStep {w : Walk} (sound : w.Sound g) : (g.walkStep w).Sound g := by
  obtain ⟨stack, seen, order⟩ := w
  match stack with
  | [] => exact sound
  | (block, targets) :: stack =>
    rcases walkStep_cases (g := g) (w := ⟨(block, targets) :: stack, seen, order⟩) rfl with
      ⟨rfl, same⟩ | ⟨target, later, rfl, met, same⟩ | ⟨target, later, rfl, met, same⟩
    · exact same ▸ sound.finish
    · exact same ▸ sound.skip met
    · exact same ▸ sound.enter met

/-! ### Every walk ends -/

theorem remaining_walkStep (closed : g.Closed) {w : Walk} (sound : w.Sound g)
    (unfinished : w.stack ≠ []) : (g.walkStep w).remaining g + 1 = w.remaining g := by
  match top : w.stack with
  | [] => exact absurd top unfinished
  | (block, targets) :: stack =>
    rcases walkStep_cases (g := g) top with
      ⟨rfl, same⟩ | ⟨target, later, rfl, met, same⟩ | ⟨target, later, rfl, met, same⟩
    · simp only [same, Walk.remaining, top, List.map_cons, List.sum_cons, List.length_nil]
      omega
    · simp only [same, Walk.remaining, top, List.map_cons, List.sum_cons, List.length_cons]
      omega
    · have edge : target ∈ g.successors block :=
        sound.edges _ (top ▸ List.mem_cons_self) target List.mem_cons_self
      have entered := sum_unseen_insert (fun block => (g.successors block).length + 1)
        g.nodup_blocks ((g.mem_blocks target).2 (closed block target edge)) met
      simp only [same, Walk.remaining, top, List.map_cons, List.sum_cons, List.length_cons]
      omega

theorem walkSteps_ends (closed : g.Closed) {steps : Nat} {w : Walk} (sound : w.Sound g)
    (enough : w.remaining g ≤ steps) :
    (g.walkSteps steps w).stack = [] ∧ (g.walkSteps steps w).Sound g := by
  induction steps generalizing w with
  | zero =>
    refine ⟨?_, sound⟩
    match top : w.stack with
    | [] => rfl
    | frame :: stack => simp [Walk.remaining, top] at enough
  | succ steps ih =>
    rw [walkSteps]
    split
    next finished => exact ⟨List.isEmpty_iff.1 finished, sound⟩
    next unfinished =>
      have less := remaining_walkStep closed sound (mt List.isEmpty_iff.2 unfinished)
      exact ih (sound_walkStep sound) (by omega)

theorem map_successors_blocks (g : FlowGraph) :
    (g.blocks.map fun block => (g.successors block).length) = g.edges.values.map List.length := by
  rw [blocks, Table.keys, Table.values, List.map_map, List.map_map]
  apply List.map_congr_left
  intro entry member
  have found := (g.edges.get?_eq_some_iff entry.1 entry.2).2 member
  simp [successors, found]

theorem sound_start (g : FlowGraph) :
    (⟨[(entryName, g.successors entryName)], {entryName}, []⟩ : Walk).Sound g where
  seen block := by simp [Walk.line, eq_comm (a := block)]
  nodup := by simp [Walk.line]
  head := by simp [Walk.line]
  reached block member := by
    have same : block = entryName := by simpa [Walk.line] using member
    exact same ▸ .entry
  edges := by simp
  followed := by
    intro frame member target edge
    obtain rfl := List.mem_singleton.1 member
    exact .inr edge
  finished := by simp

theorem remaining_start (entry : g.contains entryName = true) :
    (⟨[(entryName, g.successors entryName)], {entryName}, []⟩ : Walk).remaining g =
      g.edgeCount + g.blocks.length := by
  have unseen : entryName ∉ (∅ : NameSet) := Std.ExtTreeSet.not_mem_empty
  have entered := sum_unseen_insert (fun block => (g.successors block).length + 1)
    g.nodup_blocks ((g.mem_blocks entryName).2 entry) unseen
  have total : (g.blocks.map fun block => (g.successors block).length + 1).sum =
      g.edgeCount + g.blocks.length := by
    rw [edgeCount, List.length_flatten, ← map_successors_blocks, List.sum_map_add]
    simp
  have start : ({entryName} : NameSet) = (∅ : NameSet).insert entryName := rfl
  simp only [Walk.remaining, start, List.map_cons, List.map_nil, List.sum_cons, List.sum_nil]
  simp only [Std.ExtTreeSet.not_mem_empty, if_false] at entered
  omega

theorem walk_ends (closed : g.Closed) : g.walk.stack = [] := by
  rw [walk]
  split
  next entry => exact (walkSteps_ends closed g.sound_start (remaining_start entry).le).1
  next => rfl

theorem walk_sound (closed : g.Closed) (entry : g.contains entryName = true) :
    g.walk.Sound g := by
  rw [walk, if_pos entry]
  exact (walkSteps_ends closed g.sound_start (remaining_start entry).le).2

/-! ### The order when the walk has ended -/

theorem line_walk (closed : g.Closed) : g.walk.line = g.reversePostorder := by
  simp [Walk.line, walk_ends closed, reversePostorder]

theorem nodup_reversePostorder (closed : g.Closed) : g.reversePostorder.Nodup := by
  by_cases entry : g.contains entryName = true
  · rw [← line_walk closed]
    exact (walk_sound closed entry).nodup
  · simp [reversePostorder, walk, entry]

/-- The order has the reachable blocks and no others. -/
theorem mem_reversePostorder (closed : g.Closed) (entry : g.contains entryName = true)
    (block : String) : block ∈ g.reversePostorder ↔ g.Reaches block := by
  have sound := walk_sound closed entry
  have line := line_walk closed
  have seen : ∀ other, other ∈ g.walk.seen ↔ other ∈ g.reversePostorder :=
    fun other => line ▸ sound.seen other
  constructor
  · exact fun member => sound.reached block (line.symm ▸ member)
  · intro reached
    refine reached.induction ?_ ?_
    · exact line ▸ List.mem_of_head? sound.head
    · intro source target _ member edge
      exact (seen target).1 (sound.finished source member target edge)

theorem reversePostorder_eq_cons (closed : g.Closed) (entry : g.contains entryName = true) :
    ∃ later, g.reversePostorder = entryName :: later ∧ entryName ∉ later := by
  have head := (walk_sound closed entry).head
  have nodup := nodup_reversePostorder closed
  rw [line_walk closed] at head
  obtain ⟨later, same⟩ := List.head?_eq_some_iff.1 head
  rw [same] at nodup
  exact ⟨later, same, (List.nodup_cons.1 nodup).1⟩

end FlowGraph

end Lir
