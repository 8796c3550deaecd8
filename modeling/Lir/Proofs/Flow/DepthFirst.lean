import Lir.Proofs.Flow.Reachable

/-!
The walk with a stack does what a recursive depth-first search does.

A search goes through its targets in order and passes over those it has seen. A new one is searched
from in turn, and is finished behind all the blocks that were finished on its behalf. Every frame on
a stack is a search that waits for the one above it, so a walk from any state finishes the blocks
that its stack unwinds to.

When a block is finished, all its successors have been seen. One that is not finished by then is a
block whose own search is still going on, and that search has led to the block.
-/

set_option autoImplicit false

namespace Lir

namespace FlowGraph

/-- Searching from the targets in turn, when some blocks have been seen, sees the blocks of the last
set and finishes the listed blocks, the first one first. -/
inductive Searches (g : FlowGraph) : List String → NameSet → NameSet → List String → Prop where
  | done {seen : NameSet} : Searches g [] seen seen []
  | pass {target : String} {later post : List String} {seen after : NameSet} :
      target ∈ seen → Searches g later seen after post →
      Searches g (target :: later) seen after post
  | enter {target : String} {later inner post : List String} {seen middle after : NameSet} :
      target ∉ seen → Searches g (g.successors target) (seen.insert target) middle inner →
      Searches g later middle after post →
      Searches g (target :: later) seen after (inner ++ target :: post)

/-- Finishing the frames of a stack, the top one first. -/
inductive Unwinds (g : FlowGraph) :
    List (String × List String) → NameSet → List String → Prop where
  | done {seen : NameSet} : Unwinds g [] seen []
  | frame {block : String} {targets inner post : List String}
      {stack : List (String × List String)} {seen middle : NameSet} :
      Searches g targets seen middle inner → Unwinds g stack middle post →
      Unwinds g ((block, targets) :: stack) seen (inner ++ block :: post)

def starts (g : FlowGraph) : List String := if g.contains entryName then [entryName] else []

def Acyclic (g : FlowGraph) : Prop := ∀ block left, g.Path block left block → left = []

/-- The order has the reachable blocks once each, the entry first. Back to front it is the postorder
of the depth-first search, and a successor that does not come after a block leads back to it. -/
structure ReversePostorder (g : FlowGraph) (order : List String) : Prop where
  nodup : order.Nodup
  mem_iff : ∀ block, block ∈ order ↔ block ∈ g.reachable
  head : order.head? = g.starts.head?
  search : ∀ post, (∃ after, g.Searches g.starts ∅ after post) ↔ post.reverse = order
  edges : ∀ block ∈ order, ∀ target ∈ g.successors block,
    [block, target].Sublist order ∨ ∃ left, g.Path target left block

variable {g : FlowGraph} {targets post : List String} {seen after : NameSet}

/-! ### What a search does -/

theorem Searches.unique {after' : NameSet} {post' : List String}
    (search : g.Searches targets seen after post) (other : g.Searches targets seen after' post') :
    after = after' ∧ post = post' := by
  induction search generalizing after' post' with
  | done =>
    cases other
    exact ⟨rfl, rfl⟩
  | pass met _ ih =>
    cases other with
    | pass _ later => exact ih later
    | enter new _ _ => exact absurd met new
  | enter new _ _ ih_inner ih_later =>
    cases other with
    | pass met _ => exact absurd met new
    | enter _ inner later =>
      obtain ⟨rfl, rfl⟩ := ih_inner inner
      obtain ⟨rfl, rfl⟩ := ih_later later
      exact ⟨rfl, rfl⟩

theorem Searches.mem_after (search : g.Searches targets seen after post) (block : String) :
    block ∈ after ↔ block ∈ seen ∨ block ∈ post := by
  induction search with
  | done => simp
  | pass _ _ ih => exact ih
  | enter _ _ _ ih_inner ih_later =>
    rw [ih_later, ih_inner, mem_insert_set, List.mem_append, List.mem_cons]
    tauto

theorem Searches.targets_seen (search : g.Searches targets seen after post) :
    ∀ target ∈ targets, target ∈ after := by
  induction search with
  | done => simp
  | pass met later ih =>
    exact List.forall_mem_cons.2 ⟨(later.mem_after _).2 (.inl met), ih⟩
  | enter _ inner later _ ih =>
    have entered := (inner.mem_after _).2 (.inl ((mem_insert_set _ _ _).2 (.inl rfl)))
    exact List.forall_mem_cons.2 ⟨(later.mem_after _).2 (.inl entered), ih⟩

/-- A finished block lies on a path from a target. -/
theorem Searches.exists_path (search : g.Searches targets seen after post) :
    ∀ block ∈ post, ∃ target ∈ targets, ∃ left, g.Path target left block := by
  induction search with
  | done => simp
  | pass _ _ ih =>
    intro block finished
    obtain ⟨target, listed, path⟩ := ih block finished
    exact ⟨target, List.mem_cons_of_mem _ listed, path⟩
  | @enter first _ _ _ _ _ _ _ _ _ ih_inner ih_later =>
    intro block finished
    rcases List.mem_append.1 finished with within | later
    · obtain ⟨target, edge, left, path⟩ := ih_inner block within
      exact ⟨first, List.mem_cons_self, _, (Path.start.step edge).append path⟩
    · rcases List.mem_cons.1 later with rfl | later
      · exact ⟨block, List.mem_cons_self, [], .start⟩
      · obtain ⟨target, listed, path⟩ := ih_later block later
        exact ⟨target, List.mem_cons_of_mem _ listed, path⟩

/-- A successor of a finished block was seen before, is finished earlier or leads back to it. -/
theorem Searches.edges (search : g.Searches targets seen after post) :
    ∀ block ∈ post, ∀ target ∈ g.successors block,
      target ∈ seen ∨ [target, block].Sublist post ∨ ∃ left, g.Path target left block := by
  induction search with
  | done => simp
  | pass _ _ ih => exact ih
  | @enter first _ inner later seen middle _ _ search_inner _ ih_inner ih_later =>
    have across : ∀ early ∈ inner, ∀ late ∈ first :: later,
        [early, late].Sublist (inner ++ first :: later) := fun _ within _ behind =>
      (List.singleton_sublist.2 within).append (List.singleton_sublist.2 behind)
    have within_later : ∀ early late, [early, late].Sublist (first :: later) →
        [early, late].Sublist (inner ++ first :: later) := fun _ _ ordered =>
      ordered.trans (List.sublist_append_right _ _)
    intro block finished target edge
    rcases List.mem_append.1 finished with in_inner | behind
    · rcases ih_inner block in_inner target edge with met | earlier | back
      · rcases (mem_insert_set _ _ _).1 met with rfl | before
        · -- The search from the successor has yet to end, and it has led to the block.
          obtain ⟨next, follows, left, path⟩ := search_inner.exists_path block in_inner
          exact .inr (.inr ⟨_, (Path.start.step follows).append path⟩)
        · exact .inl before
      · exact .inr (.inl (earlier.trans (List.sublist_append_left _ _)))
      · exact .inr (.inr back)
    · -- What has been seen when the search from the new target ends.
      have met_before : target ∈ middle → (target = first ∨ target ∈ seen) ∨ target ∈ inner :=
        fun met => ((search_inner.mem_after target).1 met).imp_left (mem_insert_set _ _ _).1
      rcases List.mem_cons.1 behind with rfl | in_later
      · rcases met_before (search_inner.targets_seen target edge) with (rfl | before) | early
        · exact .inr (.inr ⟨[], .start⟩)
        · exact .inl before
        · exact .inr (.inl (across target early block behind))
      · rcases ih_later block in_later target edge with met | earlier | back
        · rcases met_before met with (rfl | before) | early
          · have ordered := (List.singleton_sublist.2 in_later).cons_cons target
            exact .inr (.inl (within_later target block ordered))
          · exact .inl before
          · exact .inr (.inl (across target early block behind))
        · exact .inr (.inl (within_later target block (earlier.trans (List.sublist_cons_self _ _))))
        · exact .inr (.inr back)

/-! ### A stack unwinds to what its walk finishes -/

/-- A step of a walk leaves what its stack unwinds to, but for a block that it finishes. -/
theorem Unwinds.of_walkStep {w : Walk} {post : List String} (unfinished : w.stack ≠ [])
    (unwinds : g.Unwinds (g.walkStep w).stack (g.walkStep w).seen post) :
    ∃ whole, g.Unwinds w.stack w.seen whole ∧
      whole.reverse ++ w.order = post.reverse ++ (g.walkStep w).order := by
  match top : w.stack with
  | [] => exact absurd top unfinished
  | (block, targets) :: stack =>
    rcases walkStep_cases (g := g) top with
      ⟨rfl, same⟩ | ⟨target, later, rfl, met, same⟩ | ⟨target, later, rfl, new, same⟩
    · rw [same] at unwinds ⊢
      exact ⟨block :: post, .frame .done unwinds, by simp⟩
    · rw [same] at unwinds ⊢
      cases unwinds with
      | frame search rest => exact ⟨_, .frame (.pass met search) rest, rfl⟩
    · -- The frame on top is the search that the one below it has just begun.
      rw [same] at unwinds ⊢
      cases unwinds with
      | frame inner below =>
        cases below with
        | frame search rest =>
          refine ⟨_, .frame (.enter new inner search) rest, by simp⟩

theorem unwinds_walkSteps {steps : Nat} {w : Walk} (ends : (g.walkSteps steps w).stack = []) :
    ∃ post, g.Unwinds w.stack w.seen post ∧
      (g.walkSteps steps w).order = post.reverse ++ w.order := by
  induction steps generalizing w with
  | zero =>
    have empty : w.stack = [] := ends
    exact ⟨[], empty ▸ .done, rfl⟩
  | succ steps ih =>
    rw [walkSteps] at ends ⊢
    split at ends
    next finished =>
      rw [if_pos finished]
      exact ⟨[], List.isEmpty_iff.1 finished ▸ .done, rfl⟩
    next unfinished =>
      rw [if_neg unfinished]
      obtain ⟨post, unwinds, order⟩ := ih ends
      obtain ⟨whole, unwinds, same⟩ := unwinds.of_walkStep (mt List.isEmpty_iff.2 unfinished)
      exact ⟨whole, unwinds, order.trans same.symm⟩

theorem searches_reversePostorder (closed : g.Closed) :
    ∃ after, g.Searches g.starts ∅ after g.reversePostorder.reverse := by
  have ends := walk_ends closed
  rw [starts, reversePostorder]
  rw [walk] at ends ⊢
  split
  next entry =>
    rw [if_pos entry] at ends
    obtain ⟨post, unwinds, order⟩ := unwinds_walkSteps ends
    rw [order, List.append_nil, List.reverse_reverse]
    cases unwinds with
    | frame search rest =>
      cases rest
      exact ⟨_, .enter Std.ExtTreeSet.not_mem_empty search .done⟩
  next => exact ⟨∅, .done⟩

/-! ### The order of a function's blocks -/

theorem mem_reversePostorder_iff (closed : g.Closed) (block : String) :
    block ∈ g.reversePostorder ↔ block ∈ g.reachable := by
  by_cases entry : g.contains entryName = true
  · rw [mem_reversePostorder closed entry, mem_reachable closed entry]
  · simp [reversePostorder, walk, reachable, entry]

theorem head?_reversePostorder (closed : g.Closed) :
    g.reversePostorder.head? = g.starts.head? := by
  rw [starts]
  split
  next entry =>
    obtain ⟨later, same, _⟩ := reversePostorder_eq_cons closed entry
    rw [same, List.head?_cons, List.head?_cons]
  next missing => simp [reversePostorder, walk, missing]

theorem reversePostorder_edges (closed : g.Closed) :
    ∀ block ∈ g.reversePostorder, ∀ target ∈ g.successors block,
      [block, target].Sublist g.reversePostorder ∨ ∃ left, g.Path target left block := by
  obtain ⟨after, search⟩ := searches_reversePostorder closed
  intro block listed target edge
  rcases search.edges block (List.mem_reverse.2 listed) target edge with before | earlier | back
  · exact absurd before Std.ExtTreeSet.not_mem_empty
  · exact .inl (List.reverse_sublist.1 earlier)
  · exact .inr back

/-- The walk over a function's graph ends and gives a reverse postorder, in which every edge leads
forward if the graph has no cycle. -/
theorem reversePostorder_graph (f : Function) :
    f.graph.walk.stack = [] ∧ f.graph.ReversePostorder f.graph.reversePostorder ∧
      (f.graph.Acyclic → ∀ block ∈ f.graph.reversePostorder, ∀ target ∈ f.graph.successors block,
        [block, target].Sublist f.graph.reversePostorder) := by
  have closed := f.closed_graph
  have edges := reversePostorder_edges closed
  refine ⟨walk_ends closed, ⟨nodup_reversePostorder closed, mem_reversePostorder_iff closed,
    head?_reversePostorder closed, fun post => ?_, edges⟩,
    fun acyclic block listed target edge => ?_⟩
  · obtain ⟨after, search⟩ := searches_reversePostorder closed
    constructor
    · rintro ⟨_, other⟩
      rw [(other.unique search).2, List.reverse_reverse]
    · intro same
      rw [← same, List.reverse_reverse] at search
      exact ⟨after, search⟩
  · refine (edges block listed target edge).resolve_right ?_
    rintro ⟨left, path⟩
    have round := acyclic block _ ((Path.start.step edge).append path)
    simp at round

end FlowGraph

end Lir
