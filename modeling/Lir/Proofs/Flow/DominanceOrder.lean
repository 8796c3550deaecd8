import Lir.Proofs.Flow.Dominators

/-!
Dominance orders the blocks that paths lead to, and the dominators of one block form a chain.

All of it is about paths. A dominator of a block other than the block itself dominates every
predecessor, so most proofs go along a path edge by edge.
-/

set_option autoImplicit false

namespace Lir

namespace FlowGraph

def StrictlyDominates (g : FlowGraph) (block target : String) : Prop :=
  block ≠ target ∧ g.Dominates block target

/-- The closest strict dominator: every strict dominator of the block dominates it. -/
structure ImmediatelyDominates (g : FlowGraph) (parent block : String) : Prop where
  strict : g.StrictlyDominates parent block
  closest : ∀ other, g.StrictlyDominates other block → g.Dominates other parent

variable {g : FlowGraph}

theorem Dominates.refl (block : String) : g.Dominates block block :=
  fun _ _ => List.mem_append_right _ (List.mem_singleton_self block)

theorem dominates_entry (target : String) : g.Dominates entryName target := by
  intro left path
  induction path with
  | start => exact List.mem_singleton_self entryName
  | step _ _ ih => exact List.mem_append_left _ ih

theorem Dominates.eq_entry {block : String} (dominates : g.Dominates block entryName) :
    block = entryName :=
  List.mem_singleton.1 (dominates [] .start)

/-- A path through a block goes through its dominators too. -/
theorem Dominates.mem_path {first second target : String} {left : List String}
    (dominates : g.Dominates first second) (path : g.Path entryName left target)
    (passes : second ∈ left ++ [target]) : first ∈ left ++ [target] := by
  induction path with
  | start =>
    obtain rfl := List.mem_singleton.1 passes
    exact dominates [] .start
  | step path edge ih =>
    rcases List.mem_append.1 passes with before | last
    · exact List.mem_append_left _ (ih before)
    · obtain rfl := List.mem_singleton.1 last
      exact dominates _ (path.step edge)

theorem Dominates.trans {first second third : String} (left : g.Dominates first second)
    (right : g.Dominates second third) : g.Dominates first third :=
  fun before path => left.mem_path path (right before path)

/-- Two blocks that dominate each other can only be reached one after the other, so there is no
first of them. -/
theorem Dominates.antisymm {first second : String} (left : g.Dominates first second)
    (right : g.Dominates second first) (reached : g.Reaches first) : first = second := by
  by_contra different
  -- Neither block dominates anything on the way.
  have neither : ¬ g.Dominates first first ∧ ¬ g.Dominates second first := by
    refine reached.induction
      (motive := fun block => ¬ g.Dominates first block ∧ ¬ g.Dominates second block) ?_ ?_
    · constructor
      · intro at_entry
        obtain rfl := at_entry.eq_entry
        exact different right.eq_entry.symm
      · intro at_entry
        obtain rfl := at_entry.eq_entry
        exact different left.eq_entry
    · intro source target _ free edge
      constructor
      · intro dominates
        by_cases last : first = target
        · subst last
          exact free.2 (right.predecessor (Ne.symm different) edge)
        · exact free.1 (dominates.predecessor last edge)
      · intro dominates
        by_cases last : second = target
        · subst last
          exact free.1 (left.predecessor different edge)
        · exact free.2 (dominates.predecessor last edge)
  exact neither.1 (.refl first)

/-- Of two dominators of one block, one dominates the other. -/
theorem Dominates.total {first second block : String} (left : g.Dominates first block)
    (right : g.Dominates second block) (reached : g.Reaches block) :
    g.Dominates first second ∨ g.Dominates second first := by
  have along : g.Dominates first block → g.Dominates second block →
      g.Dominates first second ∨ g.Dominates second first := by
    refine reached.induction (motive := fun block => g.Dominates first block →
      g.Dominates second block → g.Dominates first second ∨ g.Dominates second first) ?_ ?_
    · intro left right
      rw [left.eq_entry, right.eq_entry]
      exact .inl (.refl entryName)
    · intro source target _ ih edge left right
      -- Where one of them is the end of the path, the other dominates it.
      by_cases here : first = target
      · exact .inr (here ▸ right)
      · by_cases there : second = target
        · exact .inl (there ▸ left)
        · exact ih (left.predecessor here edge) (right.predecessor there edge)
  exact along left right

theorem StrictlyDominates.ne_entry {block target : String}
    (strict : g.StrictlyDominates block target) : target ≠ entryName := by
  rintro rfl
  exact strict.1 strict.2.eq_entry

namespace ImmediatelyDominates

variable {parent block : String}

theorem unique {other : String} (immediate : g.ImmediatelyDominates parent block)
    (also : g.ImmediatelyDominates other block) (reached : g.Reaches block) : parent = other :=
  (also.closest parent immediate.strict).antisymm (immediate.closest other also.strict)
    (reached.dominator immediate.strict.2)

theorem dominates_iff (immediate : g.ImmediatelyDominates parent block) (other : String) :
    g.Dominates other block ↔ other = block ∨ g.Dominates other parent := by
  constructor
  · intro dominates
    by_cases same : other = block
    · exact .inl same
    · exact .inr (immediate.closest other ⟨same, dominates⟩)
  · rintro (rfl | above)
    · exact .refl other
    · exact above.trans immediate.strict.2

theorem not_dominates (immediate : g.ImmediatelyDominates parent block) (reached : g.Reaches block) :
    ¬ g.Dominates block parent := fun below =>
  immediate.strict.1 (immediate.strict.2.antisymm below (reached.dominator immediate.strict.2))

end ImmediatelyDominates

end FlowGraph

end Lir
