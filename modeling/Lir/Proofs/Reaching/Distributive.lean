import Lir.Proofs.Flow.Semilattice
import Lir.Proofs.Reaching.Exact

/-!
Reaching definitions distribute over joins.

What an instruction does to one name is to set its definitions, to add a point to them, or nothing,
and a name that is missing stays missing unless it is set. Each of these gives the same before a join
as after it, so a list of instructions may be run on two states or on their join.
-/

set_option autoImplicit false

namespace Lir

namespace Reaching

theorem map_insert_merge_join (first second : Option PointSet) (point : Point) :
    (Option.merge join first second).map (·.insert point) =
      Option.merge join (first.map (·.insert point)) (second.map (·.insert point)) := by
  cases first with
  | none => simp
  | some first =>
    cases second with
    | none => simp
    | some second =>
      refine congrArg some (Std.ExtTreeSet.ext_mem fun member => ?_)
      simp only [mem_insert_set, mem_join_set]
      exact or_or_distrib_left

theorem transfer_join (ctx : Context) (inst : Instruction) (s t : DefMap) :
    transfer ctx inst (join s t) = join (transfer ctx inst s) (transfer ctx inst t) := by
  apply Std.ExtTreeMap.ext_getElem?
  intro name
  simp only [getElem?_join, getElem?_transfer]
  by_cases assigned : inst.def? = some name
  · simp only [assigned, if_true]
    exact (congrArg some (join_self _)).symm
  · by_cases written : name ∈ mayWrite ctx inst
    · simp only [assigned, written, if_false, if_true]
      exact map_insert_merge_join s[name]? t[name]? inst.point
    · simp only [assigned, written, if_false]

theorem transferAll_join (ctx : Context) (instructions : List Instruction) (s t : DefMap) :
    (analysis ctx).transferAll instructions (join s t) =
      join ((analysis ctx).transferAll instructions s)
        ((analysis ctx).transferAll instructions t) := by
  induction instructions generalizing s t with
  | nil => rfl
  | cons inst rest ih =>
    have first : (analysis ctx).transfer inst (join s t) =
        join ((analysis ctx).transfer inst s) ((analysis ctx).transfer inst t) :=
      transfer_join ctx inst s t
    simp only [Analysis.transferAll, List.foldl_cons, first]
    exact ih _ _

/-- Instructions one after the other, run on the join of two states, give the join of what they give
on each, whichever names the states have; and on a larger state they give a larger one. -/
theorem transferAll_distributes (ctx : Context) (instructions : List Instruction) :
    (∀ s t : DefMap, (analysis ctx).transferAll instructions (join s t) =
      join ((analysis ctx).transferAll instructions s)
        ((analysis ctx).transferAll instructions t)) ∧
    ∀ s t : DefMap, NameMap.AtMost PointSet.Within s t →
      NameMap.AtMost PointSet.Within ((analysis ctx).transferAll instructions s)
        ((analysis ctx).transferAll instructions t) := by
  have order := @NameMap.below_iff_atMost PointSet _ _ _ PointSet.below_iff_within
  refine ⟨transferAll_join ctx instructions, fun s t smaller => ?_⟩
  have below : Below s t := (order s t).2 smaller
  exact (order _ _).1 (below.of_distributive (transferAll_join ctx instructions))

/-- A store through a pointer to the counter, met in a state that does not follow the pointer and in
one that does: the larger state stays the larger one, and the counter has the store's point. -/
theorem transferAll_distributes_countdown :
    ∃ (ctx : Context) (s t : DefMap),
      Context.build (Program.empty.define countdown) "test" = .ok ctx ∧ "p" ∉ s ∧ "p" ∈ t ∧
      NameMap.AtMost PointSet.Within s t ∧
      NameMap.AtMost PointSet.Within
        ((analysis ctx).transferAll [.op "loop" 0 (.store "p" (.const 3))] s)
        ((analysis ctx).transferAll [.op "loop" 0 (.store "p" (.const 3))] t) ∧
      Point.op "loop" 0 ∈
        DefMap.points ((analysis ctx).transferAll [.op "loop" 0 (.store "p" (.const 3))] s) "i" := by
  let ctx := Context.ofFunction (Program.empty.define countdown) countdown
  let s : DefMap := (∅ : DefMap).insert "i" {.op "entry" 0}
  have fresh : "p" ∉ s := by decide +kernel
  have smaller : NameMap.AtMost PointSet.Within s (s.insert "p" ∅) :=
    (NameMap.atMost_insert (fun _ _ member => member) fresh _).1
  exact ⟨ctx, s, s.insert "p" ∅, Context.build_eq_ok (by decide +kernel) (by decide +kernel), fresh,
    by decide +kernel, smaller, (transferAll_distributes ctx _).2 s _ smaller, by decide +kernel⟩

end Reaching

end Lir
