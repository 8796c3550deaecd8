import Lir.Sorted
import Mathlib.Algebra.GroupWithZero.Nat
import Mathlib.Algebra.Order.BigOperators.Group.List
import Mathlib.Algebra.Order.Group.Nat

/-!
Members of a set counted over a fixed list.

The list holds everything that may ever come into the set, so that a set that grows or shrinks
changes its count and no count passes the length of the list.
-/

set_option autoImplicit false

namespace Lir

variable {κ : Type} [Ord κ] [Std.TransOrd κ]

def countIn (listed : List κ) (set : Std.ExtTreeSet κ) : Nat :=
  (listed.map fun member => if member ∈ set then 1 else 0).sum

theorem countIn_le_length (listed : List κ) (set : Std.ExtTreeSet κ) :
    countIn listed set ≤ listed.length := by
  induction listed with
  | nil => simp [countIn]
  | cons member rest ih =>
    simp only [countIn, List.map_cons, List.sum_cons, List.length_cons] at ih ⊢
    split <;> omega

theorem countIn_mono {listed : List κ} {smaller larger : Std.ExtTreeSet κ}
    (subset : ∀ member ∈ smaller, member ∈ larger) :
    countIn listed smaller ≤ countIn listed larger := by
  apply List.sum_le_sum
  intro member _
  by_cases held : member ∈ smaller
  · simp [held, subset member held]
  · simp [held]

theorem countIn_lt {listed : List κ} {smaller larger : Std.ExtTreeSet κ}
    (subset : ∀ member ∈ smaller, member ∈ larger) {extra : κ} (extra_listed : extra ∈ listed)
    (extra_larger : extra ∈ larger) (extra_smaller : extra ∉ smaller) :
    countIn listed smaller < countIn listed larger := by
  apply List.sum_lt_sum
  · intro member _
    by_cases held : member ∈ smaller
    · simp [held, subset member held]
    · simp [held]
  · exact ⟨extra, extra_listed, by simp [extra_larger, extra_smaller]⟩

/-- What the members outside a set weigh drops by the weight of a member that joins it. -/
theorem sum_unseen_insert [Std.LawfulEqOrd κ] (weight : κ → Nat) {listed : List κ}
    (nodup : listed.Nodup) {seen : Std.ExtTreeSet κ} {target : κ} (member : target ∈ listed)
    (fresh : target ∉ seen) :
    (listed.map fun other => if other ∈ seen.insert target then 0 else weight other).sum +
        weight target =
      (listed.map fun other => if other ∈ seen then 0 else weight other).sum := by
  induction listed with
  | nil => simp at member
  | cons first rest ih =>
    obtain ⟨absent, nodup⟩ := List.nodup_cons.1 nodup
    simp only [List.map_cons, List.sum_cons]
    by_cases here : first = target
    · subst here
      have rest_same : (rest.map fun other => if other ∈ seen.insert first then 0 else weight other) =
          rest.map fun other => if other ∈ seen then 0 else weight other := by
        apply List.map_congr_left
        intro other inRest
        have different : other ≠ first := fun same => absent (same ▸ inRest)
        simp only [mem_insert_set, different, false_or]
      rw [rest_same, if_pos ((mem_insert_set seen first first).2 (.inl rfl)), if_neg fresh]
      omega
    · have later := ih nodup ((List.mem_cons.1 member).resolve_left (Ne.symm here))
      have first_same : first ∈ seen.insert target ↔ first ∈ seen := by
        rw [mem_insert_set, or_iff_right here]
      simp only [first_same]
      omega

end Lir
