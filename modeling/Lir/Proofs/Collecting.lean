import Lir.Sorted

/-!
Searches that collect what a start leads to.

Members wait in a list and are taken off its front. One that is new and allowed is collected, and
what is inside it waits; any other is dropped. Whatever the order in which members wait, nothing is
collected that the start does not lead to, and once none waits what is inside a collected member
is collected too.
-/

set_option autoImplicit false

namespace Lir

variable {κ : Type} [Ord κ] [Std.TransOrd κ]

structure Collecting (inside : κ → List κ) (allowed reached : κ → Prop) (start : κ)
    (waiting : List κ) (seen : Std.ExtTreeSet κ) : Prop where
  started : allowed start → start ∈ seen ∨ start ∈ waiting
  reached_waiting : ∀ member ∈ waiting, allowed member → reached member
  reached_seen : ∀ member ∈ seen, reached member
  followed : ∀ member ∈ seen, ∀ part ∈ inside member, allowed part → part ∈ seen ∨ part ∈ waiting

variable {inside : κ → List κ} {allowed reached : κ → Prop} {start first : κ} {rest next : List κ}
  {seen : Std.ExtTreeSet κ}

theorem collecting_start (start_reached : allowed start → reached start) :
    Collecting inside allowed reached start [start] ∅ where
  started _ := .inr (List.mem_singleton.2 rfl)
  reached_waiting member waits is_allowed := by
    obtain rfl := List.mem_singleton.1 waits
    exact start_reached is_allowed
  reached_seen _ member := absurd member Std.ExtTreeSet.not_mem_empty
  followed _ member := absurd member Std.ExtTreeSet.not_mem_empty

namespace Collecting

theorem drop (collecting : Collecting inside allowed reached start (first :: rest) seen)
    (known : allowed first → first ∈ seen) :
    Collecting inside allowed reached start rest seen := by
  have still : ∀ member, allowed member → member ∈ seen ∨ member ∈ first :: rest →
      member ∈ seen ∨ member ∈ rest := by
    rintro member is_allowed (found | waits)
    · exact .inl found
    · rcases List.mem_cons.1 waits with rfl | later
      · exact .inl (known is_allowed)
      · exact .inr later
  exact ⟨fun is_allowed => still start is_allowed (collecting.started is_allowed),
    fun member waits => collecting.reached_waiting member (List.mem_cons_of_mem _ waits),
    collecting.reached_seen,
    fun member found part within is_allowed =>
      still part is_allowed (collecting.followed member found part within is_allowed)⟩

variable [Std.LawfulEqOrd κ]

theorem enter (collecting : Collecting inside allowed reached start (first :: rest) seen)
    (is_allowed : allowed first)
    (leads : ∀ part ∈ inside first, allowed part → reached first → reached part)
    (waits_next : ∀ member, member ∈ next ↔ member ∈ inside first ∨ member ∈ rest) :
    Collecting inside allowed reached start next (seen.insert first) := by
  have first_reached := collecting.reached_waiting first List.mem_cons_self is_allowed
  have still : ∀ member, member ∈ seen ∨ member ∈ first :: rest →
      member ∈ seen.insert first ∨ member ∈ next := by
    rintro member (found | waits)
    · exact .inl ((mem_insert_set seen first member).2 (.inr found))
    · rcases List.mem_cons.1 waits with same | later
      · exact .inl ((mem_insert_set seen first member).2 (.inl same))
      · exact .inr ((waits_next member).2 (.inr later))
  refine ⟨fun start_allowed => still start (collecting.started start_allowed), ?_, ?_, ?_⟩
  · intro member waits member_allowed
    rcases (waits_next member).1 waits with within | later
    · exact leads member within member_allowed first_reached
    · exact collecting.reached_waiting member (List.mem_cons_of_mem _ later) member_allowed
  · intro member found
    rcases (mem_insert_set seen first member).1 found with rfl | before
    · exact first_reached
    · exact collecting.reached_seen member before
  · intro member found part within part_allowed
    rcases (mem_insert_set seen first member).1 found with rfl | before
    · exact .inr ((waits_next part).2 (.inl within))
    · exact still part (collecting.followed member before part within part_allowed)

end Collecting

end Lir
