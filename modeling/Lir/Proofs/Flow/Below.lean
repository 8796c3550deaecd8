import Lir.Proofs.Flow.Join

/-!
The order of joins.

A value is below another if joining it adds nothing. The join of two values is the least value above
both. A map is below another if the other has all its keys, with values above its own.
-/

set_option autoImplicit false

namespace Lir

/-- The second value has taken in the first. -/
def Below {α : Type} [Join α] (a b : α) : Prop := join b a = b

theorem Below.of_distributive {α : Type} [Join α] {run : α → α}
    (distributive : ∀ a b, run (join a b) = join (run a) (run b)) {a b : α} (below : Below a b) :
    Below (run a) (run b) := by
  unfold Below at below ⊢
  rw [← distributive, below]

section

variable {α : Type} [Join α] [LawfulJoin α] {a b c : α}

theorem Below.refl (a : α) : Below a a := join_self a

theorem Below.antisymm (first : Below a b) (second : Below b a) : a = b := by
  unfold Below at first second
  rw [← second, join_comm, first]

theorem Below.trans (first : Below a b) (second : Below b c) : Below a c := by
  unfold Below at first second ⊢
  rw [← second, join_assoc, first]

theorem below_join_left (a b : α) : Below a (join a b) := by
  unfold Below
  rw [join_comm a b, join_join_right]

theorem below_join_right (a b : α) : Below b (join a b) := join_join_right a b

theorem Below.join (first : Below a c) (second : Below b c) : Below (join a b) c := by
  unfold Below at first second ⊢
  rw [← join_assoc, first, second]

theorem Below.join_mono {d : α} (first : Below a b) (second : Below c d) :
    Below (Lir.join a c) (Lir.join b d) :=
  (first.trans (below_join_left b d)).join (second.trans (below_join_right b d))

end

section

variable {κ α : Type} [Ord κ] [Std.TransOrd κ] [Std.LawfulEqOrd κ] [DecidableEq κ]
variable [Join α] [LawfulJoin α]

theorem below_map_iff (s t : Std.ExtTreeMap κ α) :
    Below s t ↔ ∀ (key : κ) (value : α), s[key]? = some value →
      ∃ above, t[key]? = some above ∧ Below value above := by
  unfold Below
  constructor
  · intro taken key value found
    have merged := getElem?_join t s key
    rw [taken, found] at merged
    cases there : t[key]? with
    | none => simp [there] at merged
    | some above =>
      rw [there] at merged
      exact ⟨above, rfl, (Option.some.inj merged).symm⟩
  · intro all
    apply Std.ExtTreeMap.ext_getElem?
    intro key
    rw [getElem?_join]
    cases found : s[key]? with
    | none => exact Option.merge_none_right
    | some value =>
      obtain ⟨above, there, below⟩ := all key value found
      rw [there]
      exact congrArg some below

theorem Below.mem {s t : Std.ExtTreeMap κ α} (below : Below s t) {key : κ} (member : key ∈ s) :
    key ∈ t := by
  obtain ⟨value, found⟩ := (mem_map_iff s key).1 member
  obtain ⟨above, there, _⟩ := (below_map_iff s t).1 below key value found
  exact (mem_map_iff t key).2 ⟨above, there⟩

end

end Lir
