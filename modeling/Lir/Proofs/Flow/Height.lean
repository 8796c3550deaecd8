import Lir.Proofs.Counting
import Lir.Proofs.Flow.Join

/-!
Joins that cannot grow a value forever.

A rank that rises whenever a join makes a value grow, and never passes a height, bounds how often
the value can grow. Sets over a fixed list have one, and so have maps over a fixed list of keys
whose values do.
-/

set_option autoImplicit false

namespace Lir

/-- Ranked values, which a join does not leave and whose rank a growth raises. -/
structure Ranked (α : Type) [Join α] (height : Nat) where
  possible : α → Prop
  rank : α → Nat
  joined {s t : α} : possible s → possible t → possible (join s t)
  bounded {s : α} : possible s → rank s ≤ height
  grows {s t : α} : possible s → possible t → join s t ≠ s → rank s < rank (join s t)

namespace Ranked

def weaken {α : Type} [Join α] {height larger : Nat} (values : Ranked α height)
    (le : height ≤ larger) : Ranked α larger :=
  { values with bounded := fun possible => (values.bounded possible).trans le }

theorem rank_le_join {α : Type} [Join α] {height : Nat} (values : Ranked α height)
    {s t : α} (left : values.possible s) (right : values.possible t) :
    values.rank s ≤ values.rank (join s t) := by
  by_cases same : join s t = s
  · rw [same]
  · exact (values.grows left right same).le

section

variable {κ : Type} [Ord κ] [Std.TransOrd κ] [Std.LawfulEqOrd κ]

theorem exists_new_of_join_ne {s t : Std.ExtTreeSet κ} (grew : join s t ≠ s) :
    ∃ member ∈ t, member ∉ s := by
  refine Classical.byContradiction fun none_new => grew (Std.ExtTreeSet.ext_mem fun member => ?_)
  rw [mem_join_set]
  refine or_iff_left_of_imp fun added => Classical.byContradiction fun absent => ?_
  exact none_new ⟨member, added, absent⟩

def set (listed : List κ) : Ranked (Std.ExtTreeSet κ) listed.length where
  possible s := ∀ member ∈ s, member ∈ listed
  rank s := countIn listed s
  joined left right member joined :=
    ((mem_join_set _ _ member).1 joined).elim (left member) (right member)
  bounded _ := countIn_le_length listed _
  grows {s t} _ right grew := by
    obtain ⟨extra, added, absent⟩ := exists_new_of_join_ne grew
    exact countIn_lt (fun member old => (mem_join_set s t member).2 (.inl old))
      (right extra added) ((mem_join_set s t extra).2 (.inr added)) absent

end

section

variable {κ α : Type} [Ord κ] [Std.TransOrd κ] [Join α] {height : Nat}

/-- A key counts when it enters the map, and then with the rank of its value. -/
def rankAt (values : Ranked α height) (m : Std.ExtTreeMap κ α) (key : κ) : Nat :=
  m[key]?.elim 0 fun value => 1 + values.rank value

theorem rankAt_le (values : Ranked α height) {m : Std.ExtTreeMap κ α}
    (possible : ∀ (key : κ) (value : α), m[key]? = some value → values.possible value) (key : κ) :
    values.rankAt m key ≤ 1 + height := by
  unfold rankAt
  cases found : m[key]? with
  | none => exact Nat.zero_le _
  | some value => exact Nat.add_le_add_left (values.bounded (possible key value found)) 1

variable [Std.LawfulEqOrd κ] [DecidableEq κ] [LawfulJoin α]

theorem rankAt_join (values : Ranked α height) {s t : Std.ExtTreeMap κ α}
    (left : ∀ (key : κ) (value : α), s[key]? = some value → values.possible value)
    (right : ∀ (key : κ) (value : α), t[key]? = some value → values.possible value) (key : κ) :
    values.rankAt s key ≤ values.rankAt (join s t) key ∧
      ((join s t)[key]? ≠ s[key]? → values.rankAt s key < values.rankAt (join s t) key) := by
  simp only [rankAt, getElem?_join]
  cases old : s[key]? with
  | none => cases t[key]? <;> simp
  | some value =>
    cases added : t[key]? with
    | none => simp
    | some other =>
      have value_possible := left key value old
      have other_possible := right key other added
      refine ⟨Nat.add_le_add_left (values.rank_le_join value_possible other_possible) 1, ?_⟩
      intro grew
      exact Nat.add_lt_add_left (values.grows value_possible other_possible
        fun same => grew (congrArg some same)) 1

def map (values : Ranked α height) (keys : List κ) :
    Ranked (Std.ExtTreeMap κ α) (keys.length * (1 + height)) where
  possible m := (∀ key ∈ m, key ∈ keys) ∧
    ∀ (key : κ) (value : α), m[key]? = some value → values.possible value
  rank m := (keys.map (values.rankAt m)).sum
  joined {s t} left right := by
    constructor
    · intro key member
      rw [mem_map_iff, getElem?_join] at member
      obtain ⟨value, found⟩ := member
      cases old : s[key]? with
      | some _ => exact left.1 key ((mem_map_iff s key).2 ⟨_, old⟩)
      | none =>
        rw [old, Option.merge_none_left] at found
        exact right.1 key ((mem_map_iff t key).2 ⟨value, found⟩)
    · intro key value found
      rw [getElem?_join] at found
      cases old : s[key]? with
      | none =>
        rw [old, Option.merge_none_left] at found
        exact right.2 key value found
      | some first =>
        cases added : t[key]? with
        | none =>
          rw [old, added, Option.merge_none_right] at found
          exact left.2 key value (old.trans found)
        | some second =>
          rw [old, added] at found
          exact Option.some.inj found ▸
            values.joined (left.2 key first old) (right.2 key second added)
  bounded {m} possible := by
    have bound := List.sum_le_card_nsmul (keys.map (values.rankAt m)) (1 + height) (by
      intro rank member
      obtain ⟨key, _, rfl⟩ := List.mem_map.1 member
      exact values.rankAt_le possible.2 key)
    simpa using bound
  grows {s t} left right grew := by
    obtain ⟨key, changed⟩ : ∃ key : κ, (join s t)[key]? ≠ s[key]? :=
      Classical.not_forall.1 fun same => grew (Std.ExtTreeMap.ext_getElem? same)
    have listed : key ∈ keys := by
      cases added : t[key]? with
      | some value => exact right.1 key ((mem_map_iff t key).2 ⟨value, added⟩)
      | none =>
        rw [getElem?_join, added, Option.merge_none_right] at changed
        exact absurd rfl changed
    apply List.sum_lt_sum
    · exact fun other _ => (values.rankAt_join left.2 right.2 other).1
    · exact ⟨key, listed, (values.rankAt_join left.2 right.2 key).2 changed⟩

end

end Ranked

end Lir
