import Lir.Proofs.Constants.Monotone
import Lir.Reaching

/-!
The states of both analyses as join semilattices.

The orders are given without joins: sets by inclusion, values from nothing over one constant to
anything, and maps name by name, where a missing name lies strictly below every value. Joining gives
least upper bounds in them, and absorbing a state is joining it.
-/

set_option autoImplicit false

namespace Lir

/-- Joining gives the least upper bounds of a partial order, and absorbing gives the join together
with whether it is a new value. -/
structure JoinsBy (α : Type) [Join α] (le : α → α → Prop) : Prop where
  refl (a : α) : le a a
  antisymm {a b : α} (first : le a b) (second : le b a) : a = b
  trans {a b c : α} (first : le a b) (second : le b c) : le a c
  assoc (a b c : α) : join (join a b) c = join a (join b c)
  comm (a b : α) : join a b = join b a
  self (a : α) : join a a = a
  above_left (a b : α) : le a (join a b)
  above_right (a b : α) : le b (join a b)
  least {a b c : α} (first : le a c) (second : le b c) : le (join a b) c
  absorbed (a b : α) : (absorb a b).1 = join a b
  grew (a b : α) : (absorb a b).2 = true ↔ join a b ≠ a

def PointSet.Within (s t : PointSet) : Prop := ∀ point ∈ s, point ∈ t

def FlatInt.AtMost (a b : FlatInt) : Prop := a = .bottom ∨ a = b ∨ b = .top

/-- The order of what two maps have under one name: a missing value lies below every value, and no
value lies below a missing one. -/
inductive EntryAtMost {α : Type} (le : α → α → Prop) : Option α → Option α → Prop where
  | missing (entry : Option α) : EntryAtMost le none entry
  | value {a b : α} (below : le a b) : EntryAtMost le (some a) (some b)

namespace NameMap

variable {α : Type}

def AtMost (le : α → α → Prop) (s t : NameMap α) : Prop :=
  ∀ name : String, EntryAtMost le (s[name]? : Option α) t[name]?

/-- A map without a name lies strictly below the map with any value for it. -/
theorem atMost_insert {le : α → α → Prop} (refl : ∀ value, le value value) {s : NameMap α}
    {name : String} (missing : name ∉ s) (value : α) :
    AtMost le s (s.insert name value) ∧ ¬ AtMost le (s.insert name value) s := by
  have absent : s[name]? = none := Std.ExtTreeMap.getElem?_eq_none missing
  constructor
  · intro other
    rw [getElem?_insert_map]
    split
    next same => exact same ▸ absent ▸ .missing _
    next =>
      cases s[other]? with
      | none => exact .missing none
      | some old => exact .value (refl old)
  · intro claimed
    have at_name := claimed name
    rw [getElem?_insert_map, if_pos rfl, absent] at at_name
    cases at_name

theorem below_iff_atMost [Join α] [LawfulJoin α] {le : α → α → Prop}
    (order : ∀ a b : α, Below a b ↔ le a b) (s t : NameMap α) : Below s t ↔ AtMost le s t := by
  rw [below_map_iff]
  constructor
  · intro below name
    cases found : (s[name]? : Option α) with
    | none => exact .missing _
    | some value =>
      obtain ⟨above, there, grown⟩ := below name value found
      rw [there]
      exact .value ((order value above).1 grown)
  · intro all name value found
    have at_name := all name
    rw [found] at at_name
    generalize there : (t[name]? : Option α) = entry at at_name
    cases at_name with
    | @value _ above grown => exact ⟨above, rfl, (order value above).2 grown⟩

end NameMap

theorem PointSet.below_iff_within (s t : PointSet) : Below s t ↔ s.Within t := by
  unfold Below
  constructor
  · intro taken point member
    rw [← taken, mem_join_set]
    exact .inr member
  · intro within
    apply Std.ExtTreeSet.ext_mem
    intro point
    rw [mem_join_set]
    exact or_iff_left_of_imp (within point)

/-- Every lawful join gives least upper bounds of the order that it makes. -/
theorem joinsBy_of_below {α : Type} [Join α] [LawfulJoin α] {le : α → α → Prop}
    (order : ∀ a b : α, Below a b ↔ le a b) : JoinsBy α le where
  refl a := (order a a).1 (Below.refl a)
  antisymm first second := ((order _ _).2 first).antisymm ((order _ _).2 second)
  trans first second := (order _ _).1 (((order _ _).2 first).trans ((order _ _).2 second))
  assoc := join_assoc
  comm := join_comm
  self := join_self
  above_left a b := (order _ _).1 (below_join_left a b)
  above_right a b := (order _ _).1 (below_join_right a b)
  least first second := (order _ _).1 (((order _ _).2 first).join ((order _ _).2 second))
  absorbed := absorb_fst
  grew := absorb_snd

/-- Sets of points, states of reaching definitions and states of constants are join semilattices in
their orders, where a name that a state lacks lies strictly below every value; absorbing gives the
join, and says whether it is a new state. -/
theorem states_join_by_order :
    JoinsBy PointSet PointSet.Within ∧
    JoinsBy DefMap (NameMap.AtMost PointSet.Within) ∧
    JoinsBy ConstEnv (NameMap.AtMost FlatInt.AtMost) ∧
    (∀ (s : DefMap) (name : String) (points : PointSet), name ∉ s →
      NameMap.AtMost PointSet.Within s (s.insert name points) ∧
        ¬ NameMap.AtMost PointSet.Within (s.insert name points) s) ∧
    ∀ (s : ConstEnv) (name : String) (value : FlatInt), name ∉ s →
      NameMap.AtMost FlatInt.AtMost s (s.insert name value) ∧
        ¬ NameMap.AtMost FlatInt.AtMost (s.insert name value) s := by
  have sets : JoinsBy PointSet PointSet.Within := joinsBy_of_below PointSet.below_iff_within
  have values : JoinsBy FlatInt FlatInt.AtMost := joinsBy_of_below FlatInt.below_iff
  refine ⟨sets, ?_, ?_, ?_, ?_⟩
  · exact joinsBy_of_below (NameMap.below_iff_atMost PointSet.below_iff_within)
  · exact joinsBy_of_below (NameMap.below_iff_atMost FlatInt.below_iff)
  · intro s name points missing
    exact NameMap.atMost_insert sets.refl missing points
  · intro s name value missing
    exact NameMap.atMost_insert values.refl missing value

end Lir
