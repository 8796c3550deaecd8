import Lir.Flow.Join

/-!
Laws of joins.

Joining is associative, commutative and idempotent, and absorbing gives the join together with
whether it is a new value. Sets have these laws, and so have maps whose values do, since a join of
maps is found key by key.
-/

set_option autoImplicit false

namespace Lir

class LawfulJoin (α : Type) [Join α] : Prop where
  join_assoc (a b c : α) : join (join a b) c = join a (join b c)
  join_comm (a b : α) : join a b = join b a
  join_self (a : α) : join a a = a
  absorb_fst (a b : α) : (absorb a b).1 = join a b
  absorb_snd (a b : α) : (absorb a b).2 = true ↔ join a b ≠ a

export LawfulJoin (join_assoc join_comm join_self absorb_fst absorb_snd)

section

variable {α : Type} [Join α] [LawfulJoin α]

theorem join_join_right (a b : α) : join (join a b) b = join a b := by
  rw [join_assoc, join_self]

theorem join_join_of_join_eq {a b : α} (included : join a b = a) (c : α) :
    join (join a c) b = join a c := by
  rw [join_assoc, join_comm c b, ← join_assoc, included]

instance : Std.Associative (join : α → α → α) := ⟨join_assoc⟩

instance : Std.Commutative (join : α → α → α) := ⟨join_comm⟩

instance : Std.IdempotentOp (join : α → α → α) := ⟨join_self⟩

theorem merge_join_self (a : Option α) (b : α) :
    Option.merge join (Option.merge join a (some b)) (some b) = Option.merge join a (some b) := by
  cases a with
  | none => exact congrArg some (join_self b)
  | some a => exact congrArg some (join_join_right a b)

end

/-! ### Sets -/

section

variable {κ : Type} [Ord κ] [Std.TransOrd κ]

theorem mem_join_set (s t : Std.ExtTreeSet κ) (member : κ) :
    member ∈ join s t ↔ member ∈ s ∨ member ∈ t :=
  Std.ExtTreeSet.mem_union_iff

variable [Std.LawfulEqOrd κ]

theorem mem_foldl_insert (members : List κ) (s : Std.ExtTreeSet κ) (member : κ) :
    member ∈ members.foldl (fun set member => set.insert member) s ↔
      member ∈ s ∨ member ∈ members := by
  induction members generalizing s with
  | nil => simp
  | cons first rest ih =>
    rw [List.foldl_cons, ih, mem_insert_set, List.mem_cons, or_assoc, or_left_comm]

theorem absorb_set_fst (s t : Std.ExtTreeSet κ) : (absorb s t).1 = join s t := by
  apply Std.ExtTreeSet.ext_mem
  intro member
  rw [mem_join_set]
  exact (mem_foldl_insert t.toList s member).trans (or_congr_right Std.ExtTreeSet.mem_toList)

/-- A new member makes the union larger, so its size tells whether the set grew. -/
theorem size_join_set_eq_iff (s t : Std.ExtTreeSet κ) : (join s t).size = s.size ↔ join s t = s := by
  constructor
  · intro same
    apply Std.ExtTreeSet.ext_mem
    intro member
    rw [mem_join_set]
    refine or_iff_left_of_imp fun added => Classical.byContradiction fun fresh => ?_
    have grown : s.size < (join s t).size :=
      size_lt_size (fun other held => (mem_join_set s t other).2 (.inl held))
        ((mem_join_set s t member).2 (.inr added)) fresh
    omega
  · exact fun same => congrArg _ same

instance : LawfulJoin (Std.ExtTreeSet κ) where
  join_assoc a b c := Std.ExtTreeSet.ext_mem fun member => by
    simp only [mem_join_set, or_assoc]
  join_comm a b := Std.ExtTreeSet.ext_mem fun member => by
    rw [mem_join_set, mem_join_set, or_comm]
  join_self a := Std.ExtTreeSet.ext_mem fun member => by
    rw [mem_join_set, or_self]
  absorb_fst := absorb_set_fst
  absorb_snd a b := by
    have size : (absorb a b).2 = ((absorb a b).1.size != a.size) := rfl
    rw [size, absorb_set_fst, bne_iff_ne, ne_eq, size_join_set_eq_iff]

end

/-! ### Maps -/

namespace Join

variable {κ α : Type} [Ord κ] [Std.TransOrd κ] [Join α] [LawfulJoin α]

theorem absorbEntry_snd (state : Std.ExtTreeMap κ α × Bool) (entry : κ × α) :
    (absorbEntry state entry).2 = true ↔ state.2 = true ∨
      Option.merge join state.1[entry.1]? (some entry.2) ≠ state.1[entry.1]? := by
  rw [absorbEntry]
  cases found : state.1[entry.1]? <;> simp [absorb_snd]

variable [Std.LawfulEqOrd κ] [DecidableEq κ]

theorem getElem?_absorbEntry (state : Std.ExtTreeMap κ α × Bool) (entry : κ × α) (key : κ) :
    (absorbEntry state entry).1[key]? =
      if entry.1 = key then Option.merge join state.1[key]? (some entry.2) else state.1[key]? := by
  obtain ⟨added, value⟩ := entry
  rw [absorbEntry]
  by_cases same : added = key
  · subst same
    cases state.1[added]? <;> simp [absorb_fst]
  · cases state.1[added]? <;> simp [same, getElem?_insert_map]

theorem foldl_absorbEntry {entries : List (κ × α)} (distinct : (entries.map Prod.fst).Nodup)
    (state : Std.ExtTreeMap κ α × Bool) :
    (∀ entry ∈ entries, (entries.foldl absorbEntry state).1[entry.1]? =
      Option.merge join state.1[entry.1]? (some entry.2)) ∧
    (∀ key : κ, key ∉ entries.map Prod.fst →
      (entries.foldl absorbEntry state).1[key]? = state.1[key]?) ∧
    ((entries.foldl absorbEntry state).2 = true ↔ state.2 = true ∨ ∃ entry ∈ entries,
      Option.merge join state.1[entry.1]? (some entry.2) ≠ state.1[entry.1]?) := by
  induction entries generalizing state with
  | nil => simp
  | cons first rest ih =>
    obtain ⟨fresh, distinct⟩ := List.nodup_cons.1 distinct
    obtain ⟨joined, kept, grew⟩ := ih distinct (absorbEntry state first)
    have other : ∀ entry ∈ rest, first.1 ≠ entry.1 := fun entry member same =>
      fresh (same ▸ List.mem_map_of_mem member)
    have unchanged : ∀ entry ∈ rest,
        (absorbEntry state first).1[entry.1]? = state.1[entry.1]? := fun entry member => by
      rw [getElem?_absorbEntry, if_neg (other entry member)]
    simp only [List.foldl_cons, List.map_cons, List.mem_cons, forall_eq_or_imp, not_or,
      exists_eq_or_imp]
    refine ⟨⟨?_, ?_⟩, ?_, ?_⟩
    · rw [kept first.1 fresh, getElem?_absorbEntry, if_pos rfl]
    · intro entry member
      rw [joined entry member, unchanged entry member]
    · rintro key ⟨different, absent⟩
      rw [kept key absent, getElem?_absorbEntry, if_neg (Ne.symm different)]
    · rw [grew, absorbEntry_snd, or_assoc]
      refine or_congr_right (or_congr_right (exists_congr fun entry => and_congr_right ?_))
      intro member
      rw [unchanged entry member]

theorem absorbMap_spec (s t : Std.ExtTreeMap κ α) :
    (∀ key : κ, (absorbMap s t).1[key]? = Option.merge join s[key]? t[key]?) ∧
    ((absorbMap s t).2 = true ↔ ∃ key : κ, Option.merge join s[key]? t[key]? ≠ s[key]?) := by
  obtain ⟨joined, kept, grew⟩ := foldl_absorbEntry (nodup_keys_toList t) (s, false)
  have listed : ∀ key value, (key, value) ∈ t.toList ↔ t[key]? = some value := fun _ _ =>
    Std.ExtTreeMap.mem_toList_iff_getElem?_eq_some
  constructor
  · intro key
    cases found : t[key]? with
    | some value => exact joined (key, value) ((listed key value).2 found)
    | none =>
      rw [Option.merge_none_right]
      refine kept key fun member => ?_
      obtain ⟨⟨_, value⟩, inList, rfl⟩ := List.mem_map.1 member
      rw [(listed _ value).1 inList] at found
      exact Option.some_ne_none _ found
  · rw [absorbMap, grew]
    constructor
    · rintro (absurd_flag | ⟨⟨key, value⟩, member, changed⟩)
      · exact absurd absurd_flag Bool.false_ne_true
      · exact ⟨key, (listed key value).1 member ▸ changed⟩
    · rintro ⟨key, changed⟩
      cases found : t[key]? with
      | none => simp [found] at changed
      | some value => exact .inr ⟨(key, value), (listed key value).2 found, found ▸ changed⟩

end Join

section

variable {κ α : Type} [Ord κ] [Std.TransOrd κ] [Std.LawfulEqOrd κ] [DecidableEq κ]
variable [Join α] [LawfulJoin α]

theorem getElem?_join (s t : Std.ExtTreeMap κ α) (key : κ) :
    (join s t)[key]? = Option.merge join s[key]? t[key]? :=
  (Join.absorbMap_spec s t).1 key

instance : LawfulJoin (Std.ExtTreeMap κ α) where
  join_assoc a b c := Std.ExtTreeMap.ext_getElem? fun key => by
    simp only [getElem?_join, Std.Associative.assoc]
  join_comm a b := Std.ExtTreeMap.ext_getElem? fun key => by
    rw [getElem?_join, getElem?_join]
    exact Std.Commutative.comm _ _
  join_self a := Std.ExtTreeMap.ext_getElem? fun key => by
    rw [getElem?_join]
    exact Std.IdempotentOp.idempotent _
  absorb_fst _ _ := rfl
  absorb_snd a b := by
    refine (Join.absorbMap_spec a b).2.trans ?_
    simp only [← getElem?_join]
    simp only [ne_eq, ← Classical.not_forall]
    exact not_congr ⟨Std.ExtTreeMap.ext_getElem?, fun same key => by rw [same]⟩

end

end Lir
