import Lir.Proofs.Constants.Flat
import Lir.Proofs.Flow.Solver
import Lir.Proofs.Memory

/-!
What instructions do to the values of the names that are followed.

An assignment is the only thing that makes a name followed, and it follows integers and undeclared
names only. This bounds how often a state can grow, so constant propagation ends.
-/

set_option autoImplicit false

namespace Lir

namespace ConstEnv

theorem getElem?_joinAll (s : ConstEnv) (names : NameSet) (value : FlatInt) (name : String) :
    (joinAll s names value)[name]? =
      if name ∈ names then s[name]?.map (join · value) else s[name]? := by
  have step_eq : ∀ (s : NameMap FlatInt) (name other : String), (joinInto value s name)[other]? =
      if name = other then s[other]?.map (join · value) else s[other]? := by
    intro s name other
    rw [joinInto]
    by_cases same : name = other
    · subst same
      cases found : s[name]? <;> simp [found]
    · cases s[name]? <;> simp [same, getElem?_insert_map]
  refine (getElem?_foldl_change (fun old => join_join_right old value) step_eq names.toList s
    name).trans ?_
  simp only [Std.ExtTreeSet.mem_toList]

theorem getElem?_forgetAll (s : ConstEnv) (names : NameSet) (name : String) :
    (forgetAll s names)[name]? =
      if name ∈ names then s[name]?.map (fun _ => .top) else s[name]? := by
  have step_eq : ∀ (s : NameMap FlatInt) (name other : String), (forgetName s name)[other]? =
      if name = other then s[other]?.map (fun _ => .top) else s[other]? := by
    intro s name other
    rw [forgetName]
    by_cases same : name = other
    · subst same
      cases found : s[name]? <;> simp [found]
    · cases s[name]? <;> simp [same, getElem?_insert_map]
  refine (@getElem?_foldl_change FlatInt forgetName (fun _ => .top) (fun _ => rfl) step_eq
    names.toList s name).trans ?_
  simp only [Std.ExtTreeSet.mem_toList]

theorem mem_joinAll (s : ConstEnv) (names : NameSet) (value : FlatInt) (name : String) :
    name ∈ joinAll s names value ↔ name ∈ s := by
  rw [mem_map_iff, mem_map_iff, getElem?_joinAll]
  cases s[name]? <;> split <;> simp

theorem mem_forgetAll (s : ConstEnv) (names : NameSet) (name : String) :
    name ∈ forgetAll s names ↔ name ∈ s := by
  rw [mem_map_iff, mem_map_iff, getElem?_forgetAll]
  cases s[name]? <;> split <;> simp

end ConstEnv

namespace Constants

variable {ctx : Context}

theorem getElem?_assign (ctx : Context) (s : ConstEnv) (dst : String) (value : FlatInt)
    (name : String) :
    (assign ctx s dst value)[name]? =
      if tracks ctx dst = true ∧ dst = name then some value else s[name]? := by
  rw [assign]
  split
  next tracked => simp [tracked, getElem?_insert_map]
  next untracked => simp [untracked]

theorem mem_assign {s : ConstEnv} {dst : String} {value : FlatInt} {name : String}
    (member : name ∈ assign ctx s dst value) : name ∈ s ∨ dst = name ∧ tracks ctx name = true := by
  rw [mem_map_iff, getElem?_assign] at member
  split at member
  next assigned => exact .inr ⟨assigned.2, assigned.2 ▸ assigned.1⟩
  next => exact .inl ((mem_map_iff s name).2 member)

theorem mem_transfer {inst : Instruction} {s : ConstEnv} {name : String}
    (member : name ∈ transfer ctx inst s) :
    name ∈ s ∨ inst.def? = some name ∧ tracks ctx name = true := by
  have assigned : ∀ {dst : String} {value : FlatInt} {s : ConstEnv}, name ∈ assign ctx s dst value →
      name ∈ s ∨ some dst = some name ∧ tracks ctx name = true := fun member =>
    (mem_assign member).imp_right fun ⟨same, tracked⟩ => ⟨congrArg some same, tracked⟩
  cases inst with
  | term _ _ => exact .inl member
  | op block index operation =>
    cases operation with
    | copy dst src =>
      rw [transfer] at member
      split at member
      · exact .inl member
      · exact assigned member
    | arith _ _ _ _ | cmp _ _ _ _ | load _ _ => exact assigned member
    | store dst value =>
      rw [transfer] at member
      split at member
      · exact .inl ((ConstEnv.mem_joinAll _ _ _ name).1 member)
      · exact .inl member
    | call site =>
      obtain ⟨dst, _, _, _, _⟩ := site
      cases dst with
      | none => exact .inl ((ConstEnv.mem_forgetAll _ _ name).1 member)
      | some dst =>
        exact (assigned member).imp_left (ConstEnv.mem_forgetAll _ _ name).1
    | gep _ _ _ | gfp _ _ _ | alloc _ _ _ | addrOf _ _ => exact .inl member

/-- Declared names that are followed are integers. -/
def Tracked (ctx : Context) (s : ConstEnv) : Prop := ∀ name ∈ s, tracks ctx name = true

theorem Tracked.transferAll {s : ConstEnv} (tracked : Tracked ctx s)
    (instructions : List Instruction) :
    Tracked ctx ((analysis ctx).transferAll instructions s) :=
  List.foldlRecOn (motive := Tracked ctx) instructions _ tracked fun _ tracked _ _ name member =>
    (mem_transfer member).elim (tracked name) And.right

theorem Tracked.join {s t : ConstEnv} (left : Tracked ctx s) (right : Tracked ctx t) :
    Tracked ctx (Lir.join s t) := by
  intro name member
  rw [mem_map_iff, getElem?_join] at member
  cases old : s[name]? with
  | some value => exact left name ((mem_map_iff s name).2 ⟨value, old⟩)
  | none =>
    rw [old, Option.merge_none_left] at member
    exact right name ((mem_map_iff t name).2 member)

/-! ### The states at the start -/

def startValue (v : Variable) : FlatInt := if v.kind = .own then .bottom else .top

theorem getElem?_foldl_insert (vars : List Variable) (s : ConstEnv) (name : String) :
    (name ∉ vars.map Variable.name →
      (vars.foldl (fun s v => s.insert v.name (startValue v)) s)[name]? = s[name]?) ∧
    ∀ v ∈ vars, v.name = name → (vars.map Variable.name).Nodup →
      (vars.foldl (fun s v => s.insert v.name (startValue v)) s)[name]? = some (startValue v) := by
  induction vars generalizing s with
  | nil => simp
  | cons first rest ih =>
    obtain ⟨kept, entered⟩ := ih (s.insert first.name (startValue first))
    rw [List.foldl_cons]
    constructor
    · intro absent
      rw [List.map_cons, List.mem_cons, not_or] at absent
      rw [kept absent.2, getElem?_insert_map, if_neg (Ne.symm absent.1)]
    · intro v member named distinct
      obtain ⟨fresh, distinct⟩ := List.nodup_cons.1 distinct
      rcases List.mem_cons.1 member with rfl | later
      · rw [kept (named ▸ fresh), getElem?_insert_map, if_pos named]
      · exact entered v later named distinct

section

variable {p : Program} {f : Function}

theorem map_name_values (p : Program) (f : Function) :
    (Context.ofFunction p f).vars.values.map Variable.name = (Context.ofFunction p f).vars.keys := by
  have named := (Context.listed_memory p f).named
  simp only [Table.values, Table.keys, List.map_map]
  apply List.map_congr_left
  intro entry member
  exact named entry.1 entry.2 ((Table.get?_eq_some_iff _ _ _).2 member)

theorem getElem?_start_of_isInt {name : String} {v : Variable}
    (declared : (Context.ofFunction p f).vars.get? name = some v) (isInt : v.ty.isInt = true) :
    (start (.ofFunction p f))[name]? = some (startValue v) := by
  have distinct : ((Context.ofFunction p f).vars.values.map Variable.name).Nodup := by
    rw [map_name_values]
    exact (Context.ofFunction p f).vars.nodup
  refine (getElem?_foldl_insert _ ∅ name).2 v ?_
    ((Context.listed_memory p f).named name v declared)
    (distinct.sublist (List.filter_sublist.map Variable.name))
  refine List.mem_filter.2 ⟨List.mem_map.2 ⟨(name, v), ?_, rfl⟩, isInt⟩
  exact (Table.get?_eq_some_iff _ _ _).1 declared

theorem mem_start {name : String} (member : name ∈ start (.ofFunction p f)) :
    ∃ v, (Context.ofFunction p f).vars.get? name = some v ∧ v.ty.isInt = true := by
  have listed : name ∈ (((Context.ofFunction p f).vars.values.filter fun v => v.ty.isInt).map
      Variable.name) := Classical.byContradiction fun absent => by
    rw [mem_map_iff] at member
    have kept : (start (.ofFunction p f))[name]? = none :=
      ((getElem?_foldl_insert _ ∅ name).1 absent).trans (by simp)
    simp [kept] at member
  obtain ⟨v, found, rfl⟩ := List.mem_map.1 listed
  obtain ⟨value, isInt⟩ := List.mem_filter.1 found
  obtain ⟨⟨key, v'⟩, entry, rfl⟩ := List.mem_map.1 value
  have declared := (Table.get?_eq_some_iff _ _ _).2 entry
  exact ⟨v', ((Context.listed_memory p f).named key v' declared).symm ▸ declared, isInt⟩

theorem tracked_start (p : Program) (f : Function) :
    Tracked (.ofFunction p f) (start (.ofFunction p f)) := by
  intro name member
  obtain ⟨v, declared, isInt⟩ := mem_start member
  simp [tracks, Context.typeOf?, declared, isInt]

/-! ### The search ends -/

def ranking (p : Program) (f : Function) {names : List String}
    (vars : ∀ name ∈ (Context.ofFunction p f).vars.keys, name ∈ names)
    (assigned : ∀ inst ∈ f.instructions, ∀ name, inst.def? = some name → name ∈ names) :
    Analysis.Ranking (analysis (.ofFunction p f)) f (names.length * (1 + 2)) where
  toRanked := FlatInt.ranked.map names
  start := by
    refine ⟨fun name member => ?_, fun _ _ _ => trivial⟩
    obtain ⟨v, declared, _⟩ := mem_start member
    exact vars name ((Table.mem_keys_iff _ name).2 ⟨v, declared⟩)
  transfer {name block state} listed possible := by
    refine ⟨?_, fun _ _ _ => trivial⟩
    refine List.foldlRecOn (motive := fun s : ConstEnv => ∀ name ∈ s, name ∈ names)
      block.instructions _ possible.1 fun s known inst member other inside => ?_
    rcases mem_transfer inside with before | ⟨assigns, _⟩
    · exact known other before
    · exact assigned inst ((f.mem_instructions inst).2 ⟨name, block, listed, member⟩) other assigns

def fullRanking (p : Program) (f : Function) :
    Analysis.Ranking (analysis (.ofFunction p f)) f (height (.ofFunction p f)) :=
  (ranking p f (fun _ => Context.mem_heldNames_of_variable)
    (fun _ member _ => Context.mem_heldNames_of_def member)).weaken (by
      rw [height, Nat.mul_comm]
      exact Nat.mul_le_mul_left 3 (Context.length_heldNames_le _))

theorem solved (p : Program) {f : Function} (entry : f.blocks.contains entryName = true) :
    Analysis.Solved (analysis (.ofFunction p f)) f (solve (.ofFunction p f)) :=
  (fullRanking p f).solved entry

theorem tracked_pre (entry : f.blocks.contains entryName = true) {name : String} {s : ConstEnv}
    (found : (solve (.ofFunction p f)).pre[name]? = some s) : Tracked (.ofFunction p f) s :=
  Analysis.search_pre_induction (motive := fun _ => Tracked (.ofFunction p f)) entry
    (tracked_start p f) (fun _ block _ _ _ _ _ tracked => tracked.transferAll block.instructions)
    (fun _ _ _ left right => left.join right) _ name s found

end

end Constants

end Lir
