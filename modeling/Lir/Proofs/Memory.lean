import Lir.Context

/-!
Everything that the memory of a function names is one of its variables.

Cells enter the table of variables together with the alias sets, addresses are taken of variables
only, and calls overwrite members of alias sets and globals.
-/

set_option autoImplicit false

namespace Lir

namespace AliasSets

theorem mem_mayPointTo_addMember (t : AliasSets) (ty other : Ty) (added name : String) :
    name ∈ (t.addMember ty added).mayPointTo other ↔
      ty = other ∧ name = added ∨ name ∈ t.mayPointTo other := by
  rw [mayPointTo, addMember, getElem?_insert_map]
  split
  next same =>
    subst same
    rw [Option.getD_some, mem_insert_set, eq_self, true_and]
  next different => simp [different, mayPointTo]

theorem isAddressTaken_iff (t : AliasSets) (name : String) :
    t.isAddressTaken name = true ↔ ∃ ty, name ∈ t.mayPointTo ty := by
  unfold isAddressTaken mayPointTo
  rw [List.any_eq_true]
  constructor
  · rintro ⟨⟨ty, names⟩, listed, member⟩
    rw [Std.ExtTreeMap.mem_toList_iff_getElem?_eq_some] at listed
    exact ⟨ty, by simpa [listed] using member⟩
  · rintro ⟨ty, member⟩
    cases found : t.addressTaken[ty]? with
    | none => simp [found] at member
    | some names =>
      refine ⟨(ty, names), Std.ExtTreeMap.mem_toList_iff_getElem?_eq_some.2 found, ?_⟩
      simpa [found] using member

end AliasSets

namespace Memory

/-- The variables are under their own names, and alias sets and calls name nothing else. -/
structure Listed (globals : List String) (m : Memory) : Prop where
  globals : ∀ name ∈ globals, name ∈ m.vars.keys
  named : ∀ name v, m.vars.get? name = some v → v.name = name
  members : ∀ ty, ∀ name ∈ m.aliases.mayPointTo ty, name ∈ m.vars.keys
  clobbered : ∀ point, ∀ name ∈ m.aliases.clobbered point, name ∈ m.vars.keys

variable {globals : List String} {m : Memory}

theorem Listed.addCell (listed : m.Listed globals) (ty : Ty) : (m.addCell ty).Listed globals := by
  rw [Memory.addCell]
  split
  · exact listed
  · have kept : ∀ name ∈ m.vars.keys, name ∈
        (m.vars.insertNew (cellName ty) (.ofCell ty)).keys := fun name member =>
      (m.vars.mem_keys_insertNew _ _ _).2 (.inr member)
    refine ⟨fun name member => kept name (listed.globals name member), ?_, ?_, ?_⟩
    · intro name v found
      rw [Table.get?_insertNew] at found
      split at found
      next same =>
        subst same
        cases old : m.vars.get? (cellName ty) with
        | none =>
          rw [old] at found
          exact Option.some.inj found ▸ rfl
        | some first =>
          rw [old] at found
          exact Option.some.inj found ▸ listed.named _ first old
      next => exact listed.named name v found
    · intro other name member
      rcases (m.aliases.mem_mayPointTo_addMember ty other (cellName ty) name).1 member with
        ⟨_, rfl⟩ | old
      · exact (m.vars.mem_keys_insertNew _ _ _).2 (.inl rfl)
      · exact kept name (listed.members other name old)
    · exact fun point name member => kept name (listed.clobbered point name member)

theorem Listed.pointTo (listed : m.Listed globals) (name : String) (target : Target) :
    (m.pointTo name target).Listed globals where
  globals other member := by
    rw [Memory.pointTo, Table.keys_modify]
    exact listed.globals other member
  named other v found := by
    rw [Memory.pointTo, Table.get?_modify] at found
    split at found
    · obtain ⟨old, before, rfl⟩ := Option.map_eq_some_iff.1 found
      exact listed.named other old before
    · exact listed.named other v found
  members ty other member := by
    rw [Memory.pointTo, Table.keys_modify]
    exact listed.members ty other member
  clobbered point other member := by
    rw [Memory.pointTo, Table.keys_modify]
    exact listed.clobbered point other member

theorem Listed.addMember (listed : m.Listed globals) (ty : Ty) {name : String}
    (declared : name ∈ m.vars.keys) :
    Listed globals { m with aliases := m.aliases.addMember ty name } where
  globals := listed.globals
  named := listed.named
  members other member inSet := by
    rcases (m.aliases.mem_mayPointTo_addMember ty other name member).1 inSet with ⟨_, rfl⟩ | old
    · exact declared
    · exact listed.members other member old
  clobbered := listed.clobbered

theorem Listed.noteAddress (listed : m.Listed globals) (inst : Instruction) :
    (m.noteAddress inst).Listed globals := by
  rw [Memory.noteAddress.eq_def]
  split
  next dst src =>
    cases declared : m.vars.get? src with
    | none => exact listed
    | some v =>
      have member := (m.vars.mem_keys_iff src).2 ⟨v, declared⟩
      exact (listed.addMember v.ty member).pointTo dst (.named src)
  next dst _ _ =>
    cases ((m.vars.get? dst).bind fun v => v.ty.pointee?).bind (m.aliases.cells[·]?) with
    | none => exact listed
    | some cell => exact listed.pointTo dst (.cell cell)
  next => exact listed

theorem Listed.mem_clobberSet {p : Program} (listed : m.Listed p.globals.keys) (site : Call)
    {name : String} (member : name ∈ clobberSet p m site) : name ∈ m.vars.keys := by
  rw [clobberSet, NameSet.mem_ofNames, List.mem_append, List.mem_flatMap, List.mem_filter] at member
  rcases member with ⟨ty, _, exposed⟩ | ⟨global, _⟩
  · exact listed.members ty name (Std.ExtTreeSet.mem_toList.1 exposed)
  · exact listed.globals name global

theorem Listed.noteCall {p : Program} (listed : m.Listed p.globals.keys) (inst : Instruction) :
    (m.noteCall p inst).Listed p.globals.keys := by
  rw [Memory.noteCall]
  split
  next site _ =>
    refine ⟨listed.globals, listed.named, listed.members, ?_⟩
    intro point name member
    rw [AliasSets.clobbered, getElem?_insert_map] at member
    split at member
    · exact listed.mem_clobberSet site member
    · exact listed.clobbered point name member
  next => exact listed

theorem listed_build {p : Program} (f : Function) {vars : Table Variable}
    (globals : ∀ name ∈ p.globals.keys, name ∈ vars.keys)
    (named : ∀ name v, vars.get? name = some v → v.name = name) :
    (Memory.build p f vars).Listed p.globals.keys := by
  have start : Listed p.globals.keys ⟨vars, .empty⟩ :=
    ⟨globals, named, fun ty name member => by simp [AliasSets.mayPointTo, AliasSets.empty] at member,
      fun point name member => by simp [AliasSets.clobbered, AliasSets.empty] at member⟩
  have with_cells := List.foldlRecOn (motive := Listed p.globals.keys) (p.cellTypes f vars) addCell
    start fun _ listed ty _ => listed.addCell ty
  have with_addresses := List.foldlRecOn (motive := Listed p.globals.keys) f.instructions
    Memory.noteAddress with_cells fun _ listed inst _ => listed.noteAddress inst
  exact List.foldlRecOn (motive := Listed p.globals.keys) f.instructions (Memory.noteCall p)
    with_addresses fun _ listed inst _ => listed.noteCall inst

end Memory

namespace Context

theorem build_eq_ok {p : Program} {name : String} {f : Function}
    (listed : p.functions.get? name = some f) (entry : f.blocks.contains entryName = true) :
    build p name = .ok (ofFunction p f) := by
  simp [build, listed, entry]

theorem mem_keys_declaredVariables_of_global {p : Program} (f : Function) {name : String}
    (global : name ∈ p.globals.keys) : name ∈ (declaredVariables p f).keys := by
  obtain ⟨entry, member, rfl⟩ := List.mem_map.1 global
  rw [declaredVariables, Table.ofList, Table.mem_keys_insertAll]
  simp only [List.map_append, List.mem_append, List.map_map]
  exact .inr (.inl (.inl (List.mem_map.2 ⟨entry, member, rfl⟩)))

theorem name_declaredVariables {p : Program} {f : Function} {name : String} {v : Variable}
    (found : (declaredVariables p f).get? name = some v) : v.name = name := by
  rcases Table.get?_insertAll_cases _ _ found with absurd_entry | entered
  · exact absurd absurd_entry (by simp [Table.empty, Table.get?])
  · simp only [List.mem_append, List.mem_map, Prod.mk.injEq] at entered
    rcases entered with (⟨_, _, rfl, rfl⟩ | ⟨_, _, rfl, rfl⟩) | ⟨_, _, rfl, rfl⟩ <;> rfl

theorem listed_memory (p : Program) (f : Function) :
    (ofFunction p f).memory.Listed p.globals.keys :=
  Memory.listed_build f (fun _ => mem_keys_declaredVariables_of_global f)
    (fun _ _ => name_declaredVariables)

/-! ### Names that states may hold -/

def heldNames (ctx : Context) : List String :=
  ctx.vars.keys ++ ctx.function.instructions.filterMap Instruction.def?

theorem mem_heldNames_of_variable {ctx : Context} {name : String}
    (declared : name ∈ ctx.vars.keys) : name ∈ ctx.heldNames :=
  List.mem_append_left _ declared

theorem mem_heldNames_of_def {ctx : Context} {inst : Instruction} {name : String}
    (member : inst ∈ ctx.function.instructions) (assigns : inst.def? = some name) :
    name ∈ ctx.heldNames :=
  List.mem_append_right _ (List.mem_filterMap.2 ⟨inst, member, assigns⟩)

theorem length_heldNames_le (ctx : Context) :
    ctx.heldNames.length ≤ ctx.vars.size + ctx.function.instructions.length := by
  rw [heldNames, List.length_append, Table.length_keys]
  exact Nat.add_le_add_left (List.length_filterMap_le _ _) _

end Context

end Lir
