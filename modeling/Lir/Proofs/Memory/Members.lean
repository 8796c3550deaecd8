import Lir.Proofs.Memory
import Lir.Proofs.Memory.Closure

/-!
What the memory of a function holds.

The types that the function's pointers may lead to have a cell, and a type's alias set holds its
cell and the variables of the type whose address is taken. A declared name keeps its type and kind;
a cell that finds its name free enters the variables with its own.
-/

set_option autoImplicit false

namespace Lir

def Instruction.addressTaken? : Instruction → Option String
  | .op _ _ (.addrOf _ src) => some src
  | _ => none

def Variable.untargeted (v : Variable) : Variable := { v with target := none }

/-! ### The types that get a cell -/

namespace Program

/-- Types that memory without a name may have: what a pointer from outside leads to, or what an
allocation gives. -/
inductive CellRoot (p : Program) (f : Function) (vars : Table Variable) : Ty → Prop where
  /-- Any function of the program may be the one that passes the pointer on. -/
  | parameter {name : String} {g : Function} {param : Param} {pointee : Ty} :
      p.functions.get? name = some g → param ∈ g.params → param.ty = .pointer pointee →
      CellRoot p f vars pointee
  | global {name : String} {pointee : Ty} :
      p.globals.get? name = some (.pointer pointee) → CellRoot p f vars pointee
  | allocation {block : String} {index : Nat} {dst : String} {size : Operand} {id : Option String}
      {v : Variable} {pointee : Ty} :
      .op block index (.alloc dst size id) ∈ f.instructions → vars.get? dst = some v →
      v.ty = .pointer pointee → CellRoot p f vars pointee

theorem pointee?_eq_some_iff (ty pointee : Ty) :
    ty.pointee? = some pointee ↔ ty = .pointer pointee := by
  cases ty <;> simp [Ty.pointee?]

theorem mem_exposed (g : Function) (pointee : Ty) :
    pointee ∈ g.signature.exposed ↔ ∃ param ∈ g.params, param.ty = .pointer pointee := by
  simp only [Signature.exposed, Function.signature, List.mem_filterMap, List.mem_map,
    pointee?_eq_some_iff]
  constructor
  · rintro ⟨_, ⟨param, listed, rfl⟩, same⟩
    exact ⟨param, listed, same⟩
  · rintro ⟨param, listed, same⟩
    exact ⟨_, ⟨param, listed, rfl⟩, same⟩

theorem mem_globalPointees (p : Program) (pointee : Ty) :
    pointee ∈ p.globalPointees ↔ ∃ name, p.globals.get? name = some (.pointer pointee) := by
  simp only [globalPointees, List.mem_filterMap, pointee?_eq_some_iff, Table.values, List.mem_map,
    Table.get?_eq_some_iff]
  constructor
  · rintro ⟨_, ⟨entry, listed, rfl⟩, same⟩
    exact ⟨entry.1, same ▸ listed⟩
  · rintro ⟨name, listed⟩
    exact ⟨_, ⟨_, listed, rfl⟩, rfl⟩

theorem mem_cellRoots (p : Program) (f : Function) (vars : Table Variable) (pointee : Ty) :
    pointee ∈ p.cellRoots f vars ↔ CellRoot p f vars pointee := by
  simp only [cellRoots, mem_ofList_set, List.mem_append, List.mem_flatMap, List.mem_filterMap,
    mem_globalPointees, mem_exposed]
  constructor
  · rintro ((⟨g, listed, param, in_params, same⟩ | ⟨name, declared⟩) | ⟨inst, listed, allocates⟩)
    · obtain ⟨entry, member, rfl⟩ := List.mem_map.1 listed
      exact .parameter ((p.functions.get?_eq_some_iff _ _).2 member) in_params same
    · exact .global declared
    · split at allocates
      next =>
        obtain ⟨v, declared, same⟩ := Option.bind_eq_some_iff.1 allocates
        exact .allocation listed declared ((pointee?_eq_some_iff _ _).1 same)
      next => simp at allocates
  · intro root
    cases root with
    | parameter listed in_params same =>
      have member := (p.functions.get?_eq_some_iff _ _).1 listed
      exact .inl (.inl ⟨_, List.mem_map.2 ⟨_, member, rfl⟩, _, in_params, same⟩)
    | global declared => exact .inl (.inr ⟨_, declared⟩)
    | allocation listed declared same =>
      refine .inr ⟨_, listed, ?_⟩
      exact Option.bind_eq_some_iff.2 ⟨_, declared, (pointee?_eq_some_iff _ _).2 same⟩

/-- A type gets a cell when one of the roots leads to it. -/
theorem mem_cellTypes (p : Program) (f : Function) (vars : Table Variable) (ty : Ty) :
    ty ∈ p.cellTypes f vars ↔ ∃ root, CellRoot p f vars root ∧ Ty.Leads p.records root ty := by
  simp only [cellTypes, List.mem_flatMap, Std.ExtTreeSet.mem_toList, mem_cellRoots, Ty.mem_closure]

end Program

namespace Memory

/-! ### Entering cells -/

/-- What holds when cells for the listed types have been added to declared variables. -/
structure Celled (vars : Table Variable) (types : List Ty) (m : Memory) : Prop where
  cells : ∀ ty cell, m.aliases.cells[ty]? = some cell ↔ ty ∈ types ∧ cell = cellName ty
  members : ∀ ty name, name ∈ m.aliases.mayPointTo ty ↔ ty ∈ types ∧ name = cellName ty
  declared : ∀ name v, vars.get? name = some v → m.vars.get? name = some v
  entered : ∀ name v, vars.get? name = none → m.vars.get? name = some v →
    ∃ ty ∈ types, name = cellName ty ∧ v = .ofCell ty

theorem celled_start (vars : Table Variable) : Celled vars [] ⟨vars, .empty⟩ where
  cells := by simp [AliasSets.empty]
  members := by simp [AliasSets.empty, AliasSets.mayPointTo]
  declared _ _ found := found
  entered name v absent found := by simp [absent] at found

theorem Celled.again {vars : Table Variable} {types : List Ty} {m : Memory} {ty : Ty}
    (celled : Celled vars types m) (member : ty ∈ types) : Celled vars (types ++ [ty]) m := by
  have listed : ∀ other, other ∈ types ++ [ty] ↔ other ∈ types := fun other => by
    rw [List.mem_append, List.mem_singleton]
    exact or_iff_left_of_imp fun same => same ▸ member
  refine ⟨fun other name => ?_, fun other name => ?_, celled.declared,
    fun name v absent entry => ?_⟩
  · rw [celled.cells, listed]
  · rw [celled.members, listed]
  · obtain ⟨other, member, cell⟩ := celled.entered name v absent entry
    exact ⟨other, (listed other).2 member, cell⟩

theorem Celled.entered_insertNew {vars : Table Variable} {types : List Ty} {m : Memory}
    (celled : Celled vars types m) (ty : Ty) (name : String) (v : Variable)
    (absent : vars.get? name = none)
    (found : (m.vars.insertNew (cellName ty) (.ofCell ty)).get? name = some v) :
    ∃ other ∈ types ++ [ty], name = cellName other ∧ v = .ofCell other := by
  have before : m.vars.get? name = some v →
      ∃ other ∈ types ++ [ty], name = cellName other ∧ v = .ofCell other := fun old => by
    obtain ⟨other, member, cell⟩ := celled.entered name v absent old
    exact ⟨other, List.mem_append_left _ member, cell⟩
  rw [Table.get?_insertNew] at found
  split at found
  next same =>
    subst same
    cases old : m.vars.get? (cellName ty) with
    | none =>
      rw [old] at found
      exact ⟨ty, by simp, rfl, (Option.some.inj found).symm⟩
    | some first =>
      -- An earlier type spells its cell alike, and keeps it.
      rw [old] at found
      exact before (old.trans found)
  next => exact before found

theorem Celled.addCell {vars : Table Variable} {types : List Ty} {m : Memory}
    (celled : Celled vars types m) (ty : Ty) : Celled vars (types ++ [ty]) (m.addCell ty) := by
  rw [Memory.addCell]
  split
  next known =>
    obtain ⟨cell, found⟩ := (mem_map_iff _ ty).1 known
    exact celled.again ((celled.cells ty cell).1 found).1
  next new =>
    refine ⟨fun other name => ?_, fun other name => ?_, fun name v found => ?_,
      celled.entered_insertNew ty⟩
    · rw [getElem?_insert_map, List.mem_append, List.mem_singleton]
      split
      next same => simp [same, eq_comm]
      next different =>
        exact (celled.cells other name).trans
          (and_congr_left' (or_iff_left (Ne.symm different)).symm)
    · refine (m.aliases.mem_mayPointTo_addMember ty other (cellName ty) name).trans ?_
      rw [celled.members, List.mem_append, List.mem_singleton]
      constructor
      · rintro (⟨rfl, same⟩ | ⟨member, same⟩)
        · exact ⟨.inr rfl, same⟩
        · exact ⟨.inl member, same⟩
      · rintro ⟨member | rfl, same⟩
        · exact .inr ⟨member, same⟩
        · exact .inl ⟨rfl, same⟩
    · rw [Table.get?_insertNew]
      split
      next same => rw [same, celled.declared name v found, Option.getD_some]
      next => exact celled.declared name v found

theorem Celled.foldl_addCell {vars : Table Variable} (types : List Ty) {before : List Ty}
    {m : Memory} (celled : Celled vars before m) :
    Celled vars (before ++ types) (types.foldl Memory.addCell m) := by
  induction types generalizing before m with
  | nil => rwa [List.append_nil]
  | cons ty rest ih =>
    have next := ih (celled.addCell ty)
    rwa [List.append_assoc] at next

/-! ### Noting addresses -/

theorem untargeted_pointTo (m : Memory) (name other : String) (target : Target) :
    ((m.pointTo name target).vars.get? other).map Variable.untargeted =
      (m.vars.get? other).map Variable.untargeted := by
  rw [pointTo, Table.get?_modify]
  split
  · rw [Option.map_map]
    rfl
  · rfl

/-- What noting an address changes: what a variable points at, and the alias set of one type. -/
structure Noted (m : Memory) (inst : Instruction) (next : Memory) : Prop where
  vars : ∀ name, (next.vars.get? name).map Variable.untargeted =
    (m.vars.get? name).map Variable.untargeted
  cells : next.aliases.cells = m.aliases.cells
  members : ∀ ty name, name ∈ next.aliases.mayPointTo ty ↔ name ∈ m.aliases.mayPointTo ty ∨
    inst.addressTaken? = some name ∧ (m.vars.get? name).map Variable.ty = some ty

theorem noted_noteAddress (m : Memory) (inst : Instruction) :
    Noted m inst (m.noteAddress inst) := by
  have unchanged : inst.addressTaken? = none → Noted m inst m := fun none_taken =>
    ⟨fun _ => rfl, rfl, fun ty name => by simp [none_taken]⟩
  rw [Memory.noteAddress.eq_def]
  split
  next dst src =>
    cases declared : m.vars.get? src with
    | none =>
      refine ⟨fun _ => rfl, rfl, fun ty name => (or_iff_left ?_).symm⟩
      rintro ⟨taken, type⟩
      obtain rfl := Option.some.inj taken
      simp [declared] at type
    | some v =>
      refine ⟨fun name => untargeted_pointTo _ dst name _, rfl, fun ty name => ?_⟩
      refine (m.aliases.mem_mayPointTo_addMember v.ty ty src name).trans ?_
      rw [or_comm]
      refine or_congr_right ⟨?_, ?_⟩
      · rintro ⟨type, rfl⟩
        exact ⟨rfl, by rw [declared, Option.map_some, type]⟩
      · rintro ⟨taken, type⟩
        obtain rfl := Option.some.inj taken
        rw [declared, Option.map_some] at type
        exact ⟨Option.some.inj type, rfl⟩
  next dst _ _ =>
    cases ((m.vars.get? dst).bind fun v => v.ty.pointee?).bind (m.aliases.cells[·]?) with
    | none => exact unchanged rfl
    | some cell =>
      have same := unchanged rfl
      exact ⟨fun name => untargeted_pointTo m dst name _, rfl, same.members⟩
  next no_address _ =>
    refine unchanged ?_
    rw [Instruction.addressTaken?.eq_def]
    split
    · exact absurd rfl (no_address _ _ _ _)
    · rfl

theorem type_of_untargeted {v w : Option Variable}
    (same : v.map Variable.untargeted = w.map Variable.untargeted) :
    v.map Variable.ty = w.map Variable.ty := by
  have types := congrArg (Option.map Variable.ty) same
  rwa [Option.map_map, Option.map_map] at types

/-- What noting the addresses of all instructions changes. -/
theorem noted_foldl_noteAddress (instructions : List Instruction) (m : Memory) :
    (∀ name, ((instructions.foldl noteAddress m).vars.get? name).map Variable.untargeted =
      (m.vars.get? name).map Variable.untargeted) ∧
    (instructions.foldl noteAddress m).aliases.cells = m.aliases.cells ∧
    ∀ ty name, name ∈ (instructions.foldl noteAddress m).aliases.mayPointTo ty ↔
      name ∈ m.aliases.mayPointTo ty ∨
        (∃ inst ∈ instructions, inst.addressTaken? = some name) ∧
          (m.vars.get? name).map Variable.ty = some ty := by
  induction instructions generalizing m with
  | nil => simp
  | cons inst rest ih =>
    have noted := noted_noteAddress m inst
    obtain ⟨vars, cells, members⟩ := ih (m.noteAddress inst)
    -- Types stay, so the type of a later name may be asked for before the first address is noted.
    refine ⟨fun name => (vars name).trans (noted.vars name), cells.trans noted.cells,
      fun ty name => ?_⟩
    rw [List.foldl_cons, members, noted.members, type_of_untargeted (noted.vars name), or_assoc,
      ← or_and_right, List.exists_mem_cons_iff]

/-! ### The whole memory -/

theorem noteCall_vars (p : Program) (m : Memory) (inst : Instruction) :
    (m.noteCall p inst).vars = m.vars ∧
      (m.noteCall p inst).aliases.addressTaken = m.aliases.addressTaken ∧
      (m.noteCall p inst).aliases.cells = m.aliases.cells := by
  rw [noteCall]
  cases inst.call? <;> exact ⟨rfl, rfl, rfl⟩

theorem foldl_noteCall (p : Program) (instructions : List Instruction) (m : Memory) :
    (instructions.foldl (noteCall p) m).vars = m.vars ∧
      (instructions.foldl (noteCall p) m).aliases.addressTaken = m.aliases.addressTaken ∧
      (instructions.foldl (noteCall p) m).aliases.cells = m.aliases.cells := by
  induction instructions generalizing m with
  | nil => exact ⟨rfl, rfl, rfl⟩
  | cons inst rest ih =>
    obtain ⟨vars, members, cells⟩ := ih (m.noteCall p inst)
    obtain ⟨first_vars, first_members, first_cells⟩ := noteCall_vars p m inst
    exact ⟨vars.trans first_vars, members.trans first_members, cells.trans first_cells⟩

end Memory

namespace Context

def celledMemory (p : Program) (f : Function) : Memory :=
  (p.cellTypes f (declaredVariables p f)).foldl Memory.addCell ⟨declaredVariables p f, .empty⟩

theorem celled_memory (p : Program) (f : Function) :
    Memory.Celled (declaredVariables p f) (p.cellTypes f (declaredVariables p f))
      (celledMemory p f) :=
  (Memory.celled_start _).foldl_addCell _

variable {p : Program} {f : Function}

/-- Noting addresses and calls changes no name, type or kind. -/
theorem untargeted_vars (name : String) :
    ((ofFunction p f).vars.get? name).map Variable.untargeted =
      ((celledMemory p f).vars.get? name).map Variable.untargeted := by
  have calls := (Memory.foldl_noteCall p f.instructions
    (f.instructions.foldl Memory.noteAddress (celledMemory p f))).1
  have addresses := (Memory.noted_foldl_noteAddress f.instructions (celledMemory p f)).1 name
  rw [← addresses]
  exact congrArg (fun vars : Table Variable => (vars.get? name).map Variable.untargeted) calls

theorem typeOf?_eq (name : String) :
    (ofFunction p f).typeOf? name = ((celledMemory p f).vars.get? name).map Variable.ty :=
  Memory.type_of_untargeted (untargeted_vars name)

theorem cell_iff (ty : Ty) (cell : String) :
    (ofFunction p f).aliases.cells[ty]? = some cell ↔
      ty ∈ p.cellTypes f (declaredVariables p f) ∧ cell = cellName ty := by
  have calls := (Memory.foldl_noteCall p f.instructions
    (f.instructions.foldl Memory.noteAddress (celledMemory p f))).2.2
  have addresses := (Memory.noted_foldl_noteAddress f.instructions (celledMemory p f)).2.1
  rw [← (celled_memory p f).cells, ← addresses]
  exact (congrArg (fun cells : TyMap String => cells[ty]? = some cell) calls).to_iff

/-- What a pointer to a type may point at: the type's cell, and the variables of the type whose
address is taken. -/
theorem mem_mayPointTo_iff (ty : Ty) (name : String) :
    name ∈ (ofFunction p f).aliases.mayPointTo ty ↔
      (ty ∈ p.cellTypes f (declaredVariables p f) ∧ name = cellName ty) ∨
        (∃ inst ∈ f.instructions, inst.addressTaken? = some name) ∧
          (ofFunction p f).typeOf? name = some ty := by
  have calls := (Memory.foldl_noteCall p f.instructions
    (f.instructions.foldl Memory.noteAddress (celledMemory p f))).2.1
  have addresses := (Memory.noted_foldl_noteAddress f.instructions (celledMemory p f)).2.2 ty name
  rw [← (celled_memory p f).members, typeOf?_eq, ← addresses]
  exact (congrArg (fun taken : TyMap NameSet => name ∈ taken[ty]?.getD ∅) calls).to_iff

/-- A function has memory of a type: some may come from outside or from its allocations, or it takes
the address of a variable of the type. -/
inductive HasMemory (p : Program) (f : Function) (ty : Ty) : Prop where
  | unnamed {root : Ty} : p.CellRoot f (declaredVariables p f) root → Ty.Leads p.records root ty →
      HasMemory p f ty
  | named {name : String} {inst : Instruction} : inst ∈ f.instructions →
      inst.addressTaken? = some name → (ofFunction p f).typeOf? name = some ty → HasMemory p f ty

theorem exists_mem_mayPointTo_iff (ty : Ty) :
    (∃ name, name ∈ (ofFunction p f).aliases.mayPointTo ty) ↔ HasMemory p f ty := by
  simp only [mem_mayPointTo_iff, Program.mem_cellTypes]
  constructor
  · rintro ⟨name, ⟨⟨root, from_root, leads⟩, _⟩ | ⟨⟨inst, member, taken⟩, type⟩⟩
    · exact .unnamed from_root leads
    · exact .named member taken type
  · rintro (⟨from_root, leads⟩ | ⟨member, taken, type⟩)
    · exact ⟨cellName ty, .inl ⟨⟨_, from_root, leads⟩, rfl⟩⟩
    · exact ⟨_, .inr ⟨⟨_, member, taken⟩, type⟩⟩

end Context

end Lir
