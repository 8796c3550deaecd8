import Lir.Proofs.Agree
import Lir.Proofs.Memory.Calls

/-!
What the memory of a function depends on.

It depends on declarations, whatever their order, and of other functions on no more than their
signatures. Of the body of the function it depends on the addresses that are taken and on the names
that allocations go to. Two functions that are alike in this have variables of the same types and
kinds, the same alias sets, and calls that may overwrite the same.
-/

set_option autoImplicit false

namespace Lir

def Instruction.allocated? : Instruction → Option String
  | .op _ _ (.alloc dst _ _) => some dst
  | _ => none

/-- Programs with the same declarations, and functions with the same signatures, in any order. -/
structure Program.Alike (p q : Program) : Prop where
  records : ∀ name, Option.Rel (fun r s : RecordDef => r.fields.Same s.fields)
    (p.records.get? name) (q.records.get? name)
  globals : p.globals.Same q.globals
  externs : p.externs.Same q.externs
  signatures : ∀ name, (p.functions.get? name).map Function.signature =
    (q.functions.get? name).map Function.signature

structure Function.SameAddresses (f g : Function) : Prop where
  params : f.params = g.params
  locals : f.locals.Same g.locals
  allocated : ∀ dst, (∃ inst ∈ f.instructions, inst.allocated? = some dst) ↔
    ∃ inst ∈ g.instructions, inst.allocated? = some dst
  taken : ∀ name, (∃ inst ∈ f.instructions, inst.addressTaken? = some name) ↔
    ∃ inst ∈ g.instructions, inst.addressTaken? = some name

/-- Functions with the same declarations and blocks, the locals and the blocks in any order. -/
structure Function.Alike (f g : Function) : Prop where
  params : f.params = g.params
  result : f.result = g.result
  locals : f.locals.Same g.locals
  blocks : f.blocks.Same g.blocks

structure Context.SameMemory (c d : Context) : Prop where
  vars : ∀ name, (c.vars.get? name).map Variable.untargeted =
    (d.vars.get? name).map Variable.untargeted
  mayPointTo : ∀ ty, c.aliases.mayPointTo ty = d.aliases.mayPointTo ty

variable {p q : Program} {f g : Function}

namespace Program

theorem Alike.symm (alike : p.Alike q) : q.Alike p where
  records name := by
    have related := alike.records name
    revert related
    cases p.records.get? name <;> cases q.records.get? name <;> simp
    exact Table.Same.symm
  globals := alike.globals.symm
  externs := alike.externs.symm
  signatures name := (alike.signatures name).symm

/-! ### Closures and signatures -/

theorem Alike.mem_parts (alike : p.Alike q) {ty part : Ty} (inside : part ∈ ty.parts p.records) :
    part ∈ ty.parts q.records := by
  cases ty with
  | int => exact inside
  | pointer pointee => exact inside
  | function params result => exact inside
  | record name =>
    have related := alike.records name
    rw [Ty.parts] at inside ⊢
    cases defined : p.records.get? name with
    | none => simp [defined] at inside
    | some definition =>
      rw [defined] at inside related
      cases other : q.records.get? name with
      | none => simp [other] at related
      | some twin =>
        rw [other] at related
        cases related with
        | some fields => exact fields.values_perm.mem_iff.1 inside

theorem Alike.leads (alike : p.Alike q) {root ty : Ty} (leads : Ty.Leads p.records root ty) :
    Ty.Leads q.records root ty := by
  induction leads with
  | root data => exact .root data
  | part _ inside data ih => exact ih.part (alike.mem_parts inside) data

theorem Alike.closure_eq (alike : p.Alike q) (root : Ty) :
    root.closure p.records = root.closure q.records := by
  apply Std.ExtTreeSet.ext_mem
  intro ty
  rw [Ty.mem_closure, Ty.mem_closure]
  exact ⟨alike.leads, alike.symm.leads⟩

theorem Alike.signature?_eq (alike : p.Alike q) (name : String) :
    p.signature? name = q.signature? name := by
  have same := alike.signatures name
  unfold signature?
  rw [← alike.externs, ← alike.globals]
  cases first : p.functions.get? name <;> cases second : q.functions.get? name <;> simp_all

theorem Alike.mem_globalPointees (alike : p.Alike q) (pointee : Ty) :
    pointee ∈ p.globalPointees ↔ pointee ∈ q.globalPointees := by
  rw [Program.mem_globalPointees, Program.mem_globalPointees]
  exact exists_congr fun name => by rw [alike.globals]

end Program

namespace Context

/-! ### Declared names and cells -/

theorem declaredVariables_same (alike : p.Alike q) (same : f.SameAddresses g) :
    (declaredVariables p f).Same (declaredVariables q g) := by
  unfold declaredVariables Table.ofList
  rw [Table.insertAll_append, Table.insertAll_append, Table.insertAll_append,
    Table.insertAll_append, same.params]
  have globals := (Table.Same.refl (Table.empty : Table Variable)).insertAll_mapValues
    alike.globals fun name ty => .declared name ty .global
  exact (globals.insertAll _).insertAll_mapValues same.locals fun name ty =>
    .declared name ty .own

theorem cellRoot_of_alike (alike : p.Alike q) (same : f.SameAddresses g) {pointee : Ty}
    (root : p.CellRoot f (declaredVariables p f) pointee) :
    q.CellRoot g (declaredVariables q g) pointee := by
  cases root with
  | @parameter name h param _ listed in_params typed =>
    -- Another function is known by its signature, so the twin has a parameter of the type.
    have exposed := (Program.mem_exposed h pointee).2 ⟨param, in_params, typed⟩
    have signatures := alike.signatures name
    rw [listed] at signatures
    obtain ⟨twin, twin_listed, signature⟩ := Option.map_eq_some_iff.1 signatures.symm
    rw [← signature] at exposed
    obtain ⟨other, in_params, typed⟩ := (Program.mem_exposed twin pointee).1 exposed
    exact .parameter twin_listed in_params typed
  | global declared => exact .global ((alike.globals _).symm.trans declared)
  | @allocation block index dst size id v _ listed declared typed =>
    obtain ⟨inst, member, allocates⟩ := (same.allocated dst).1 ⟨_, listed, rfl⟩
    have twin_declared := (declaredVariables_same alike same dst).symm.trans declared
    unfold Instruction.allocated? at allocates
    split at allocates
    next =>
      cases allocates
      exact .allocation member twin_declared typed
    next => simp at allocates

theorem cellTypes_eq (alike : p.Alike q) (same : f.SameAddresses g) (back : g.SameAddresses f) :
    p.cellTypes f (declaredVariables p f) = q.cellTypes g (declaredVariables q g) := by
  have roots : p.cellRoots f (declaredVariables p f) = q.cellRoots g (declaredVariables q g) := by
    apply Std.ExtTreeSet.ext_mem
    intro pointee
    rw [Program.mem_cellRoots, Program.mem_cellRoots]
    exact ⟨cellRoot_of_alike alike same, cellRoot_of_alike alike.symm back⟩
  unfold Program.cellTypes
  rw [roots]
  congr 1
  funext root
  rw [alike.closure_eq]

end Context

namespace Memory

theorem addCell_same {m n : Memory} (vars : m.vars.Same n.vars) (aliases : m.aliases = n.aliases)
    (ty : Ty) :
    (m.addCell ty).vars.Same (n.addCell ty).vars ∧ (m.addCell ty).aliases = (n.addCell ty).aliases := by
  unfold addCell
  rw [aliases]
  split
  · exact ⟨vars, aliases⟩
  · exact ⟨vars.insertNew _ _, rfl⟩

theorem foldl_addCell_same (types : List Ty) {m n : Memory} (vars : m.vars.Same n.vars)
    (aliases : m.aliases = n.aliases) :
    (types.foldl addCell m).vars.Same (types.foldl addCell n).vars := by
  induction types generalizing m n with
  | nil => exact vars
  | cons ty rest ih =>
    obtain ⟨vars_after, aliases_after⟩ := addCell_same vars aliases ty
    exact ih vars_after aliases_after

end Memory

theorem Function.Alike.instructions_perm (same : f.Alike g) :
    f.instructions.Perm g.instructions :=
  same.blocks.values_perm.flatMap_right Block.instructions

theorem Function.Alike.sameAddresses (same : f.Alike g) : f.SameAddresses g where
  params := same.params
  locals := same.locals
  allocated dst := by simp only [same.instructions_perm.mem_iff]
  taken name := by simp only [same.instructions_perm.mem_iff]

theorem Function.Alike.wellFormed (same : f.Alike g) (wellFormed : f.WellFormed) : g.WellFormed where
  named name block listed := wellFormed.named name block ((same.blocks name).trans listed)
  block name block listed := wellFormed.block name block ((same.blocks name).trans listed)

theorem Function.SameAddresses.symm (same : f.SameAddresses g) : g.SameAddresses f where
  params := same.params.symm
  locals := same.locals.symm
  allocated dst := (same.allocated dst).symm
  taken name := (same.taken name).symm

namespace Context

theorem untargeted_vars_eq (alike : p.Alike q) (same : f.SameAddresses g) (name : String) :
    ((ofFunction p f).vars.get? name).map Variable.untargeted =
      ((ofFunction q g).vars.get? name).map Variable.untargeted := by
  have celled : (celledMemory p f).vars.Same (celledMemory q g).vars := by
    unfold celledMemory
    rw [cellTypes_eq alike same same.symm]
    exact Memory.foldl_addCell_same _ (declaredVariables_same alike same) rfl
  rw [untargeted_vars, untargeted_vars, celled]

theorem sameMemory (alike : p.Alike q) (same : f.SameAddresses g) :
    (ofFunction p f).SameMemory (ofFunction q g) where
  vars := untargeted_vars_eq alike same
  mayPointTo ty := by
    have types := fun name => Memory.type_of_untargeted (untargeted_vars_eq alike same name)
    apply Std.ExtTreeSet.ext_mem
    intro name
    rw [mem_mayPointTo_iff, mem_mayPointTo_iff, cellTypes_eq alike same same.symm, same.taken]
    refine or_congr_right (and_congr_right' ?_)
    exact (congrArg (· = some ty) (types name)).to_iff

/-! ### What contexts with the same memory agree on -/

namespace SameMemory

variable {c d : Context} (same : c.SameMemory d)

include same

theorem symm : d.SameMemory c where
  vars name := (same.vars name).symm
  mayPointTo ty := (same.mayPointTo ty).symm

theorem typeOf?_eq (name : String) : c.typeOf? name = d.typeOf? name :=
  Memory.type_of_untargeted (same.vars name)

theorem mem_keys_iff (name : String) : name ∈ c.vars.keys ↔ name ∈ d.vars.keys := by
  have present := congrArg Option.isSome (same.vars name)
  rw [Option.isSome_map, Option.isSome_map, Table.isSome_get?, Table.isSome_get?] at present
  rw [← Table.contains_iff_mem_keys, ← Table.contains_iff_mem_keys, present]

theorem size_eq : c.vars.size = d.vars.size := by
  have names := (List.perm_ext_iff_of_nodup c.vars.nodup d.vars.nodup).2 same.mem_keys_iff
  rw [← Table.length_keys, ← Table.length_keys]
  exact names.length_eq

theorem pointeeOf?_eq (name : String) : c.pointeeOf? name = d.pointeeOf? name := by
  unfold pointeeOf?
  rw [same.typeOf?_eq]

theorem storeType?_eq (dst : String) (value : Operand) :
    c.storeType? dst value = d.storeType? dst value := by
  cases value with
  | const word => rfl
  | var name =>
    rw [storeType?, storeType?, same.typeOf?_eq, same.pointeeOf?_eq]

theorem loadType?_eq (dst src : String) : c.loadType? dst src = d.loadType? dst src := by
  unfold loadType?
  rw [same.typeOf?_eq, same.pointeeOf?_eq]

theorem storeTargets_eq (dst : String) (value : Operand) :
    c.storeTargets dst value = d.storeTargets dst value := by
  unfold storeTargets
  rw [same.storeType?_eq]
  cases d.storeType? dst value with
  | none => rfl
  | some ty => exact same.mayPointTo ty

theorem calleeSignature?_eq (alike : p.Alike q) {site twin : Call} (kind : site.kind = twin.kind)
    (callee : site.callee = twin.callee) :
    p.calleeSignature? c.vars site = q.calleeSignature? d.vars twin := by
  have pointers := congrArg (·.bind Ty.signature?) (same.typeOf?_eq twin.callee)
  simp only [typeOf?, Option.bind_map, Function.comp_def] at pointers
  unfold Program.calleeSignature?
  rw [kind, callee, alike.signature?_eq]
  cases twin.kind with
  | external => simp only [alike.externs twin.callee]
  | direct => simp only [alike.signatures twin.callee]
  | indirect => simp only [pointers]

theorem clobberSet_eq (alike : p.Alike q) {site twin : Call} (kind : site.kind = twin.kind)
    (callee : site.callee = twin.callee) :
    Memory.clobberSet p c.memory site = Memory.clobberSet q d.memory twin := by
  have signature : p.calleeSignature? c.memory.vars site = q.calleeSignature? d.memory.vars twin :=
    same.calleeSignature?_eq alike kind callee
  have members : ∀ ty, c.memory.aliases.mayPointTo ty = d.memory.aliases.mayPointTo ty :=
    same.mayPointTo
  have exposed : ∀ ty, ty ∈ p.exposedTypes c.memory.vars site ↔
      ty ∈ q.exposedTypes d.memory.vars twin := by
    intro ty
    unfold Program.exposedTypes
    rw [signature]
    simp only [List.mem_flatMap, List.mem_append, alike.mem_globalPointees, alike.closure_eq]
  apply Std.ExtTreeSet.ext_mem
  intro name
  unfold Memory.clobberSet
  simp only [NameSet.mem_ofNames, List.mem_append, List.mem_flatMap, List.mem_filter, exposed,
    members, callee, alike.globals.keys_perm.mem_iff]

end SameMemory

theorem clobbered_eq_of_alike (alike : p.Alike q) (same : f.SameAddresses g)
    (wellFormed : f.WellFormed) (twin_wellFormed : g.WellFormed) {inst twin : Instruction}
    (member : inst ∈ f.instructions) (twin_member : twin ∈ g.instructions) {site other : Call}
    (calls : inst.call? = some site) (twin_calls : twin.call? = some other)
    (kind : site.kind = other.kind) (callee : site.callee = other.callee) :
    (ofFunction p f).aliases.clobbered inst.point =
      (ofFunction q g).aliases.clobbered twin.point := by
  rw [clobbered_eq p wellFormed member calls, clobbered_eq q twin_wellFormed twin_member twin_calls]
  exact (sameMemory alike same).clobberSet_eq alike kind callee

end Context

end Lir
