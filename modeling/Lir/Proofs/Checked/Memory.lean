import Lir.Proofs.Checked.Search
import Lir.Proofs.Memory.Closure

/-!
The memory of a function with every partial operation checked.

The closures of types are remembered from one use to the next. Whatever is remembered is the closure
of its root, and a root's closure is remembered before it is looked up, so the lookup never misses.
-/

set_option autoImplicit false

namespace Lir

namespace Checked

/-! ### Closures -/

def closeSteps (records : Table RecordDef) : Nat → List Ty → TySet → Except Fault TySet
  | _, [], seen => .ok seen
  | 0, _ :: _, _ => .error .unfinished
  | steps + 1, ty :: rest, seen =>
    if ty.endsInFunction || ty ∈ seen then closeSteps records steps rest seen
    else closeSteps records steps (ty.parts records ++ rest) (seen.insert ty)

def closure (records : Table RecordDef) (root : Ty) : Except Fault TySet :=
  closeSteps records (root.closureBound records) [root] ∅

/-- Remember the closure of a root unless it is known, and then look it up. -/
def reachable (records : Table RecordDef) (known : TyMap TySet) (root : Ty) :
    Except Fault (TySet × TyMap TySet) := do
  let known ← if root ∈ known then .ok known else (closure records root).map (known.insert root)
  let types ← found (.notClosed root) known[root]?
  .ok (types, known)

variable {records : Table RecordDef}

theorem closeSteps_eq {steps : Nat} {waiting : List Ty} {seen : TySet}
    (enough : Ty.stepsLeft records waiting seen ≤ steps) :
    closeSteps records steps waiting seen = .ok (Ty.closeSteps records steps waiting seen) := by
  induction steps generalizing waiting seen with
  | zero =>
    cases waiting with
    | nil => rfl
    | cons ty waiting =>
      simp only [Ty.stepsLeft, Ty.looks, List.map_cons, List.sum_cons] at enough
      omega
  | succ steps ih =>
    cases waiting with
    | nil => rfl
    | cons ty waiting =>
      rw [closeSteps, Ty.closeSteps]
      split
      next dropped =>
        refine ih ?_
        simp only [Ty.stepsLeft, Ty.looks, List.map_cons, List.sum_cons] at enough ⊢
        omega
      next kept =>
        obtain ⟨data, new⟩ : ty.endsInFunction = false ∧ ty ∉ seen := by simpa using kept
        have less : Ty.stepsLeft records (ty.parts records ++ waiting) (seen.insert ty) + 1 ≤
            Ty.stepsLeft records (ty :: waiting) seen := Ty.stepsLeft_insert new data
        exact ih (by omega)

theorem closure_eq (root : Ty) : closure records root = .ok (root.closure records) :=
  closeSteps_eq (Ty.closureBound_eq records root).ge

def Remembered (records : Table RecordDef) (known : TyMap TySet) : Prop :=
  ∀ (root : Ty) (types : TySet), known[root]? = some types → types = root.closure records

/-- The result is the given value, with closures that are remembered rightly. -/
def Gives {α : Type} (records : Table RecordDef) (result : Except Fault (α × TyMap TySet))
    (value : α) : Prop :=
  ∃ known, result = .ok (value, known) ∧ Remembered records known

theorem remembered_empty (records : Table RecordDef) : Remembered records ∅ :=
  fun _ _ at_root => by simp at at_root

theorem gives_reachable {known : TyMap TySet} (remembered : Remembered records known) (root : Ty) :
    Gives records (reachable records known root) (root.closure records) := by
  by_cases present : root ∈ known
  · obtain ⟨types, at_root⟩ := (mem_map_iff known root).1 present
    obtain rfl := remembered root types at_root
    refine ⟨known, ?_, remembered⟩
    simp only [reachable, if_pos present, ok_bind, at_root, found_some]
  · -- A root that is new is looked up right after its closure has been remembered.
    refine ⟨known.insert root (root.closure records), ?_, ?_⟩
    · rw [reachable, if_neg present, closure_eq]
      simp [Except.map]
    · intro other types at_other
      rw [getElem?_insert_map] at at_other
      split at at_other
      next same => rw [← Option.some.inj at_other, same]
      next => exact remembered other types at_other

/-- A loop that hands on what is remembered runs like the unchecked one. -/
theorem gives_foldlM {α β : Type} {step : β × TyMap TySet → α → Except Fault (β × TyMap TySet)}
    {total : β → α → β} (items : List α)
    (turn : ∀ item b known, Remembered records known →
      Gives records (step (b, known) item) (total b item)) {known : TyMap TySet}
    (remembered : Remembered records known) (b : β) :
    Gives records (items.foldlM step (b, known)) (items.foldl total b) := by
  induction items generalizing b known with
  | nil => exact ⟨known, rfl, remembered⟩
  | cons item rest ih =>
    obtain ⟨next, same, kept⟩ := turn item b known remembered
    rw [List.foldlM_cons, same, List.foldl_cons]
    exact ih kept (total b item)

/-! ### Cells and calls -/

def addCells (records : Table RecordDef) (state : Memory × TyMap TySet) (root : Ty) :
    Except Fault (Memory × TyMap TySet) := do
  let (types, known) ← reachable records state.2 root
  .ok (types.toList.foldl Memory.addCell state.1, known)

def exposedPointees (p : Program) (vars : Table Variable) (site : Call) : List Ty :=
  (match p.calleeSignature? vars site with
    | some signature => signature.exposed
    | none => []) ++ p.globalPointees

def exposedTypes (p : Program) (vars : Table Variable) (site : Call) (known : TyMap TySet) :
    Except Fault (List Ty × TyMap TySet) :=
  (exposedPointees p vars site).foldlM
    (fun state pointee => do
      let (types, known) ← reachable p.records state.2 pointee
      .ok (state.1 ++ types.toList, known))
    ([], known)

def noteCall (p : Program) (state : Memory × TyMap TySet) (inst : Instruction) :
    Except Fault (Memory × TyMap TySet) :=
  match inst.call? with
  | some site => do
    let (types, known) ← exposedTypes p state.1.vars site state.2
    let names := types.flatMap (fun ty => (state.1.aliases.mayPointTo ty).toList) ++
      p.globals.keys.filter fun name => name ≠ site.callee
    .ok ({ state.1 with aliases :=
      { state.1.aliases with
        clobbers := state.1.aliases.clobbers.insert inst.point (.ofNames names) } }, known)
  | none => .ok state

/-- The memory of a function. The closures remembered for its cells serve its calls too. -/
def memory (p : Program) (f : Function) (vars : Table Variable) : Except Fault Memory := do
  let (withCells, known) ←
    (p.cellRoots f vars).toList.foldlM (addCells p.records) (⟨vars, .empty⟩, ∅)
  let withAddresses := f.instructions.foldl Memory.noteAddress withCells
  let (memory, _) ← f.instructions.foldlM (noteCall p) (withAddresses, known)
  .ok memory

theorem gives_addCells {known : TyMap TySet} (remembered : Remembered records known) (m : Memory)
    (root : Ty) :
    Gives records (addCells records (m, known) root)
      ((root.closure records).toList.foldl Memory.addCell m) := by
  obtain ⟨next, same, kept⟩ := gives_reachable remembered root
  refine ⟨next, ?_, kept⟩
  rw [addCells, same]
  rfl

theorem gives_exposedTypes {p : Program} {known : TyMap TySet}
    (remembered : Remembered p.records known) (vars : Table Variable) (site : Call) :
    Gives p.records (exposedTypes p vars site known) (p.exposedTypes vars site) := by
  have listed : p.exposedTypes vars site = (exposedPointees p vars site).foldl
      (fun types pointee => types ++ (pointee.closure p.records).toList) [] :=
    List.flatMap_eq_foldl
  rw [listed]
  refine gives_foldlM _ (fun pointee types known remembered => ?_) remembered []
  obtain ⟨next, same, kept⟩ := gives_reachable remembered pointee
  refine ⟨next, ?_, kept⟩
  rw [same]
  rfl

theorem gives_noteCall {p : Program} {known : TyMap TySet}
    (remembered : Remembered p.records known) (m : Memory) (inst : Instruction) :
    Gives p.records (noteCall p (m, known) inst) (m.noteCall p inst) := by
  rw [noteCall, Memory.noteCall]
  cases inst.call? with
  | none => exact ⟨known, rfl, remembered⟩
  | some site =>
    obtain ⟨next, same, kept⟩ := gives_exposedTypes remembered m.vars site
    refine ⟨next, ?_, kept⟩
    simp only [same, ok_bind]
    rfl

theorem memory_eq (p : Program) (f : Function) (vars : Table Variable) :
    memory p f vars = .ok (Memory.build p f vars) := by
  obtain ⟨known, cells, kept⟩ := gives_foldlM (p.cellRoots f vars).toList
    (fun root m _ remembered => gives_addCells remembered m root)
    (remembered_empty p.records) ⟨vars, .empty⟩
  rw [← List.foldl_flatMap, ← Program.cellTypes] at cells
  obtain ⟨_, calls, _⟩ := gives_foldlM f.instructions
    (fun inst m _ remembered => gives_noteCall remembered m inst) kept
    (f.instructions.foldl Memory.noteAddress
      ((p.cellTypes f vars).foldl Memory.addCell ⟨vars, .empty⟩))
  simp only [memory, cells, calls, ok_bind]
  rfl

end Checked

end Lir
