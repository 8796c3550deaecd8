import Lir.Proofs.Checked.Dominance
import Lir.Proofs.Checked.Memory
import Lir.Request

/-!
Requests with every partial operation checked.

Whatever the program, the checked answer is the answer: no lookup misses, nothing is divided by zero
and every loop ends. So a request fails for two reasons only, a function that is not there and a
function without an entry block.
-/

set_option autoImplicit false

namespace Lir

theorem Context.build_cases (p : Program) (name : String) :
    (p.functions.get? name = none ∧ build p name = .error (.functionNotFound name)) ∨
    (∃ f, p.functions.get? name = some f ∧ f.blocks.contains entryName = false ∧
      build p name = .error (.missingEntryBlock name)) ∨
    (∃ f, p.functions.get? name = some f ∧ f.blocks.contains entryName = true ∧
      build p name = .ok (ofFunction p f)) := by
  rw [build]
  cases p.functions.get? name with
  | none => exact .inl ⟨rfl, rfl⟩
  | some f =>
    cases entry : f.blocks.contains entryName with
    | false => exact .inr (.inl ⟨f, rfl, entry, by simp [entry]⟩)
    | true => exact .inr (.inr ⟨f, rfl, entry, by simp [entry]⟩)

namespace Checked

def context (p : Program) (name : String) : Except Fault (Except ContextError Context) :=
  match p.functions.get? name with
  | none => .ok (.error (.functionNotFound name))
  | some f =>
    if f.blocks.contains entryName then do
      let memory ← memory p f (Context.declaredVariables p f)
      .ok (.ok ⟨p, f, memory⟩)
    else .ok (.error (.missingEntryBlock name))

/-- The result of one analysis. The transfer function of reaching definitions has no partial
operation. -/
def analyse (ctx : Context) (includeEmpty : Bool) : AnalysisKind → Except Fault Report
  | .reachingDefs => do
    let fixpoint ← solve (Reaching.analysis ctx) (fun inst s => .ok (Reaching.transfer ctx inst s))
      ctx.function (Reaching.height ctx)
    let result := ctx.function.blocks.entries.foldl (ReachingDefs.recordBlock ctx)
      ⟨fixpoint, ∅, ∅, ∅⟩
    .ok (.ofReachingDefs result includeEmpty)
  | .frontiers => do
    let built ← dominance ctx.graph
    .ok (.ofBlockSets built.frontiers)
  | .dominators => do
    let built ← dominance ctx.graph
    .ok (.ofBlockSets built.dominators)
  | .constants => do
    let fixpoint ← solve (Constants.analysis ctx) (constantsTransfer ctx) ctx.function
      (Constants.height ctx)
    .ok (.ofConstants (Constants.endValues ctx fixpoint) includeEmpty)

def answer (r : Request) (p : Program) : Except Fault (Except ContextError String) := do
  match ← context p r.function with
  | .error error => .ok (.error error)
  | .ok ctx => do
    let output ← r.analyses.foldlM
      (fun output kind => do
        let report ← analyse ctx r.options.includeEmpty kind
        .ok (output ++ report.render r.options.format)) ""
    .ok (.ok output)

theorem context_eq (p : Program) (name : String) : context p name = .ok (Context.build p name) := by
  rw [context, Context.build]
  cases p.functions.get? name with
  | none => rfl
  | some f =>
    dsimp only
    rw [memory_eq]
    split <;> rfl

theorem analyse_eq {p : Program} {f : Function} (entry : f.blocks.contains entryName = true)
    (includeEmpty : Bool) (kind : AnalysisKind) :
    analyse (.ofFunction p f) includeEmpty kind =
      .ok (Request.analyse (.ofFunction p f) includeEmpty kind) := by
  let ctx := Context.ofFunction p f
  have built : dominance ctx.graph = .ok (Dominance.build ctx.graph) := dominance_eq f.closed_graph
  cases kind with
  | reachingDefs =>
    have solved : solve (Reaching.analysis ctx) (fun inst s => .ok (Reaching.transfer ctx inst s))
        ctx.function (Reaching.height ctx) = .ok (Reaching.solve ctx) :=
      solve_eq (fun _ _ => rfl) entry (Reaching.fullRanking ctx)
    rw [analyse, solved]
    rfl
  | frontiers =>
    rw [analyse, built]
    rfl
  | dominators =>
    rw [analyse, built]
    rfl
  | constants =>
    have solved : solve (Constants.analysis ctx) (constantsTransfer ctx) ctx.function
        (Constants.height ctx) = .ok (Constants.solve ctx) :=
      solve_eq (constantsTransfer_eq ctx) entry (Constants.fullRanking p f)
    rw [analyse, solved]
    rfl

theorem answer_eq (r : Request) (p : Program) : answer r p = .ok (r.answer p) := by
  rw [answer, Request.answer, context_eq, ok_bind]
  rcases Context.build_cases p r.function with
    ⟨_, built⟩ | ⟨f, _, _, built⟩ | ⟨f, _, entry, built⟩
  · rw [built]
    rfl
  · rw [built]
    rfl
  · rw [built]
    let render := fun report : Report => report.render r.options.format
    let analysed := Request.analyse (.ofFunction p f) r.options.includeEmpty
    have reports : r.analyses.foldlM
        (fun output kind => do
          let report ← analyse (.ofFunction p f) r.options.includeEmpty kind
          .ok (output ++ render report)) "" =
        .ok (r.analyses.foldl (fun output kind => output ++ render (analysed kind)) "") :=
      foldlM_ok (fun kind _ output => by rw [analyse_eq entry]; rfl) ""
    have joined : r.report (.ofFunction p f) =
        r.analyses.foldl (fun output kind => output ++ render (analysed kind)) "" := by
      rw [Request.report, String.join, List.foldl_map]
    dsimp only
    rw [reports, ← joined]
    rfl

end Checked

/-- Every request on every program is answered without a fault: by an error where the function is
not there, by another where it has no entry block, and otherwise by a text. -/
theorem Request.answer_without_fault (r : Request) (p : Program) :
    Checked.answer r p = .ok (r.answer p) ∧
    (r.answer p = .error (.functionNotFound r.function) ↔
      p.functions.contains r.function = false) ∧
    (r.answer p = .error (.missingEntryBlock r.function) ↔
      ∃ f, p.functions.get? r.function = some f ∧ f.blocks.contains entryName = false) ∧
    ((∃ text, r.answer p = .ok text) ↔
      ∃ f, p.functions.get? r.function = some f ∧ f.blocks.contains entryName = true) := by
  refine ⟨Checked.answer_eq r p, ?_⟩
  rw [← Table.isSome_get?, Request.answer]
  rcases Context.build_cases p r.function with
    ⟨listed, built⟩ | ⟨f, listed, entry, built⟩ | ⟨f, listed, entry, built⟩
  all_goals simp [listed, built, Except.map]
  all_goals simp [entry]

end Lir
