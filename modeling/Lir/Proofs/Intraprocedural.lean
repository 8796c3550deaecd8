import Lir.Proofs.Constants.Alike
import Lir.Proofs.Reaching.Alike
import Lir.Proofs.Source.Built
import Lir.Request

/-!
A report depends on no more than an analysis of one function may look at: the declarations of the
program, the signatures of its functions, and the function itself. What other functions do, and the
order in which anything is declared, does not show in it.
-/

set_option autoImplicit false

namespace Lir

variable {p q : Program} {f g : Function}

/-! ### Deciding whether programs are alike -/

theorem Program.alike_iff (p q : Program) :
    p.Alike q ↔
      p.records.agree (fun r s => r.fields.agree (fun a b => decide (a = b)) s.fields) q.records ∧
      p.globals.agree (fun a b => decide (a = b)) q.globals ∧
      p.externs.agree (fun a b => decide (a = b)) q.externs ∧
      p.functions.agree (fun f g => decide (f.signature = g.signature)) q.functions := by
  have signatures : ∀ name,
      Option.Rel (fun f g : Function => decide (f.signature = g.signature) = true)
        (p.functions.get? name) (q.functions.get? name) ↔
      (p.functions.get? name).map Function.signature =
        (q.functions.get? name).map Function.signature := by
    intro name
    cases p.functions.get? name <;> cases q.functions.get? name <;> simp
  rw [Table.agree_eq_iff, Table.agree_eq_iff, Table.agree_iff, Table.agree_iff]
  simp only [Table.agree_eq_iff, signatures]
  constructor
  · intro alike
    exact ⟨alike.records, alike.globals, alike.externs, alike.signatures⟩
  · rintro ⟨records, globals, externs, signatures⟩
    exact ⟨records, globals, externs, signatures⟩

instance (p q : Program) : Decidable (p.Alike q) := decidable_of_iff' _ (p.alike_iff q)

theorem Function.alike_iff (f g : Function) :
    f.Alike g ↔ f.params = g.params ∧ f.result = g.result ∧
      f.locals.agree (fun a b => decide (a = b)) g.locals ∧
      f.blocks.agree (fun a b => decide (a = b)) g.blocks := by
  simp only [Table.agree_eq_iff]
  constructor
  · intro same
    exact ⟨same.params, same.result, same.locals, same.blocks⟩
  · rintro ⟨params, result, locals, blocks⟩
    exact ⟨params, result, locals, blocks⟩

instance (f g : Function) : Decidable (f.Alike g) := decidable_of_iff' _ (f.alike_iff g)

/-! ### Reports -/

namespace Request

theorem analyse_eq (alike : p.Alike q) (same : f.Alike g) (wellFormed : f.WellFormed)
    (entry : f.blocks.contains entryName = true) (includeEmpty : Bool) (kind : AnalysisKind) :
    analyse (.ofFunction p f) includeEmpty kind = analyse (.ofFunction q g) includeEmpty kind := by
  have graphs := Function.graph_same same.blocks
  have graph_entry : f.graph.contains entryName = true := (f.contains_graph entryName).trans entry
  cases kind with
  | reachingDefs =>
    unfold analyse Report.ofReachingDefs
    rw [ReachingDefs.solution_eq alike same wellFormed]
  | frontiers =>
    have frontiers := Dominance.frontiers_eq f.closed_graph g.closed_graph graph_entry graphs
    exact congrArg Report.ofBlockSets frontiers
  | dominators =>
    have dominators := Dominance.dominators_eq f.closed_graph g.closed_graph graph_entry graphs
    exact congrArg Report.ofBlockSets dominators
  | constants =>
    unfold analyse
    rw [Constants.endValues_eq alike same wellFormed]

/-- For programs with the same declarations and signatures, in any order, and a function that both
declare and define alike, every request about the function is answered alike, by the same text or
the same error. -/
theorem answer_eq_of_alike {source other : String} (r : Request)
    (alike : (Program.load source).1.Alike (Program.load other).1)
    (same : Option.Rel Function.Alike ((Program.load source).1.functions.get? r.function)
      ((Program.load other).1.functions.get? r.function)) :
    r.answer (Program.load source).1 = r.answer (Program.load other).1 := by
  cases listed : (Program.load source).1.functions.get? r.function with
  | none =>
    cases twin_listed : (Program.load other).1.functions.get? r.function with
    | none =>
      unfold answer Context.build
      rw [listed, twin_listed]
    | some g => simp [listed, twin_listed] at same
  | some f =>
    cases twin_listed : (Program.load other).1.functions.get? r.function with
    | none => simp [listed, twin_listed] at same
    | some g =>
      rw [listed, twin_listed, Option.rel_some_some] at same
      have wellFormed := Program.wellFormed_load listed
      unfold answer Context.build
      simp only [listed, twin_listed, ← same.blocks.contains_eq]
      split
      next entry =>
        have reports : r.report (.ofFunction (Program.load source).1 f) =
            r.report (.ofFunction (Program.load other).1 g) := by
          unfold report
          simp only [analyse_eq alike same wellFormed entry]
        exact congrArg Except.ok reports
      next => rfl

def sumOverList : Function where
  name := "sum"
  params := [⟨"first", .pointer (.record "node")⟩]
  result := some .int
  locals := .ofList [("total", .int), ("field", .pointer .int), ("value", .int)]
  blocks := .ofList [
    ("entry", ⟨"entry", [.op "entry" 0 (.copy "total" (.const 0)),
      .op "entry" 1 (.gfp "field" "first" "value"), .term "entry" (.jump "loop")]⟩),
    ("loop", ⟨"loop", [.op "loop" 0 (.load "value" "field"),
      .op "loop" 1 (.arith "total" .add (.var "total") (.var "value")),
      .op "loop" 2 (.call ⟨some "more", .direct, "advance", [.var "first"], none⟩),
      .term "loop" (.branch (.var "more") "loop" "done")]⟩),
    ("done", ⟨"done", [.term "done" (.ret (some (.var "total")))]⟩)]

def sumOverListReversed : Function :=
  { sumOverList with
    locals := .ofList sumOverList.locals.entries.reverse
    blocks := .ofList sumOverList.blocks.entries.reverse }

def idleHelper : Function where
  name := "advance"
  params := [⟨"cell", .pointer (.record "node")⟩]
  result := some .int
  locals := ∅
  blocks := .ofList [("entry", ⟨"entry", [.term "entry" (.ret (some (.const 0)))]⟩)]

/-- A helper of the same signature that writes to memory and does not return. -/
def busyHelper : Function where
  name := "advance"
  params := [⟨"here", .pointer (.record "node")⟩]
  result := some .int
  locals := .ofList [("field", .pointer .int)]
  blocks := .ofList [("entry", ⟨"entry", [.op "entry" 0 (.gfp "field" "here" "value"),
    .op "entry" 1 (.store "field" (.const 1)), .term "entry" (.jump "entry")]⟩)]

def withIdleHelper : Program :=
  (((Program.empty.defineRecord
    (.ofFields "node" [("value", .int), ("next", .pointer (.record "node"))])).declareGlobal
    "root" (.pointer (.record "node"))).define idleHelper).define sumOverList

def withBusyHelper : Program :=
  (((Program.empty.define sumOverListReversed).define busyHelper).declareGlobal "root"
    (.pointer (.record "node"))).defineRecord
    (.ofFields "node" [("next", .pointer (.record "node")), ("value", .int)])

def everythingAboutSum : Request := ⟨"sum", AnalysisKind.all, ⟨.json, true⟩⟩

theorem answer_eq_of_alike_otherHelper :
    (Program.load withIdleHelper.render).1.Alike (Program.load withBusyHelper.render).1 ∧
    Option.Rel Function.Alike
      ((Program.load withIdleHelper.render).1.functions.get? everythingAboutSum.function)
      ((Program.load withBusyHelper.render).1.functions.get? everythingAboutSum.function) ∧
    ∃ text, everythingAboutSum.answer (Program.load withIdleHelper.render).1 = .ok text ∧
      everythingAboutSum.answer (Program.load withBusyHelper.render).1 = .ok text := by
  have idle : (Program.load withIdleHelper.render).1 = withIdleHelper := by
    apply Program.WellBuilt.load_render
    decide +kernel
  have busy : (Program.load withBusyHelper.render).1 = withBusyHelper := by
    apply Program.WellBuilt.load_render
    decide +kernel
  have alike : (Program.load withIdleHelper.render).1.Alike (Program.load withBusyHelper.render).1 := by
    rw [idle, busy]
    decide +kernel
  have listed : withIdleHelper.functions.get? "sum" = some sumOverList := by decide +kernel
  have twin_listed : withBusyHelper.functions.get? "sum" = some sumOverListReversed := by
    decide +kernel
  have same : Option.Rel Function.Alike
      ((Program.load withIdleHelper.render).1.functions.get? everythingAboutSum.function)
      ((Program.load withBusyHelper.render).1.functions.get? everythingAboutSum.function) := by
    rw [idle, busy, everythingAboutSum, listed, twin_listed]
    apply Option.Rel.some
    decide +kernel
  have answered : everythingAboutSum.answer (Program.load withIdleHelper.render).1 =
      .ok (everythingAboutSum.report (.ofFunction withIdleHelper sumOverList)) := by
    unfold answer
    rw [idle]
    exact congrArg (Except.map everythingAboutSum.report)
      (Context.build_eq_ok listed (by decide +kernel))
  exact ⟨alike, same, _, answered, (answer_eq_of_alike _ alike same).symm.trans answered⟩

end Request

end Lir
