import Lir.Proofs.Agree
import Lir.Proofs.Memory.Clobbered
import Lir.Proofs.Unwritten

/-!
What calls leave alone.

Apart from members of alias sets, a call may overwrite what bears the name of a global. A function
may declare that name again, for a parameter or a local of its own. The global is hidden then, and
the call takes away the definitions and the value of a variable that nothing outside can write. All
other parameters and locals whose address is not taken keep both.
-/

set_option autoImplicit false

namespace Lir

def Function.Declares (f : Function) (name : String) : Prop :=
  name ∈ f.params.map Param.name ∨ name ∈ f.locals.keys

/-- The name is that of a global, but the function declares it again. -/
def Function.Hides (f : Function) (p : Program) (name : String) : Prop :=
  name ∈ p.globals.keys ∧ f.Declares name

/-! ### Which declaration of a name counts -/

namespace Context

variable {p : Program} {f : Function} {name : String}

theorem kind_declaredVariables (global : name ∈ p.globals.keys) :
    ∃ v, (declaredVariables p f).get? name = some v ∧ (v.kind = .global ↔ ¬ f.Declares name) := by
  -- What is entered behind the globals, and so in their place.
  let own : List (String × Variable) :=
    f.params.map (fun param => (param.name, .declared param.name param.ty .parameter)) ++
    f.locals.entries.map fun entry => (entry.1, .declared entry.1 entry.2 .own)
  have named : name ∈ own.map Prod.fst ↔ f.Declares name := by
    simp only [own, Function.Declares, Table.keys, List.map_append, List.map_map, List.mem_append]
    rfl
  rw [declaredVariables, Table.ofList, List.append_assoc, Table.insertAll_append]
  by_cases again : f.Declares name
  · obtain ⟨v, listed, found⟩ := Table.get?_insertAll_of_mem (named.2 again)
      (Table.empty.insertAll (p.globals.entries.map fun entry =>
        (entry.1, .declared entry.1 entry.2 .global)))
    refine ⟨v, found, iff_of_false ?_ (not_not.2 again)⟩
    simp only [own, List.mem_append, List.mem_map, Prod.mk.injEq] at listed
    rcases listed with ⟨_, _, _, rfl⟩ | ⟨_, _, _, rfl⟩ <;> simp [Variable.declared]
  · have entered : name ∈ (p.globals.entries.map fun entry : String × Ty =>
        (entry.1, Variable.declared entry.1 entry.2 .global)).map Prod.fst := by
      rw [List.map_map]
      exact global
    obtain ⟨v, listed, found⟩ := Table.get?_insertAll_of_mem entered Table.empty
    refine ⟨v, (Table.get?_insertAll_of_not_mem (mt named.1 again) _).trans found,
      iff_of_true ?_ again⟩
    obtain ⟨entry, _, same⟩ := List.mem_map.1 listed
    cases same
    rfl

theorem kind_vars {v : Variable} (declared : (declaredVariables p f).get? name = some v) :
    ((ofFunction p f).vars.get? name).map Variable.kind = some v.kind := by
  have same := untargeted_vars (p := p) (f := f) name
  rw [(celled_memory p f).declared name v declared] at same
  have kinds := congrArg (Option.map Variable.kind) same
  rwa [Option.map_map, Option.map_some] at kinds

theorem kind_vars_of_global (global : name ∈ p.globals.keys) :
    ((ofFunction p f).vars.get? name).map Variable.kind = some .global ↔ ¬ f.Declares name := by
  obtain ⟨v, declared, kind⟩ := kind_declaredVariables (f := f) global
  rw [kind_vars declared, Option.some.injEq, kind]

/-! ### What a call leaves alone -/

/-- Beside globals and members of alias sets, a call overwrites the names of the globals that the
function hides, other than the callee's, and nothing else. The other parameters and locals that no
alias set has keep their definitions and values, if the call does not assign them. -/
theorem clobbered_of_hidden {source name : String} {f : Function}
    (loaded : (Program.load source).1.functions.get? name = some f)
    (entry : f.blocks.contains entryName = true) :
    ∃ ctx, build (Program.load source).1 name = .ok ctx ∧
      ∀ inst ∈ f.instructions, ∀ site, inst.call? = some site → ∀ var,
        (var ∈ ctx.aliases.clobbered inst.point →
          (ctx.vars.get? var).map Variable.kind = some .global ∨
            ctx.aliases.isAddressTaken var = true ∨
            f.Hides (Program.load source).1 var ∧ var ≠ site.callee) ∧
        (f.Hides (Program.load source).1 var → var ≠ site.callee →
          var ∈ ctx.aliases.clobbered inst.point ∧
            (ctx.vars.get? var).map Variable.kind ≠ some .global) ∧
        (f.Declares var → ctx.aliases.isAddressTaken var = false →
          (f.Hides (Program.load source).1 var → var = site.callee) → inst.def? ≠ some var →
          (∀ s, (Reaching.transfer ctx inst s)[var]? = s[var]?) ∧
            ∀ s, (Constants.transfer ctx inst s)[var]? = s[var]?) := by
  obtain ⟨ctx, built, clobbered_iff⟩ := mem_clobbered_iff loaded entry
  obtain rfl := Except.ok.inj (built.symm.trans (build_eq_ok loaded entry))
  refine ⟨_, built, fun inst member site calls var => ?_⟩
  have overwritten := clobbered_iff inst member site calls var
  have taken := (ofFunction (Program.load source).1 f).aliases.isAddressTaken_iff var
  refine ⟨fun clobbered => ?_, fun hides other => ?_, fun declares apart visible unassigned => ?_⟩
  · rcases overwritten.1 clobbered with ⟨ty, _, inside⟩ | ⟨global, other⟩
    · exact .inr (.inl (taken.2 ⟨ty, inside⟩))
    · by_cases again : f.Declares var
      · exact .inr (.inr ⟨⟨global, again⟩, other⟩)
      · exact .inl ((kind_vars_of_global global).2 again)
  · exact ⟨overwritten.2 (.inr ⟨hides.1, other⟩),
      fun kind => (kind_vars_of_global hides.1).1 kind hides.2⟩
  · have untouched : var ∉ (ofFunction (Program.load source).1 f).aliases.clobbered inst.point := by
      intro clobbered
      rcases overwritten.1 clobbered with ⟨ty, _, inside⟩ | ⟨global, other⟩
      · rw [taken.2 ⟨ty, inside⟩] at apart
        cases apart
      · exact other (visible ⟨global, declares⟩)
    have unwritten := mt (Reaching.writes_call_iff calls var).1 (not_or.2 ⟨unassigned, untouched⟩)
    exact ⟨Reaching.getElem?_transfer_of_not_writes unwritten,
      Constants.getElem?_transfer_of_not_writes unwritten⟩

def hidesGlobal : String := "\n".intercalate [
  "x: int",
  "extern step: () -> _",
  "fn test() -> int \x7b",
  "let x: int, y: int",
  "entry:",
  "x = $copy 1",
  "y = $copy 2",
  "$call_ext step()",
  "$ret x",
  "\x7d"]

def stepSite : Call := ⟨none, .external, "step", [], none⟩

def stepCall : Instruction := .op "entry" 2 (.call stepSite)

def hidingFunction : Function where
  name := "test"
  params := []
  result := some .int
  locals := .ofList [("x", .int), ("y", .int)]
  blocks := .ofList [("entry", ⟨"entry", [.op "entry" 0 (.copy "x" (.const 1)),
    .op "entry" 1 (.copy "y" (.const 2)), stepCall, .term "entry" (.ret (some (.var "x")))]⟩)]

theorem load_hidesGlobal : (Program.load hidesGlobal).1 =
    ((Program.empty.declareGlobal "x" .int).declareExternal "step" ⟨[], none⟩).define
      hidingFunction := by
  decide +kernel

/-- The call overwrites the local with the global's name and leaves the other one its value. -/
theorem clobbered_of_hidden_hidesGlobal :
    (Program.load hidesGlobal).1.functions.get? "test" = some hidingFunction ∧
      hidingFunction.blocks.contains entryName = true ∧
      ∃ ctx, build (Program.load hidesGlobal).1 "test" = .ok ctx ∧
        "x" ∈ ctx.aliases.clobbered (.op "entry" 2) ∧
        ∀ s, (Constants.transfer ctx stepCall s)["y"]? = s["y"]? := by
  have loaded : (Program.load hidesGlobal).1.functions.get? "test" = some hidingFunction := by
    rw [load_hidesGlobal]
    decide +kernel
  have entry : hidingFunction.blocks.contains entryName = true := by decide +kernel
  obtain ⟨ctx, built, calls⟩ := clobbered_of_hidden loaded entry
  obtain rfl := Except.ok.inj (built.symm.trans (build_eq_ok loaded entry))
  have member : stepCall ∈ hidingFunction.instructions := by decide +kernel
  have hides : hidingFunction.Hides (Program.load hidesGlobal).1 "x" := by
    rw [load_hidesGlobal]
    exact ⟨by decide +kernel, .inr (by decide +kernel)⟩
  have visible : ¬ hidingFunction.Hides (Program.load hidesGlobal).1 "y" := by
    rw [load_hidesGlobal]
    exact fun hides => absurd hides.1 (by decide +kernel)
  have apart : (ofFunction (Program.load hidesGlobal).1 hidingFunction).aliases.isAddressTaken "y" =
      false := by
    rw [load_hidesGlobal]
    decide +kernel
  refine ⟨loaded, entry, _, built, ((calls stepCall member stepSite rfl "x").2.1 hides
    (by decide)).1, ?_⟩
  exact ((calls stepCall member stepSite rfl "y").2.2 (.inr (by decide +kernel)) apart
    (fun hides => absurd hides visible) (by decide)).2

/-- What a call overwrites need not be a global or have its address taken: the local that hides a
global is neither. -/
theorem not_global_or_taken_of_clobbered :
    ¬ ∀ (source name : String) (f : Function),
      (Program.load source).1.functions.get? name = some f → f.blocks.contains entryName = true →
      ∀ inst ∈ f.instructions, ∀ site, inst.call? = some site →
      ∀ var ∈ (ofFunction (Program.load source).1 f).aliases.clobbered inst.point,
        ((ofFunction (Program.load source).1 f).vars.get? var).map Variable.kind = some .global ∨
          (ofFunction (Program.load source).1 f).aliases.isAddressTaken var = true := by
  intro claimed
  have covered := claimed hidesGlobal "test" hidingFunction
  rw [load_hidesGlobal] at covered
  have outside := covered (by decide +kernel) (by decide +kernel) stepCall (by decide +kernel)
    stepSite rfl "x" (by decide +kernel)
  revert outside
  decide +kernel

end Context

end Lir
