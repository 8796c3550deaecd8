import Lir.Proofs.Constants.Transfer

/-!
Constant propagation is sound for executions.

An execution gives words to the variables that hold integers and chooses freely whatever the
function alone does not decide: what comes from outside, what memory holds, which of the possible
targets a store or a call writes, and where control goes at the end of a block. The state found at
each end of a block covers every word that a variable can hold there.
-/

set_option autoImplicit false

namespace Lir

/-- The words that integer variables hold. A variable without one is undefined. -/
abbrev Cells := String → Option Int32

namespace Cells

def assign (m : Cells) (ctx : Context) (dst : String) (word : Int32) : Cells := fun name =>
  if dst = name ∧ ctx.typeOf? dst = some .int then some word else m name

def overwrite (m : Cells) (written : NameSet) (words : String → Int32) : Cells := fun name =>
  if name ∈ written then some (words name) else m name

end Cells

namespace Instruction

def addressDst? : Instruction → Option String
  | .op _ _ (.gep dst _ _) | .op _ _ (.gfp dst _ _) | .op _ _ (.alloc dst _ _)
  | .op _ _ (.addrOf dst _) => some dst
  | _ => none

end Instruction

namespace Constants

/-- The words that an operand may give. An integer variable gives the word it holds, so one that
is undefined gives none; what is not an integer may give any. -/
inductive Gives (ctx : Context) (m : Cells) : Operand → Int32 → Prop where
  | literal {word : Int32} : Gives ctx m (.const word) word
  | held {name : String} {word : Int32} :
      ctx.typeOf? name = some .int → m name = some word → Gives ctx m (.var name) word
  | foreign {name : String} {word : Int32} :
      ctx.typeOf? name ≠ some .int → Gives ctx m (.var name) word

/-- One instruction. Conditions, arguments and pointers are not looked at, which only allows more
executions. -/
inductive Executes (ctx : Context) : Instruction → Cells → Cells → Prop where
  | copy {block : String} {index : Nat} {dst : String} {src : Operand} {m : Cells} {word : Int32} :
      Gives ctx m src word →
      Executes ctx (.op block index (.copy dst src)) m (m.assign ctx dst word)
  /-- A division by zero has no result. -/
  | arith {block : String} {index : Nat} {dst : String} {op : ArithOp} {lhs rhs : Operand}
      {m : Cells} {a b : Int32} :
      Gives ctx m lhs a → Gives ctx m rhs b → (op = .div → b ≠ 0) →
      Executes ctx (.op block index (.arith dst op lhs rhs)) m
        (m.assign ctx dst (op.wrapped a b))
  | cmp {block : String} {index : Nat} {dst : String} {op : CmpOp} {lhs rhs : Operand}
      {m : Cells} {a b : Int32} :
      Gives ctx m lhs a → Gives ctx m rhs b →
      Executes ctx (.op block index (.cmp dst op lhs rhs)) m
        (m.assign ctx dst (if op.OnIntegers a.toInt b.toInt then 1 else 0))
  | load {block : String} {index : Nat} {dst src : String} {m : Cells} {word : Int32} :
      Executes ctx (.op block index (.load dst src)) m (m.assign ctx dst word)
  | store {block : String} {index : Nat} {dst : String} {value : Operand} {m : Cells}
      {word : Int32} {written : NameSet} :
      ctx.storeType? dst value = some .int → Gives ctx m value word →
      (∀ name ∈ written, name ∈ ctx.aliases.mayPointTo .int) →
      Executes ctx (.op block index (.store dst value)) m (m.overwrite written fun _ => word)
  | storeOther {block : String} {index : Nat} {dst : String} {value : Operand} {m : Cells} :
      ctx.storeType? dst value ≠ some .int →
      Executes ctx (.op block index (.store dst value)) m m
  | call {block : String} {index : Nat} {site : Call} {m : Cells} {written : NameSet}
      {words : String → Int32} {result : Int32} :
      (∀ name ∈ written, name ∈ ctx.aliases.clobbered (.op block index)) →
      Executes ctx (.op block index (.call site)) m
        (site.dst.elim (m.overwrite written words) fun dst =>
          (m.overwrite written words).assign ctx dst result)
  | address {inst : Instruction} {dst : String} {m : Cells} {word : Int32} :
      inst.addressDst? = some dst → Executes ctx inst m (m.assign ctx dst word)
  | term {block : String} {terminator : Terminator} {m : Cells} :
      Executes ctx (.term block terminator) m m

inductive ExecutesAll (ctx : Context) : List Instruction → Cells → Cells → Prop where
  | nil {m : Cells} : ExecutesAll ctx [] m m
  | cons {inst : Instruction} {rest : List Instruction} {m₁ m₂ m₃ : Cells} :
      Executes ctx inst m₁ m₂ → ExecutesAll ctx rest m₂ m₃ → ExecutesAll ctx (inst :: rest) m₁ m₃

/-- At first the function's own integers are undefined and all others hold some word. -/
def Starts (ctx : Context) (m : Cells) : Prop :=
  ∀ name v, ctx.vars.get? name = some v → v.ty = .int → (m name = none ↔ v.kind = .own)

/-- Some execution, of any length, is at the start of the block. -/
inductive AtStart (ctx : Context) : String → Cells → Prop where
  | entry {m : Cells} : Starts ctx m → AtStart ctx entryName m
  | step {source target : String} {block : Block} {before after : Cells} :
      AtStart ctx source before → ctx.function.blocks.get? source = some block →
      ExecutesAll ctx block.instructions before after → target ∈ ctx.graph.successors source →
      AtStart ctx target after

def AtEnd (ctx : Context) (name : String) (m : Cells) : Prop :=
  ∃ block before, AtStart ctx name before ∧ ctx.function.blocks.get? name = some block ∧
    ExecutesAll ctx block.instructions before m

/-- Every integer variable has a value, which covers the word that the variable holds. -/
def Approximates (ctx : Context) (s : ConstEnv) (m : Cells) : Prop :=
  ∀ name, ctx.typeOf? name = some .int → ∃ value, s[name]? = some value ∧
    ∀ word, m name = some word → value.Covers word

variable {ctx : Context} {s : ConstEnv} {m : Cells}

/-! ### One instruction -/

theorem tracks_of_isInt {name : String} (isInt : ctx.typeOf? name = some .int) :
    tracks ctx name = true := by
  rw [tracks, isInt]
  rfl

theorem value_covers (approximates : Approximates ctx s m) (tracked : Tracked ctx s)
    {operand : Operand} {word : Int32} (gives : Gives ctx m operand word)
    (declared : ∀ name, operand.name? = some name → ∃ ty, ctx.typeOf? name = some ty) :
    (ConstEnv.value s operand).Covers word := by
  cases gives with
  | literal => exact rfl
  | @held name word isInt holds =>
    obtain ⟨value, found, covers⟩ := approximates name isInt
    rw [ConstEnv.value, found]
    exact covers word holds
  | @foreign name word other =>
    obtain ⟨ty, type⟩ := declared name rfl
    have absent : s[name]? = none := by
      cases found : s[name]? with
      | none => rfl
      | some value =>
        have isInt := tracked name ((mem_map_iff s name).2 ⟨value, found⟩)
        rw [tracks, type] at isInt
        cases ty with
        | int => exact absurd type other
        | _ => simp [Ty.isInt] at isInt
    rw [ConstEnv.value, absent]
    trivial

theorem Approximates.assign (approximates : Approximates ctx s m) {value : FlatInt} {word : Int32}
    (covers : value.Covers word) (dst : String) :
    Approximates ctx (assign ctx s dst value) (m.assign ctx dst word) := by
  intro name isInt
  rw [getElem?_assign]
  by_cases same : dst = name
  · subst same
    refine ⟨value, if_pos ⟨tracks_of_isInt isInt, rfl⟩, fun other held => ?_⟩
    rw [Cells.assign, if_pos ⟨rfl, isInt⟩] at held
    exact Option.some.inj held ▸ covers
  · obtain ⟨old, found, covers⟩ := approximates name isInt
    refine ⟨old, (if_neg fun both => same both.2).trans found, fun other held => ?_⟩
    rw [Cells.assign, if_neg fun both => same both.1] at held
    exact covers other held

theorem Approximates.overwrite (approximates : Approximates ctx s m) {t : ConstEnv}
    {names written : NameSet} {change : FlatInt → FlatInt} {words : String → Int32}
    (changed : ∀ name : String,
      t[name]? = if name ∈ names then s[name]?.map change else s[name]?)
    (within : ∀ name ∈ written, name ∈ names)
    (keeps : ∀ value word, value.Covers word → (change value).Covers word)
    (covers : ∀ value, ∀ name ∈ written, (change value).Covers (words name)) :
    Approximates ctx t (m.overwrite written words) := by
  intro name isInt
  obtain ⟨old, found, old_covers⟩ := approximates name isInt
  rw [changed, found]
  by_cases listed : name ∈ names
  · refine ⟨change old, if_pos listed, fun word held => ?_⟩
    rw [Cells.overwrite] at held
    split at held
    next hit => exact Option.some.inj held ▸ covers old name hit
    next => exact keeps old word (old_covers word held)
  · have missed : name ∉ written := fun hit => listed (within name hit)
    refine ⟨old, if_neg listed, fun word held => ?_⟩
    rw [Cells.overwrite, if_neg missed] at held
    exact old_covers word held

theorem assign_eq_self {dst : String} (other : ctx.typeOf? dst ≠ some .int) (word : Int32) :
    m.assign ctx dst word = m := by
  funext name
  rw [Cells.assign, if_neg fun both => other both.2]

/-- The effect of an instruction on values covers what executing it does to words. -/
theorem Executes.approximates {inst : Instruction} {next : Cells} (step : Executes ctx inst m next)
    (approximates : Approximates ctx s m) (tracked : Tracked ctx s)
    (declared : ∀ name ∈ inst.mentions, ∃ ty, ctx.typeOf? name = some ty)
    (pointers : ∀ dst, inst.addressDst? = some dst → ctx.typeOf? dst ≠ some .int) :
    Approximates ctx (transfer ctx inst s) next := by
  cases step with
  | @copy _ _ dst src _ word gives =>
    have covers := value_covers approximates tracked gives fun name named =>
      declared name (by simp [Instruction.mentions, Instruction.uses, Op.uses, named])
    obtain ⟨ty, type⟩ := declared dst
      (by simp [Instruction.mentions, Instruction.def?, Op.def?])
    have known : copiesUnknown ctx s dst src = false := by
      cases src <;> simp [copiesUnknown, type]
    rw [transfer, known]
    exact approximates.assign covers dst
  | @arith _ _ dst op lhs rhs _ a b left right defined =>
    have left_covers := value_covers approximates tracked left fun name named =>
      declared name (by simp [Instruction.mentions, Instruction.uses, Op.uses, named])
    have right_covers := value_covers approximates tracked right fun name named =>
      declared name (by simp [Instruction.mentions, Instruction.uses, Op.uses, named])
    exact approximates.assign (FlatInt.arith_covers left_covers right_covers defined) dst
  | @cmp _ _ dst op lhs rhs _ a b left right =>
    have left_covers := value_covers approximates tracked left fun name named =>
      declared name (by simp [Instruction.mentions, Instruction.uses, Op.uses, named])
    have right_covers := value_covers approximates tracked right fun name named =>
      declared name (by simp [Instruction.mentions, Instruction.uses, Op.uses, named])
    exact approximates.assign (FlatInt.compare_covers left_covers right_covers) dst
  | @load _ _ dst src _ word =>
    have any : FlatInt.top.Covers word := trivial
    exact approximates.assign any dst
  | @store _ _ dst value _ word written storesInt gives within =>
    have covers := value_covers approximates tracked gives fun name named =>
      declared name (by simp [Instruction.mentions, Instruction.uses, Op.uses, named])
    rw [transfer, if_pos storesInt]
    exact approximates.overwrite (ConstEnv.getElem?_joinAll s _ _) within
      (fun _ _ held => held.join_left _) fun _ _ _ => covers.join_right _
  | @storeOther _ _ dst value _ other =>
    rw [transfer, if_neg other]
    exact approximates
  | @call _ _ site _ written words result within =>
    have forgotten : Approximates ctx _ (m.overwrite written words) :=
      approximates.overwrite (ConstEnv.getElem?_forgetAll s _) within (fun _ _ _ => trivial)
        fun _ _ _ => trivial
    obtain ⟨dst, _, _, _, _⟩ := site
    cases dst with
    | none => exact forgotten
    | some dst =>
      have any : FlatInt.top.Covers result := trivial
      exact forgotten.assign any dst
  | @address _ dst _ word makes =>
    rw [assign_eq_self (pointers dst makes)]
    have unchanged : transfer ctx inst s = s := by
      cases inst with
      | term _ _ => rfl
      | op _ _ operation => cases operation <;> first | rfl | simp [Instruction.addressDst?] at makes
    rwa [unchanged]
  | term => exact approximates

/-! ### Runs -/

theorem ExecutesAll.approximates {instructions : List Instruction} {next : Cells}
    (steps : ExecutesAll ctx instructions m next) (approximates : Approximates ctx s m)
    (tracked : Tracked ctx s)
    (declared : ∀ inst ∈ instructions, ∀ name ∈ inst.mentions, ∃ ty, ctx.typeOf? name = some ty)
    (pointers : ∀ inst ∈ instructions, ∀ dst, inst.addressDst? = some dst →
      ctx.typeOf? dst ≠ some .int) :
    Approximates ctx ((analysis ctx).transferAll instructions s) next := by
  induction steps generalizing s with
  | nil => exact approximates
  | @cons inst rest _ _ _ step _ ih =>
    obtain ⟨first_declared, rest_declared⟩ := List.forall_mem_cons.1 declared
    obtain ⟨first_pointers, rest_pointers⟩ := List.forall_mem_cons.1 pointers
    exact ih (step.approximates approximates tracked first_declared first_pointers)
      (tracked.transferAll [inst]) rest_declared rest_pointers

theorem Approximates.join (approximates : Approximates ctx s m) (t : ConstEnv) :
    Approximates ctx (Lir.join s t) m := by
  intro name isInt
  obtain ⟨value, found, covers⟩ := approximates name isInt
  rw [getElem?_join, found]
  cases t[name]? with
  | none => exact ⟨value, rfl, covers⟩
  | some other => exact ⟨_, rfl, fun word held => (covers word held).join_left other⟩

section

variable {p : Program} {f : Function}

theorem approximates_start (starts : Starts (.ofFunction p f) m) :
    Approximates (.ofFunction p f) (start (.ofFunction p f)) m := by
  intro name isInt
  obtain ⟨v, declared, type⟩ := Option.map_eq_some_iff.1 isInt
  refine ⟨startValue v, getElem?_start_of_isInt declared (by simp [type, Ty.isInt]), ?_⟩
  intro word held
  have kind := starts name v declared type
  rw [startValue]
  split
  next own => simp [kind.2 own] at held
  next => trivial

/-- What holds of a function whose instructions name variables only, and make pointers of no
integer. -/
structure Typed (p : Program) (f : Function) : Prop where
  declared : ∀ inst ∈ f.instructions, ∀ name ∈ inst.mentions,
    (Context.ofFunction p f).vars.contains name = true
  pointers : ∀ inst ∈ f.instructions, ∀ dst, inst.addressDst? = some dst →
    (Context.ofFunction p f).typeOf? dst ≠ some .int

theorem typed_iff (p : Program) (f : Function) :
    Typed p f ↔ ∀ inst ∈ f.instructions,
      (∀ name ∈ inst.mentions, (Context.ofFunction p f).vars.contains name = true) ∧
      ∀ dst ∈ inst.addressDst?.toList, (Context.ofFunction p f).typeOf? dst ≠ some .int := by
  simp only [Option.mem_toList]
  exact ⟨fun typed inst member => ⟨typed.declared inst member, typed.pointers inst member⟩,
    fun all => ⟨fun inst member => (all inst member).1, fun inst member => (all inst member).2⟩⟩

instance (p : Program) (f : Function) : Decidable (Typed p f) :=
  decidable_of_iff' _ (typed_iff p f)

theorem Typed.transferAll (typed : Typed p f) {name : String} {block : Block}
    (listed : f.blocks.get? name = some block) {before after : Cells}
    (steps : ExecutesAll (.ofFunction p f) block.instructions before after)
    (approximates : Approximates (.ofFunction p f) s before)
    (tracked : Tracked (.ofFunction p f) s) :
    Approximates (.ofFunction p f)
      ((analysis (.ofFunction p f)).transferBlock block s) after := by
  have inside : ∀ inst ∈ block.instructions, inst ∈ f.instructions := fun inst member =>
    (f.mem_instructions inst).2 ⟨name, block, listed, member⟩
  refine steps.approximates approximates tracked ?_ fun inst member =>
    typed.pointers inst (inside inst member)
  intro inst member name mentioned
  obtain ⟨v, found⟩ := (Table.contains_eq_true_iff _ name).1
    (typed.declared inst (inside inst member) name mentioned)
  exact ⟨v.ty, by rw [Context.typeOf?, found]; rfl⟩

theorem AtStart.reaches {name : String} {m : Cells} (run : AtStart (.ofFunction p f) name m) :
    f.graph.Reaches name := by
  induction run with
  | entry _ => exact .entry
  | step _ _ _ edge ih => exact ih.step edge

theorem AtStart.approximates (entry : f.blocks.contains entryName = true) (typed : Typed p f)
    {name : String} (run : AtStart (.ofFunction p f) name m) {s : ConstEnv}
    (found : (solve (.ofFunction p f)).pre[name]? = some s) :
    Approximates (.ofFunction p f) s m := by
  have solved := solved p entry
  induction run generalizing s with
  | entry starts =>
    obtain ⟨first, at_entry, grown⟩ := solved.entry
    obtain rfl := Option.some.inj (at_entry.symm.trans found)
    rw [← grown, join_comm]
    exact (approximates_start starts).join first
  | @step source target block before after run listed steps edge ih =>
    obtain ⟨first, at_source⟩ := (mem_map_iff _ source).1 ((solved.mem_pre source).2 run.reaches)
    have at_end := solved.block source block first listed at_source
    have passed := typed.transferAll listed steps (ih at_source) (tracked_pre entry at_source)
    rw [← solved.edge source target _ s edge at_end found, join_comm]
    exact passed.join s

theorem AtEnd.approximates (entry : f.blocks.contains entryName = true) (typed : Typed p f)
    {name : String} (run : AtEnd (.ofFunction p f) name m) :
    ∃ s : ConstEnv, (solve (.ofFunction p f)).post[name]? = some s ∧
      Approximates (.ofFunction p f) s m := by
  obtain ⟨block, before, run, listed, steps⟩ := run
  have solved := solved p entry
  obtain ⟨first, at_start⟩ := (mem_map_iff _ name).1 ((solved.mem_pre name).2 run.reaches)
  exact ⟨_, solved.block name block first listed at_start,
    typed.transferAll listed steps (run.approximates entry typed at_start)
      (tracked_pre entry at_start)⟩

theorem Approximates.value_eq (approximates : Approximates ctx s m) {var : String} {word : Int32}
    (isInt : ctx.typeOf? var = some .int) (held : m var = some word) :
    s[var]? = some (.const word) ∨ s[var]? = some .top := by
  obtain ⟨value, found, covers⟩ := approximates var isInt
  rw [found]
  exact ((value.covers_iff word).1 (covers word held)).imp (congrArg some) (congrArg some)

end

/-- Whenever an execution is at one end of a block and an integer variable holds a word there, the
value found for the variable is that word or `top`. -/
theorem value_of_execution {p : Program} {name : String} {f : Function}
    (listed : p.functions.get? name = some f) (entry : f.blocks.contains entryName = true)
    (typed : Typed p f) :
    ∃ ctx, Context.build p name = .ok ctx ∧ ∀ block m var word,
      ctx.typeOf? var = some .int → m var = some word →
      (AtStart ctx block m → valueAtStart (solve ctx) block var = some (.const word) ∨
        valueAtStart (solve ctx) block var = some .top) ∧
      (AtEnd ctx block m → valueAtEnd (solve ctx) block var = some (.const word) ∨
        valueAtEnd (solve ctx) block var = some .top) := by
  refine ⟨.ofFunction p f, by simp [Context.build, listed, entry], ?_⟩
  intro block m var word isInt held
  constructor
  · intro run
    obtain ⟨s, found⟩ :=
      (mem_map_iff _ block).1 (((solved p entry).mem_pre block).2 run.reaches)
    rw [valueAtStart, found]
    exact (run.approximates entry typed found).value_eq isInt held
  · intro run
    obtain ⟨s, found, approximates⟩ := run.approximates entry typed
    rw [valueAtEnd, found]
    exact approximates.value_eq isInt held

def storedCount : Function where
  name := "test"
  params := []
  result := none
  locals := .ofList [("i", .int), ("p", .pointer .int), ("ahead", .int)]
  blocks := .ofList [
    ("entry", ⟨"entry", [.op "entry" 0 (.addrOf "p" "i"), .op "entry" 1 (.store "p" (.const 3)),
      .op "entry" 2 (.cmp "ahead" .lt (.const (-1)) (.var "i")), .term "entry" (.jump "loop")]⟩),
    ("loop", ⟨"loop", [.op "loop" 0 (.arith "i" .sub (.var "i") (.const 1)),
      .term "loop" (.branch (.var "i") "loop" "exit")]⟩),
    ("exit", ⟨"exit", [.term "exit" (.ret none)]⟩)]

/-- After a round of the loop the counter is one less than what the store wrote, and the comparison
still holds. -/
theorem value_of_execution_storedCount :
    (Program.empty.define storedCount).functions.get? "test" = some storedCount ∧
    storedCount.blocks.contains entryName = true ∧
    Typed (Program.empty.define storedCount) storedCount ∧
    ∃ ctx m, Context.build (Program.empty.define storedCount) "test" = .ok ctx ∧
      ctx.typeOf? "i" = some .int ∧ ctx.typeOf? "ahead" = some .int ∧
      m "i" = some 2 ∧ m "ahead" = some 1 ∧ AtStart ctx "loop" m ∧
      (valueAtStart (solve ctx) "loop" "i" = some (.const 2) ∨
        valueAtStart (solve ctx) "loop" "i" = some .top) ∧
      (valueAtStart (solve ctx) "loop" "ahead" = some (.const 1) ∨
        valueAtStart (solve ctx) "loop" "ahead" = some .top) := by
  have listed : (Program.empty.define storedCount).functions.get? "test" = some storedCount := by
    decide +kernel
  have entry : storedCount.blocks.contains entryName = true := by decide +kernel
  have typed : Typed (Program.empty.define storedCount) storedCount := by decide +kernel
  obtain ⟨_, built, sound⟩ := value_of_execution listed entry typed
  let ctx := Context.ofFunction (Program.empty.define storedCount) storedCount
  obtain rfl : ctx = _ := by simpa [Context.build, listed, entry] using built
  let undefined : Cells := fun _ => none
  let stored := (undefined.assign ctx "p" 0).overwrite {"i"} fun _ => 3
  let compared := stored.assign ctx "ahead"
    (if CmpOp.lt.OnIntegers (-1 : Int32).toInt (3 : Int32).toInt then 1 else 0)
  let lowered := compared.assign ctx "i" (ArithOp.sub.wrapped 3 1)
  have isInt : ctx.typeOf? "i" = some .int := by decide +kernel
  have ahead_isInt : ctx.typeOf? "ahead" = some .int := by decide +kernel
  have held : lowered "i" = some 2 := by decide +kernel
  have ahead_held : lowered "ahead" = some 1 := by decide +kernel
  have starts : Starts ctx undefined := by
    have own : ∀ entry ∈ ctx.vars.entries, entry.2.ty = .int → entry.2.kind = .own := by
      decide +kernel
    intro name v declared type
    exact iff_of_true rfl (own (name, v) ((Table.get?_eq_some_iff _ _ _).1 declared) type)
  have target : ∀ name ∈ ({"i"} : NameSet), name ∈ ctx.aliases.mayPointTo .int := by
    intro name member
    obtain rfl := (mem_singleton_set "i" name).1 member
    decide +kernel
  have at_loop : AtStart ctx "loop" compared :=
    .step (.entry starts) rfl
      (.cons (.address rfl) (.cons (.store rfl .literal target)
        (.cons (.cmp .literal (.held isInt (by decide +kernel))) (.cons .term .nil))))
      (by decide +kernel)
  have again : AtStart ctx "loop" lowered :=
    .step at_loop rfl
      (.cons (.arith (.held isInt (by decide +kernel)) .literal (by decide)) (.cons .term .nil))
      (by decide +kernel)
  exact ⟨listed, entry, typed, ctx, lowered, built, isInt, ahead_isInt, held, ahead_held, again,
    (sound "loop" lowered "i" 2 isInt held).1 again,
    (sound "loop" lowered "ahead" 1 ahead_isInt ahead_held).1 again⟩

end Constants

end Lir
