import Lir.Proofs.Source.Readers
import Lir.Source.Loader

/-!
What loading builds.

Loading starts from nothing, and a line that is accepted adds only what it spells. So every loaded
program is one that a source can spell, whatever the text was.
-/

set_option autoImplicit false

namespace Lir

/-! ### Blocks and functions -/

namespace Block

theorem writable_empty {name : String} (identifier : isIdentifier name) :
    (Block.empty name).Writable :=
  ⟨identifier, wellFormed_empty name, fun _ member => absurd member List.not_mem_nil⟩

theorem Writable.append {b : Block} (writable : b.Writable) {inst : Instruction}
    (names : Identifiers inst.names) {added : Point × Block} (wellFormed : added.2.WellFormed)
    (accepted : b.append inst = .ok added) : added.2.name = b.name ∧ added.2.Writable := by
  obtain ⟨_, rfl⟩ := (append_eq_ok_iff _ _ _).1 accepted
  refine ⟨rfl, writable.identifier, wellFormed, ?_⟩
  exact List.forall_mem_append.2 ⟨writable.instructions, List.forall_mem_singleton.2 names⟩

theorem Writable.addOp {b : Block} (writable : b.Writable) {operation : Op}
    (names : Identifiers operation.names) {added : Point × Block}
    (accepted : b.addOp operation = .ok added) : added.2.name = b.name ∧ added.2.Writable :=
  @append b writable (.op b.name b.nextIndex operation) names _ (writable.wellFormed.addOp accepted)
    accepted

theorem Writable.setTerm {b : Block} (writable : b.Writable) {terminator : Terminator}
    (names : Identifiers terminator.names) {added : Point × Block}
    (accepted : b.setTerm terminator = .ok added) : added.2.name = b.name ∧ added.2.Writable :=
  @append b writable (.term b.name terminator) names _ (writable.wellFormed.setTerm accepted)
    accepted

end Block

namespace Function

theorem Writable.openBlock {f : Function} (writable : f.Writable) {name : String}
    (identifier : isIdentifier name) : (f.openBlock name).Writable :=
  { writable with blocks := writable.blocks.insertNew ⟨rfl, Block.writable_empty identifier⟩ }

theorem Writable.declareLocals {f : Function} (writable : f.Writable)
    {names : List (String × Ty)} (all : ∀ entry ∈ names, WritableTyped entry.1 entry.2) :
    ({ f with locals := f.locals.insertAll names } : Function).Writable :=
  { writable with locals := writable.locals.insertAll all }

theorem Writable.updateBlock {f g : Function} (writable : f.Writable) {name : String}
    (identifier : isIdentifier name) {step : Block → Except BlockError (Point × Block)}
    (keeps : ∀ b added, b.Writable → step b = .ok added → added.2.name = b.name ∧ added.2.Writable)
    (updated : f.updateBlock name step = .ok g) : g.Writable := by
  -- The block may be new: then its name is the only thing known of it.
  have before : ((f.blocks.get? name).getD (.empty name)).name = name ∧
      ((f.blocks.get? name).getD (.empty name)).Writable := by
    cases found : f.blocks.get? name with
    | none => exact ⟨rfl, Block.writable_empty identifier⟩
    | some block => exact writable.blocks.get? found
  rw [Function.updateBlock] at updated
  cases stepped : step ((f.blocks.get? name).getD (.empty name)) with
  | error error => rw [stepped] at updated; simp [Except.map] at updated
  | ok added =>
    rw [stepped] at updated
    obtain rfl := Except.ok.inj updated
    obtain ⟨same, kept⟩ := keeps _ _ before.2 stepped
    exact { writable with blocks := writable.blocks.insert ⟨same.trans before.1, kept⟩ }

end Function

/-! ### Records and programs -/

theorem RecordDef.Writable.addField {r : RecordDef} (writable : r.Writable) {name : String}
    {ty : Ty} (field : WritableTyped name ty) : (r.addField name ty).Writable :=
  ⟨writable.identifier, writable.fields.insert field⟩

namespace Program

variable {p : Program}

theorem Writable.defineRecord (writable : p.Writable) {r : RecordDef} (definition : r.Writable) :
    (p.defineRecord r).Writable :=
  { writable with records := writable.records.insert ⟨rfl, definition⟩ }

theorem Writable.declareGlobal (writable : p.Writable) {name : String} {ty : Ty}
    (declared : WritableTyped name ty) : (p.declareGlobal name ty).Writable :=
  { writable with globals := writable.globals.insert declared }

theorem Writable.declareExternal (writable : p.Writable) {name : String} {signature : Signature}
    (declared : WritableTyped name signature.toTy) :
    (p.declareExternal name signature).Writable :=
  { writable with externs := writable.externs.insert declared }

theorem Writable.define (writable : p.Writable) {f : Function} (function : f.Writable) :
    (p.define f).Writable :=
  { writable with functions := writable.functions.insert ⟨rfl, function⟩ }

end Program

/-! ### Loading -/

def Place.Writable : Place → Prop
  | .top => True
  | .inRecord definition => definition.Writable
  | .inFunction f block => f.Writable ∧ ∀ name ∈ block, isIdentifier name

namespace Loading

structure Writable (s : Loading) : Prop where
  program : s.program.Writable
  place : s.place.Writable

theorem writable_start : start.Writable :=
  ⟨⟨Table.each_empty, Table.each_empty, Table.each_empty, Table.each_empty⟩, trivial⟩

theorem Writable.addToBlock {s next : Loading} (writable : s.program.Writable) {f : Function}
    {block : Option String} (place : Place.Writable (.inFunction f block)) {kind : InstructionKind}
    {step : Block → Except BlockError (Point × Block)}
    (keeps : ∀ b added, b.Writable → step b = .ok added → added.2.name = b.name ∧ added.2.Writable)
    (accepted : s.addToBlock f block kind step = .ok next) : next.Writable := by
  obtain ⟨function_writable, identifier⟩ := place
  rw [Loading.addToBlock.eq_def] at accepted
  split at accepted
  next => simp at accepted
  next name =>
    split at accepted
    next => simp at accepted
    next g updated =>
      obtain rfl := Except.ok.inj accepted
      have updated_writable := function_writable.updateBlock (identifier name rfl) keeps updated
      exact ⟨writable, updated_writable, identifier⟩

theorem Writable.accept {s next : Loading} (writable : s.Writable) {line : Line}
    (line_writable : line.Writable) (accepted : s.accept line = .ok next) : next.Writable := by
  obtain ⟨program, place⟩ := s
  obtain ⟨program_writable, place_writable⟩ := writable
  -- A line is accepted in some places only; in the others there is nothing to keep.
  cases line with
  | blank => exact Except.ok.inj accepted ▸ ⟨program_writable, place_writable⟩
  | recordHeader name fields closed =>
    obtain ⟨identifier, fields_writable⟩ := line_writable
    have opened : (RecordDef.ofFields name fields).Writable :=
      ⟨identifier, Table.each_empty.insertAll fields_writable⟩
    cases place with
    | top =>
      cases closed with
      | true => exact Except.ok.inj accepted ▸ ⟨program_writable.defineRecord opened, trivial⟩
      | false => exact Except.ok.inj accepted ▸ ⟨program_writable, opened⟩
    | inRecord _ => simp [Loading.accept] at accepted
    | inFunction _ _ => simp [Loading.accept] at accepted
  | functionHeader name params result =>
    obtain ⟨identifier, params_writable, result_writable⟩ := line_writable
    cases place with
    | top =>
      refine Except.ok.inj accepted ▸ ⟨program_writable, ⟨identifier, ?_, result_writable,
        Table.each_empty, Table.each_empty⟩, fun _ absent => by simp at absent⟩
      intro param member
      obtain ⟨entry, listed, rfl⟩ := List.mem_map.1 member
      exact params_writable entry listed
    | inRecord _ => simp [Loading.accept] at accepted
    | inFunction _ _ => simp [Loading.accept] at accepted
  | external name signature =>
    cases place with
    | top =>
      exact Except.ok.inj accepted ▸ ⟨program_writable.declareExternal line_writable, trivial⟩
    | inRecord _ => simp [Loading.accept] at accepted
    | inFunction _ _ => simp [Loading.accept] at accepted
  | locals names =>
    cases place with
    | top => simp [Loading.accept] at accepted
    | inRecord _ => simp [Loading.accept] at accepted
    | inFunction f block =>
      obtain ⟨function_writable, block_identifier⟩ := place_writable
      exact Except.ok.inj accepted ▸
        ⟨program_writable, function_writable.declareLocals line_writable, block_identifier⟩
  | declaration name ty =>
    cases place with
    | top => exact Except.ok.inj accepted ▸ ⟨program_writable.declareGlobal line_writable, trivial⟩
    | inRecord definition =>
      exact Except.ok.inj accepted ▸ ⟨program_writable, place_writable.addField line_writable⟩
    | inFunction _ _ => simp [Loading.accept] at accepted
  | label name =>
    cases place with
    | top => simp [Loading.accept] at accepted
    | inRecord _ => simp [Loading.accept] at accepted
    | inFunction f block =>
      have opened := place_writable.1.openBlock line_writable
      refine Except.ok.inj accepted ▸ ⟨program_writable, opened, ?_⟩
      rintro _ ⟨⟩
      exact line_writable
  | close =>
    cases place with
    | top => simp [Loading.accept] at accepted
    | inRecord definition =>
      exact Except.ok.inj accepted ▸ ⟨program_writable.defineRecord place_writable, trivial⟩
    | inFunction f block =>
      exact Except.ok.inj accepted ▸ ⟨program_writable.define place_writable.1, trivial⟩
  | op operation =>
    cases place with
    | top => simp [Loading.accept] at accepted
    | inRecord _ => simp [Loading.accept] at accepted
    | inFunction f block =>
      exact Writable.addToBlock program_writable place_writable
        (fun b _ kept => kept.addOp line_writable) accepted
  | term terminator =>
    cases place with
    | top => simp [Loading.accept] at accepted
    | inRecord _ => simp [Loading.accept] at accepted
    | inFunction f block =>
      exact Writable.addToBlock program_writable place_writable
        (fun b _ kept => kept.setTerm line_writable) accepted

theorem Writable.readLine {s : Loading} (writable : s.Writable) (number : Nat) (text : String) :
    (s.readLine number text).1.Writable := by
  rw [Loading.readLine]
  split
  next => exact writable
  next line read =>
    split
    next => exact writable
    next next accepted => exact writable.accept (Line.writable_of_read read) accepted

theorem Writable.readLines {s : Loading} (writable : s.Writable) (number : Nat)
    (texts : List String) : (s.readLines number texts).1.Writable := by
  induction texts generalizing s number with
  | nil => exact writable
  | cons text rest ih => exact ih (writable.readLine number text) (number + 1)

theorem Writable.finish {s : Loading} (writable : s.Writable) : s.finish.1.Writable := by
  obtain ⟨program, place⟩ := s
  obtain ⟨program_writable, place_writable⟩ := writable
  cases place with
  | top => exact program_writable
  | inRecord definition => exact program_writable.defineRecord place_writable
  | inFunction f block => exact program_writable.define place_writable.1

end Loading

/-- Every loaded program is one that a source can spell. -/
theorem Program.writable_load (source : String) : (Program.load source).1.Writable :=
  (Loading.writable_start.readLines 1 (sourceLines source)).finish

theorem Function.Writable.wellFormed {f : Function} (writable : f.Writable) : f.WellFormed where
  named _ _ listed := (writable.blocks.get? listed).1
  block _ _ listed := (writable.blocks.get? listed).2.wellFormed

theorem Program.wellFormed_load {source name : String} {f : Function}
    (listed : (Program.load source).1.functions.get? name = some f) : f.WellFormed :=
  ((Program.writable_load source).functions.get? listed).2.wellFormed

end Lir
