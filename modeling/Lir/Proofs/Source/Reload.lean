import Lir.Proofs.Source.Classify
import Lir.Proofs.Source.Lines
import Lir.Proofs.Source.Loaded
import Mathlib.Data.List.Induction

/-!
A printed program loads again.

Each printed part is read back line by line into the part it was printed from. Tables come back
with their entries in the same order, because a name that is new goes behind the others.
-/

set_option autoImplicit false

namespace Lir

namespace Loading

theorem spells_empty : Spells "" [] := by decide

theorem reads_close {s t : Loading} (accepted : s.accept .close = .ok t) : s.Reads ["\x7d"] t :=
  .single (by decide : Spells "\x7d" [.punct .closeBrace]) Reader.ofTokens?_close accepted

/-! ### Tables -/

section

variable {α : Type} {t : Table α} (state : Table α → Loading)

theorem reads_entries (line : String × α → String)
    (each : ∀ entry ∈ t.entries, ∀ before : Table α,
      (state before).Reads [line entry] (state (before.insert entry.1 entry.2))) :
    (state ∅).Reads (t.entries.map line) (state t) := by
  have read := Reads.foldl state (fun before (entry : String × α) => before.insert entry.1 entry.2)
    (fun entry => [line entry]) each ∅
  rwa [← List.map_eq_flatMap, t.foldl_insert_entries] at read

theorem reads_values (nameOf : α → String) (lines : α → List String)
    (named : t.Each fun name value => nameOf value = name)
    (each : ∀ value ∈ t.values, ∀ before : Table α,
      (state before).Reads (lines value) (state (before.insert (nameOf value) value))) :
    (state ∅).Reads (t.values.flatMap lines) (state t) := by
  have read := Reads.foldl state (fun before value => before.insert (nameOf value) value)
    lines each ∅
  rwa [t.foldl_insert_values named] at read

end

/-! ### Declarations -/

theorem reads_declaration {s t : Loading} {text name : String} {ty : Ty}
    (writable : WritableTyped name ty) (spelled : Spells text (tokensTyped name ty))
    (accepted : s.accept (.declaration name ty) = .ok t) : s.Reads [text] t :=
  .single spelled (Reader.ofTokens?_declaration writable.writable) accepted

theorem reads_record {r : RecordDef} (writable : r.Writable) (p : Program) :
    Reads ⟨p, .top⟩ r.lines ⟨p.defineRecord r, .top⟩ := by
  have opened : Reads ⟨p, .top⟩ ["struct " ++ r.name ++ " \x7b"] ⟨p, .inRecord ⟨r.name, ∅⟩⟩ :=
    .single (RecordDef.header_spells writable.identifier) (Reader.ofTokens?_recordHeader r) rfl
  have fields := reads_entries (fun fields => ⟨p, .inRecord ⟨r.name, fields⟩⟩)
    (fun entry => "  " ++ renderTyped entry.1 entry.2) fun entry member _ =>
      reads_declaration (writable.fields entry member)
        (writable.fields entry member).spells.indented rfl
  exact (opened.append fields).append (reads_close rfl)

theorem reads_records {records : Table RecordDef}
    (writable : records.Each fun name r => r.name = name ∧ r.Writable) (globals : Table Ty)
    (externs : Table Signature) (functions : Table Function) :
    Reads ⟨⟨∅, globals, externs, functions⟩, .top⟩ (records.values.flatMap RecordDef.lines)
      ⟨⟨records, globals, externs, functions⟩, .top⟩ := by
  refine reads_values (fun records => ⟨⟨records, globals, externs, functions⟩, .top⟩)
    RecordDef.name RecordDef.lines (fun entry member => (writable entry member).1) ?_
  intro r member before
  obtain ⟨entry, listed, rfl⟩ := List.mem_map.1 member
  exact reads_record (writable entry listed).2 ⟨before, globals, externs, functions⟩

theorem reads_globals {globals : Table Ty} (writable : globals.Each WritableTyped)
    (records : Table RecordDef) (externs : Table Signature) (functions : Table Function) :
    Reads ⟨⟨records, ∅, externs, functions⟩, .top⟩
      (globals.entries.map fun entry => renderTyped entry.1 entry.2)
      ⟨⟨records, globals, externs, functions⟩, .top⟩ :=
  reads_entries (fun globals => ⟨⟨records, globals, externs, functions⟩, .top⟩) _
    fun entry member _ =>
      reads_declaration (writable entry member) (writable entry member).spells rfl

theorem reads_external {s t : Loading} {name : String} {signature : Signature}
    (writable : WritableTyped name signature.toTy)
    (accepted : s.accept (.external name signature) = .ok t) :
    s.Reads ["extern " ++ renderTyped name signature.toTy] t := by
  have keyword : Lead "extern " [.ident "extern"] := by decide
  have spelled : Spells ("extern " ++ renderTyped name signature.toTy)
      (.ident "extern" :: tokensTyped name signature.toTy) :=
    writable.spells.after keyword
  exact .single spelled (Reader.ofTokens?_external writable.writable) accepted

theorem reads_externs {externs : Table Signature}
    (writable : externs.Each fun name signature => WritableTyped name signature.toTy)
    (records : Table RecordDef) (globals : Table Ty) (functions : Table Function) :
    Reads ⟨⟨records, globals, ∅, functions⟩, .top⟩
      (externs.entries.map fun entry => "extern " ++ renderTyped entry.1 entry.2.toTy)
      ⟨⟨records, globals, externs, functions⟩, .top⟩ :=
  reads_entries (fun externs => ⟨⟨records, globals, externs, functions⟩, .top⟩) _
    fun entry member _ => reads_external (writable entry member) rfl

/-! ### Blocks -/

/-- A block takes the instruction that comes next in a well-formed one. -/
theorem accept_ofInstruction (p : Program) {f : Function} {name : String}
    {instructions : List Instruction} {inst : Instruction}
    (opened : f.blocks.get? name = some ⟨name, instructions⟩)
    (wellFormed : (⟨name, instructions ++ [inst]⟩ : Block).WellFormed) :
    accept ⟨p, .inFunction f (some name)⟩ (.ofInstruction inst) =
      .ok ⟨p, .inFunction { f with
        blocks := f.blocks.insert name ⟨name, instructions ++ [inst]⟩ } (some name)⟩ := by
  obtain ⟨_, not_terminated, owned, numbered⟩ := (Block.wellFormed_append_iff _ _ _).1 wellFormed
  have appended := (Block.append_eq_ok_iff ⟨name, instructions⟩ inst _).2 ⟨not_terminated, rfl⟩
  cases inst with
  | op block index operation =>
    obtain rfl : block = name := owned
    obtain rfl := numbered index rfl
    have added : Block.addOp ⟨block, instructions⟩ operation = _ := appended
    simp only [Line.ofInstruction, accept, addToBlock, Function.updateBlock, opened,
      Option.getD_some, added]
    rfl
  | term block terminator =>
    obtain rfl : block = name := owned
    have added : Block.setTerm ⟨block, instructions⟩ terminator = _ := appended
    simp only [Line.ofInstruction, accept, addToBlock, Function.updateBlock, opened,
      Option.getD_some, added]
    rfl

theorem reads_instructions (p : Program) (f : Function) (name : String)
    {instructions : List Instruction} (wellFormed : (⟨name, instructions⟩ : Block).WellFormed)
    (identifiers : ∀ inst ∈ instructions, Identifiers inst.names) :
    Reads ⟨p, .inFunction { f with blocks := f.blocks.insert name ⟨name, []⟩ } (some name)⟩
      (instructions.map fun inst => "  " ++ inst.render)
      ⟨p, .inFunction { f with blocks := f.blocks.insert name ⟨name, instructions⟩ }
        (some name)⟩ := by
  -- Instructions come one by one at the end, so the induction takes them off there.
  induction instructions using List.reverseRecOn with
  | nil => exact .nil
  | append_singleton instructions inst ih =>
    obtain ⟨before, last⟩ := List.forall_mem_append.1 identifiers
    have inst_spells := Instruction.spells (last inst (List.mem_singleton.2 rfl))
    have wellFormed_before := ((Block.wellFormed_append_iff _ _ _).1 wellFormed).1
    have accepted := accept_ofInstruction p
      (f := { f with blocks := f.blocks.insert name ⟨name, instructions⟩ })
      (by rw [Table.get?_insert, if_pos rfl]) wellFormed
    rw [Table.insert_insert] at accepted
    rw [List.map_append]
    exact (ih wellFormed_before before).append
      (.single inst_spells.indented (Reader.ofTokens?_instruction inst) accepted)

theorem reads_block (p : Program) {f : Function} (label : Option String) {b : Block}
    (writable : b.Writable) (new : b.name ∉ f.blocks.keys) :
    Reads ⟨p, .inFunction f label⟩ b.lines
      ⟨p, .inFunction { f with blocks := f.blocks.insert b.name b } (some b.name)⟩ := by
  have spelled : Spells (b.name ++ ":") [.ident b.name, .punct .colon] :=
    (spells_of_isIdentifier writable.identifier).followed (by decide : Trail ":" [.punct .colon])
  have opened : accept ⟨p, .inFunction f label⟩ (.label b.name) =
      .ok ⟨p, .inFunction { f with blocks := f.blocks.insert b.name ⟨b.name, []⟩ }
        (some b.name)⟩ := by
    -- A label enters its block only if there is none yet, which is why the name has to be new.
    rw [← Table.insertNew_of_not_mem new]
    rfl
  exact .cons spelled (Reader.ofTokens?_label b.name) opened
    (reads_instructions p f b.name writable.wellFormed writable.instructions)

-- The label that is open in the end depends on the blocks, and closing the function forgets it.
theorem reads_blocks (p : Program) (f : Function) (label : Option String)
    {entries : List (String × Block)}
    (writable : ∀ entry ∈ entries, entry.2.name = entry.1 ∧ entry.2.Writable)
    (new : (f.blocks.keys ++ entries.map Prod.fst).Nodup) :
    ∃ last, Reads ⟨p, .inFunction f label⟩ ((entries.map Prod.snd).flatMap Block.lines)
      ⟨p, .inFunction { f with blocks := f.blocks.insertAll entries } last⟩ := by
  induction entries generalizing f label with
  | nil => exact ⟨label, .nil⟩
  | cons entry rest ih =>
    obtain ⟨name, block⟩ := entry
    obtain ⟨⟨named, first_writable⟩, later⟩ := List.forall_mem_cons.1 writable
    obtain rfl : block.name = name := named
    have absent : block.name ∉ f.blocks.keys := fun present =>
      (List.nodup_append.1 new).2.2 _ present _ List.mem_cons_self rfl
    have moved : ((f.blocks.insert block.name block).keys ++ rest.map Prod.fst).Nodup := by
      rw [Table.keys_insert, if_neg absent, List.append_assoc]
      exact new
    obtain ⟨last, read⟩ := ih { f with blocks := f.blocks.insert block.name block }
      (some block.name) later moved
    exact ⟨last, (reads_block p label first_writable absent).append read⟩

/-! ### Functions -/

theorem reads_locals (p : Program) {f : Function} (writable : f.locals.Each WritableTyped) :
    Reads ⟨p, .inFunction { f with locals := ∅ } none⟩ f.localsLines ⟨p, .inFunction f none⟩ := by
  have filled : (∅ : Table Ty).insertAll f.locals.entries = f.locals := f.locals.ofList_entries
  rw [Function.localsLines]
  -- No line is printed for no locals, and none is needed: a function starts without any.
  split
  next empty =>
    have nothing : f.locals = ∅ := Table.ext (List.isEmpty_iff.1 empty)
    rw [← nothing]
    exact .nil
  next some_local =>
    have keyword : Lead "let " [.ident "let"] := by decide
    have names_spell := (Spells.intercalate fun entry member =>
      (writable entry member).spells).after keyword
    have not_empty : f.locals.entries ≠ [] := fun same => some_local (List.isEmpty_iff.2 same)
    refine .single names_spell (Reader.ofTokens?_locals not_empty fun entry member =>
      (writable entry member).writable) ?_
    simp only [accept, filled]

theorem reads_function (p : Program) {f : Function} (writable : f.Writable) :
    Reads ⟨p, .top⟩ f.lines ⟨p.define f, .top⟩ := by
  have header : accept ⟨p, .top⟩ (.functionHeader f.name
      (f.params.map fun param => (param.name, param.ty)) f.result) =
      .ok ⟨p, .inFunction ⟨f.name, f.params, f.result, ∅, ∅⟩ none⟩ := by
    have same : (f.params.map fun param => (param.name, param.ty)).map
        (fun param => (⟨param.1, param.2⟩ : Param)) = f.params := by
      rw [List.map_map]
      exact List.map_id f.params
    simp only [accept, Function.empty, same]
  have opened := Reads.single writable.header_spells (Reader.ofTokens?_functionHeader writable)
    header
  have locals := reads_locals p (f := ⟨f.name, f.params, f.result, f.locals, ∅⟩) writable.locals
  obtain ⟨last, blocks⟩ := reads_blocks p ⟨f.name, f.params, f.result, f.locals, ∅⟩ none
    writable.blocks f.blocks.nodup
  have filled : (∅ : Table Block).insertAll f.blocks.entries = f.blocks := f.blocks.ofList_entries
  simp only [filled] at blocks
  exact ((opened.append locals).append blocks).append (reads_close rfl)

theorem reads_functions {functions : Table Function}
    (writable : functions.Each fun name f => f.name = name ∧ f.Writable)
    (records : Table RecordDef) (globals : Table Ty) (externs : Table Signature) :
    Reads ⟨⟨records, globals, externs, ∅⟩, .top⟩
      (functions.values.flatMap fun f => "" :: f.lines)
      ⟨⟨records, globals, externs, functions⟩, .top⟩ := by
  refine reads_values (fun functions => ⟨⟨records, globals, externs, functions⟩, .top⟩)
    Function.name (fun f => "" :: f.lines) (fun entry member => (writable entry member).1) ?_
  intro f member before
  obtain ⟨entry, listed, rfl⟩ := List.mem_map.1 member
  exact .cons spells_empty Reader.ofTokens?_nil rfl
    (reads_function ⟨records, globals, externs, before⟩ (writable entry listed).2)

/-! ### Programs -/

theorem reads_program {p : Program} (writable : p.Writable) : start.Reads p.lines ⟨p, .top⟩ :=
  (((reads_records writable.records ∅ ∅ ∅).append
    (reads_globals writable.globals p.records ∅ ∅)).append
    (reads_externs writable.externs p.records p.globals ∅)).append
    (reads_functions writable.functions p.records p.globals p.externs)

end Loading

namespace Program

/-- A program that a source can spell is what its printed form holds. -/
theorem load_render {p : Program} (writable : p.Writable) : load p.render = (p, []) := by
  have read := (Loading.reads_program writable).append
    (.single Loading.spells_empty Reader.ofTokens?_nil rfl)
  rw [load, render, sourceLines_renderLines (Loading.reads_program writable).one_line, read.silent]
  rfl

/-- Printing a loaded program and loading it again gives the program back, entries in the same
order, and no warning, whatever the first text was. -/
theorem load_render_load (source : String) :
    load (load source).1.render = ((load source).1, []) :=
  load_render (writable_load source)

end Program

end Lir
