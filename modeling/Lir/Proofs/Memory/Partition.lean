import Lir.Proofs.Memory.Members
import Lir.Source.Loader

/-!
When alias sets divide memory by type.

A cell is entered under its spelling unless a variable has that name already. So a type's set holds
variables of the type alone, and its cell is a variable of the type, exactly when no cell is spelled
like a declared name or like the cell of another type.
-/

set_option autoImplicit false

namespace Lir

namespace Context

/-- Members of a type's set are variables of the type, and so is its cell, which is a variable of
its own kind. -/
structure Partitioned (ctx : Context) : Prop where
  members : ∀ ty, ∀ name ∈ ctx.aliases.mayPointTo ty, ctx.typeOf? name = some ty
  cells : ∀ (ty : Ty) (cell : String), ctx.aliases.cells[ty]? = some cell →
    ∃ v, ctx.vars.get? cell = some v ∧ v.kind = .cell ∧ v.ty = ty

/-- Cells are spelled apart, from each other and from the declared names. -/
structure SpelledApart (ctx : Context) (declared : List String) : Prop where
  free : ∀ (ty : Ty) (cell : String), ctx.aliases.cells[ty]? = some cell → cell ∉ declared
  distinct : ∀ (ty other : Ty) (cell : String), ctx.aliases.cells[ty]? = some cell →
    ctx.aliases.cells[other]? = some cell → ty = other

theorem spelledApart_iff (ctx : Context) (declared : List String) :
    ctx.SpelledApart declared ↔ ∀ entry ∈ ctx.aliases.cells.toList, entry.2 ∉ declared ∧
      ∀ other ∈ ctx.aliases.cells.toList, entry.2 = other.2 → entry.1 = other.1 := by
  have listed : ∀ ty cell,
      (ty, cell) ∈ ctx.aliases.cells.toList ↔ ctx.aliases.cells[ty]? = some cell :=
    fun _ _ => Std.ExtTreeMap.mem_toList_iff_getElem?_eq_some
  constructor
  · rintro ⟨free, distinct⟩ ⟨ty, cell⟩ known
    refine ⟨free ty cell ((listed ty cell).1 known), ?_⟩
    rintro ⟨other, other_cell⟩ other_known same
    obtain rfl : cell = other_cell := same
    exact distinct ty other cell ((listed ty cell).1 known) ((listed other cell).1 other_known)
  · intro all
    refine ⟨fun ty cell known => (all (ty, cell) ((listed ty cell).2 known)).1,
      fun ty other cell known other_known => ?_⟩
    exact (all (ty, cell) ((listed ty cell).2 known)).2 (other, cell)
      ((listed other cell).2 other_known) rfl

instance (ctx : Context) (declared : List String) : Decidable (ctx.SpelledApart declared) :=
  decidable_of_iff' _ (ctx.spelledApart_iff declared)

variable {p : Program} {f : Function}

theorem kind_declaredVariables_ne {name : String} {v : Variable}
    (found : (declaredVariables p f).get? name = some v) : v.kind ≠ .cell := by
  rcases Table.get?_insertAll_cases _ _ found with absurd_entry | entered
  · exact absurd absurd_entry (by simp [Table.empty, Table.get?])
  · simp only [List.mem_append, List.mem_map, Prod.mk.injEq] at entered
    rcases entered with (⟨_, _, _, rfl⟩ | ⟨_, _, _, rfl⟩) | ⟨_, _, _, rfl⟩ <;>
      simp [Variable.declared]

theorem exists_celled {name : String} {v : Variable}
    (found : (ofFunction p f).vars.get? name = some v) :
    ∃ first, (celledMemory p f).vars.get? name = some first ∧ first.ty = v.ty ∧
      first.kind = v.kind := by
  have same := untargeted_vars (p := p) (f := f) name
  rw [found] at same
  obtain ⟨first, before, unchanged⟩ := Option.map_eq_some_iff.1 same.symm
  have type : first.untargeted.ty = v.untargeted.ty := congrArg Variable.ty unchanged
  have kind : first.untargeted.kind = v.untargeted.kind := congrArg Variable.kind unchanged
  exact ⟨first, before, type, kind⟩

theorem SpelledApart.cell {ty : Ty} {cell : String}
    (apart : (ofFunction p f).SpelledApart (declaredVariables p f).keys)
    (known : (ofFunction p f).aliases.cells[ty]? = some cell) :
    ∃ v, (ofFunction p f).vars.get? cell = some v ∧ v.kind = .cell ∧ v.ty = ty := by
  obtain ⟨listed, spelled⟩ := (cell_iff ty cell).1 known
  have member : cell ∈ (ofFunction p f).vars.keys :=
    (listed_memory p f).members ty cell ((mem_mayPointTo_iff ty cell).2 (.inl ⟨listed, spelled⟩))
  obtain ⟨v, found⟩ := (Table.mem_keys_iff _ _).1 member
  obtain ⟨first, before, type, kind⟩ := exists_celled found
  -- What stands under the name was not declared, so it came in with a cell.
  have undeclared : (declaredVariables p f).get? cell = none :=
    Option.eq_none_iff_forall_ne_some.2 fun old declared =>
      apart.free ty cell known ((Table.mem_keys_iff _ _).2 ⟨old, declared⟩)
  obtain ⟨other, other_listed, other_spelled, rfl⟩ :=
    (celled_memory p f).entered cell first undeclared before
  have other_known := (cell_iff other cell).2 ⟨other_listed, other_spelled⟩
  obtain rfl := apart.distinct ty other cell known other_known
  exact ⟨v, found, kind.symm, type.symm⟩

theorem Partitioned.free {ty : Ty} {cell : String} (partitioned : (ofFunction p f).Partitioned)
    (known : (ofFunction p f).aliases.cells[ty]? = some cell) :
    cell ∉ (declaredVariables p f).keys := by
  intro member
  obtain ⟨v, found, kind, _⟩ := partitioned.cells ty cell known
  obtain ⟨first, before, _, same⟩ := exists_celled found
  obtain ⟨own, declared⟩ := (Table.mem_keys_iff _ _).1 member
  obtain rfl := Option.some.inj (((celled_memory p f).declared cell own declared).symm.trans before)
  exact kind_declaredVariables_ne declared (same.trans kind)

/-- Alias sets divide memory by type exactly when the cells are spelled apart. -/
theorem partitioned_iff {p : Program} {name : String} {f : Function}
    (listed : p.functions.get? name = some f) (entry : f.blocks.contains entryName = true) :
    ∃ ctx, build p name = .ok ctx ∧
      (ctx.Partitioned ↔ ctx.SpelledApart (declaredVariables p f).keys) := by
  refine ⟨.ofFunction p f, build_eq_ok listed entry, ?_, ?_⟩
  · intro partitioned
    refine ⟨fun ty cell known => partitioned.free known, fun ty other cell known other_known => ?_⟩
    obtain ⟨v, found, _, type⟩ := partitioned.cells ty cell known
    obtain ⟨w, found', _, other_type⟩ := partitioned.cells other cell other_known
    obtain rfl := Option.some.inj (found.symm.trans found')
    exact type.symm.trans other_type
  · intro apart
    refine ⟨fun ty name member => ?_, fun ty cell known => apart.cell known⟩
    rcases (mem_mayPointTo_iff ty name).1 member with ⟨celled, spelled⟩ | ⟨_, type⟩
    · obtain ⟨v, found, _, type⟩ := apart.cell ((cell_iff ty name).2 ⟨celled, spelled⟩)
      rw [typeOf?, found, Option.map_some, type]
    · exact type

def takesAddress : String := "\n".intercalate [
  "fn test(p: &&int) -> _ \x7b",
  "  let x: int, q: &int",
  "  entry:",
  "    q = $addrof x",
  "    $store p q",
  "    $ret",
  "\x7d"]

theorem partitioned_iff_takesAddress :
    ∃ f ctx, (Program.load takesAddress).1.functions.get? "test" = some f ∧
      f.blocks.contains entryName = true ∧ build (Program.load takesAddress).1 "test" = .ok ctx ∧
      ctx.aliases.mayPointTo .int = .ofNames ["fake_int", "x"] ∧ ctx.Partitioned := by
  let p := (Program.load takesAddress).1
  have evaluated : ∃ f ∈ p.functions.get? "test", f.blocks.contains entryName = true ∧
      (ofFunction p f).aliases.mayPointTo .int = .ofNames ["fake_int", "x"] ∧
      (ofFunction p f).SpelledApart (declaredVariables p f).keys := by decide +kernel
  obtain ⟨f, listed, entry, members, apart⟩ := evaluated
  obtain ⟨ctx, built, partitioned⟩ := partitioned_iff listed entry
  obtain rfl := Except.ok.inj (built.symm.trans (build_eq_ok listed entry))
  exact ⟨f, _, listed, entry, built, members, partitioned.2 apart⟩

def declaresCellName : String := "\n".intercalate [
  "struct S \x7b a: int \x7d",
  "fn test(p: &int) -> _ \x7b",
  "  let fake_int: S",
  "  entry:",
  "    $store p 1",
  "    $ret",
  "\x7d"]

/-- A source can spell a name like a cell: then a record is among what a pointer to integers may
point at. -/
theorem not_partitioned_declaresCellName :
    ∃ ctx, build (Program.load declaresCellName).1 "test" = .ok ctx ∧ ¬ ctx.Partitioned := by
  let p := (Program.load declaresCellName).1
  have evaluated : ∃ f ∈ p.functions.get? "test", f.blocks.contains entryName = true ∧
      "fake_int" ∈ (ofFunction p f).aliases.mayPointTo .int ∧
      (ofFunction p f).typeOf? "fake_int" = some (.record "S") := by decide +kernel
  obtain ⟨f, listed, entry, member, type⟩ := evaluated
  refine ⟨.ofFunction p f, build_eq_ok listed entry, fun partitioned => ?_⟩
  have integer := partitioned.members .int "fake_int" member
  rw [type] at integer
  cases integer

end Context

end Lir
