import Lir.Proofs.Memory.Cells
import Lir.Proofs.Memory.Mangling
import Lir.Proofs.Report.Rows
import Lir.Request

/-!
Cells that two types share.

Every name that can be spelled can be the name of a record, also the spelling of a pointer or of a
function. The record and the other type, and pointers to the two, then have one cell. Among the
types that have cells there is no other way to share one.
-/

set_option autoImplicit false

namespace Lir

namespace Ty

/-! ### Records named after other types -/

theorem mangled_record (name : String) : (record name).mangled = name := by rw [mangled]

/-- Under the same pointers, the first type is a record that bears the spelling of the second. -/
inductive NamedAfter : Ty → Ty → Prop where
  | record (ty : Ty) : NamedAfter (.record ty.mangled) ty
  | pointer {pointee other : Ty} : NamedAfter pointee other →
      NamedAfter (.pointer pointee) (.pointer other)

theorem NamedAfter.mangled_eq {ty other : Ty} (named : ty.NamedAfter other) :
    ty.mangled = other.mangled := by
  induction named with
  | record ty => rw [mangled]
  | pointer _ ih => rw [mangled, mangled, ih]

theorem related_of_mangled_eq : (a b : Ty) → a.endsInFunction = false ∨ b.endsInFunction = false →
    a.mangled = b.mangled → a = b ∨ a.NamedAfter b ∨ b.NamedAfter a
  | .record name, b, _, same => by
    rw [mangled] at same
    exact .inr (.inl (same ▸ .record b))
  | a, .record name, _, same => by
    rw [mangled_record] at same
    exact .inr (.inr (same ▸ .record a))
  | .pointer a, .pointer b, data, same => by
    simp only [mangled, String.append_right_inj] at same
    rcases related_of_mangled_eq a b data same with rfl | named | named
    · exact .inl rfl
    · exact .inr (.inl named.pointer)
    · exact .inr (.inr named.pointer)
  | .int, .int, _, _ => .inl rfl
  -- Spellings of different kinds differ in their first letter.
  | .int, .pointer _, _, same | .int, .function _ _, _, same
  | .pointer _, .int, _, same | .function _ _, .int, _, same
  | .pointer _, .function _ _, _, same | .function _ _, .pointer _, _, same => by
    simp [mangled, ← String.toList_inj] at same
  | .function _ _, .function _ _, data, _ => by simp [endsInFunction] at data

/-- Types that do not both end in a function are spelled alike only where one is named after the
other. -/
theorem mangled_eq_iff {a b : Ty} (data : a.endsInFunction = false ∨ b.endsInFunction = false) :
    a.mangled = b.mangled ↔ a = b ∨ a.NamedAfter b ∨ b.NamedAfter a := by
  refine ⟨related_of_mangled_eq a b data, ?_⟩
  rintro (rfl | named | named)
  · rfl
  · exact named.mangled_eq
  · exact named.mangled_eq.symm

/-! ### Spellings as names -/

theorem Writable.identifiers {ty : Ty} (writable : ty.Writable) : Identifiers ty.recordNames := by
  intro name listed
  obtain ⟨inner, within, named⟩ := List.mem_filterMap.1 listed
  exact (writable.within within).recordName? name named

theorem Writable.isWordChar_mangled {ty : Ty} (writable : ty.Writable) :
    ∀ c ∈ ty.mangled.toList, Token.isWordChar c = true := by
  intro c listed
  have in_row : c ∈ ty.words.flatMap underscored :=
    underscored_mangled ty ▸ List.mem_append_left _ listed
  obtain ⟨word, in_words, in_word⟩ := List.mem_flatMap.1 in_row
  rcases List.mem_append.1 in_word with letter | underscore
  · have own_letters : ∀ word ∈ ownWords, word.toList.all Token.isWordChar = true := by decide
    rcases mem_words ty word in_words with own | named
    · exact List.all_eq_true.1 (own_letters word own) c letter
    · exact isWordChar_of_isIdentifier (writable.identifiers word named) c letter
  · rw [List.mem_singleton.1 underscore]
    decide

theorem Writable.isIdentifier_mangled {ty : Ty} (writable : ty.Writable) :
    isIdentifier ty.mangled = true := by
  have letters := writable.isWordChar_mangled
  have of_start : ∀ c rest, ty.mangled.toList = c :: rest → Token.isNameStart c = true →
      isIdentifier ty.mangled = true := fun c rest same start =>
    (isIdentifier_iff _).2 ⟨c, rest, same, start, fun d member =>
      letters d (same ▸ List.mem_cons_of_mem _ member)⟩
  cases ty with
  | int => decide
  | record name => exact writable.recordName? name rfl
  | pointer pointee =>
    have spelled : (Ty.pointer pointee).mangled.toList =
        "ptr_".toList ++ pointee.mangled.toList := by
      rw [mangled, String.toList_append]
    exact of_start 'p' _ spelled (by decide)
  | function params result =>
    have spelled : (Ty.function params result).mangled.toList =
        "fn_".toList ++ ("_".intercalate (mangledParams params) ++
          ("_to_" ++ mangledResult result)).toList := by
      rw [mangled, String.append_assoc, String.append_assoc, String.toList_append]
    exact of_start 'f' _ spelled (by decide)

/-- Every type that a source can spell, the integers apart, is spelled like a record that a source
can declare. -/
theorem Writable.record_mangled {ty : Ty} (writable : ty.Writable) (not_int : ty ≠ .int) :
    (Ty.record ty.mangled).Writable := by
  refine .record writable.isIdentifier_mangled fun same => ?_
  rcases related_of_mangled_eq ty .int (.inr rfl) same with rfl | named | named
  · exact not_int rfl
  · cases named
    exact writable.ne_record_int rfl
  · cases named

end Ty

theorem cellName_eq_iff (a b : Ty) : cellName a = cellName b ↔ a.mangled = b.mangled :=
  String.append_right_inj _

namespace Context

variable {p : Program} {f : Function}

theorem shared_cell_iff {a b : Ty} (a_celled : a ∈ (ofFunction p f).aliases.cells)
    (b_celled : b ∈ (ofFunction p f).aliases.cells) :
    (ofFunction p f).aliases.cells[a]? = (ofFunction p f).aliases.cells[b]? ↔
      a = b ∨ a.NamedAfter b ∨ b.NamedAfter a := by
  obtain ⟨_, _, collected⟩ := (mem_cells_iff a).1 a_celled
  have data := ((Ty.mem_closure _ _ _).1 collected).data
  have named : ∀ ty ∈ (ofFunction p f).aliases.cells,
      (ofFunction p f).aliases.cells[ty]? = some (cellName ty) := by
    intro ty celled
    obtain ⟨cell, known⟩ := (mem_map_iff _ _).1 celled
    rw [known, ((cell_iff ty cell).1 known).2]
  rw [named a a_celled, named b b_celled, Option.some_inj, cellName_eq_iff,
    Ty.mangled_eq_iff (.inl data)]

/-- Two types are spelled alike, and so are their cells, exactly when the spellings have the same
pieces between underscores. Where not both end in a function, so for all types with a cell, that is
when one is named after the other. Over names that form a prefix code with the words of spellings
all types are told apart, and over single words only if none of them is such a word. Every type that
a source can spell, the integers apart, has a record named after it. -/
theorem mangled_tells_apart (a b : Ty) (names : List String) :
    (cellName a = cellName b ↔ a.mangled = b.mangled) ∧
    (a.mangled = b.mangled ↔ a.pieces = b.pieces) ∧
    (a.endsInFunction = false ∨ b.endsInFunction = false →
      (a.mangled = b.mangled ↔ a = b ∨ a.NamedAfter b ∨ b.NamedAfter a)) ∧
    (∀ (p : Program) (name : String) (f : Function), p.functions.get? name = some f →
      f.blocks.contains entryName = true → ∃ ctx, build p name = .ok ctx ∧
        (a ∈ ctx.aliases.cells → b ∈ ctx.aliases.cells →
          (ctx.aliases.cells[a]? = ctx.aliases.cells[b]? ↔
            a = b ∨ a.NamedAfter b ∨ b.NamedAfter a))) ∧
    (Ty.Legible names → Ty.ToldApart names) ∧
    ((∀ name ∈ names, '_' ∉ name.toList) →
      (Ty.ToldApart names ↔ ∀ word ∈ Ty.ownWords, word ∉ names)) ∧
    (a.Writable → a ≠ .int →
      (Ty.record a.mangled).Writable ∧ (Ty.record a.mangled).mangled = a.mangled) := by
  refine ⟨cellName_eq_iff a b, Ty.mangled_eq_iff_pieces, Ty.mangled_eq_iff,
    fun p name f listed entry => ?_, Ty.Legible.toldApart, Ty.toldApart_iff_of_single,
    fun writable not_int => ?_⟩
  · exact ⟨_, build_eq_ok listed entry, shared_cell_iff⟩
  · exact ⟨writable.record_mangled not_int, Ty.mangled_record _⟩

/-- Stores a pointer to an integer, and loads a record that bears the spelling of such pointers. -/
def sharesCell : String := "\n".intercalate [
  "struct ptr_int \x7b a: int \x7d",
  "fn test(p: &&int, q: &ptr_int, x: &int) -> ptr_int \x7b",
  "  let t: ptr_int",
  "  entry:",
  "    $store p x",
  "    t = $load q",
  "    $ret t",
  "\x7d"]

theorem cells_sharesCell : ∃ f ∈ (Program.load sharesCell).1.functions.get? "test",
    f.blocks.contains entryName = true ∧
      (ofFunction (Program.load sharesCell).1 f).aliases.cells[Ty.pointer .int]? =
        some "fake_ptr_int" ∧
      (ofFunction (Program.load sharesCell).1 f).aliases.cells[Ty.record "ptr_int"]? =
        some "fake_ptr_int" := by
  decide +kernel

/-- A source can spell both types, and they have the same spelling and the same cell. So the load of
the one is reported to read what was stored as the other. -/
theorem same_cell_sharesCell :
    (Ty.pointer .int).Writable ∧ (Ty.record "ptr_int").Writable ∧
      Ty.pointer .int ≠ .record "ptr_int" ∧
      (Ty.pointer .int).mangled = (Ty.record "ptr_int").mangled ∧
      (∃ ctx, build (Program.load sharesCell).1 "test" = .ok ctx ∧
        ctx.aliases.cells[Ty.pointer .int]? = some "fake_ptr_int" ∧
        ctx.aliases.cells[Ty.record "ptr_int"]? = some "fake_ptr_int") ∧
      (⟨"test", [.reachingDefs], .default⟩ : Request).answerSource sharesCell =
        .ok "entry.1 -> \x7bentry.0\x7d\nentry.term -> \x7bentry.1\x7d\n" := by
  obtain ⟨f, listed, entry, cells⟩ := cells_sharesCell
  exact ⟨.pointer .int, .record (by decide) (by decide), by decide, by decide +kernel,
    ⟨_, build_eq_ok listed entry, cells⟩, by decide +kernel⟩

/-- The two types have one cell, as one is named after the other, while pointers and functions are
told apart. Names may hold underscores and be legible, and single words may clash. -/
theorem mangled_tells_apart_sharesCell :
    (∃ f ctx, (Program.load sharesCell).1.functions.get? "test" = some f ∧
      f.blocks.contains entryName = true ∧ build (Program.load sharesCell).1 "test" = .ok ctx ∧
      Ty.pointer .int ∈ ctx.aliases.cells ∧ Ty.record "ptr_int" ∈ ctx.aliases.cells ∧
      ctx.aliases.cells[Ty.pointer .int]? = ctx.aliases.cells[Ty.record "ptr_int"]?) ∧
    ((Ty.pointer .int).endsInFunction = false ∧
      (Ty.pointer .int).mangled ≠ (Ty.function [.int] none).mangled) ∧
    (Ty.Legible ["Node", "node_list"] ∧ Ty.ToldApart ["Node", "node_list"]) ∧
    ((∀ name ∈ ["Node", "to"], '_' ∉ name.toList) ∧ ¬ Ty.ToldApart ["Node", "to"]) ∧
    (Ty.pointer .int).Writable ∧ Ty.pointer .int ≠ .int ∧ (Ty.record "ptr_int").Writable := by
  obtain ⟨-, -, -, exact_cells, told, -, named⟩ :=
    mangled_tells_apart (.pointer .int) (.record "ptr_int") ["Node", "node_list"]
  obtain ⟨-, -, exact_types, -, -, told_iff, -⟩ :=
    mangled_tells_apart (.pointer .int) (.function [.int] none) ["Node", "to"]
  have writable : (Ty.pointer .int).Writable := .pointer .int
  refine ⟨?cells, ⟨rfl, ?types⟩, ⟨by decide +kernel, told (by decide +kernel)⟩,
    ⟨by decide +kernel, ?clash⟩, writable, by decide, (named writable (by decide)).1⟩
  case cells =>
    obtain ⟨f, listed, entry, pointer_cell, record_cell⟩ := cells_sharesCell
    have pointers := (mem_map_iff _ _).2 ⟨_, pointer_cell⟩
    have records := (mem_map_iff _ _).2 ⟨_, record_cell⟩
    obtain ⟨ctx, built, shared⟩ := exact_cells _ _ f listed entry
    obtain rfl := Except.ok.inj (built.symm.trans (build_eq_ok listed entry))
    exact ⟨f, _, listed, entry, built, pointers, records,
      (shared pointers records).2 (.inr (.inr (.record (.pointer .int))))⟩
  case types =>
    intro same
    rcases (exact_types (.inl rfl)).1 same with equal | after | before
    · cases equal
    · cases after
    · cases before
  case clash =>
    intro apart
    exact (told_iff (by decide +kernel)).1 apart "to" (by decide) (by decide)

end Context

end Lir
