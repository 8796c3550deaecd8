import Lir.Proofs.Source.Spelling
import Lir.Source.Loader

/-!
Reading printed lines one after the other.

Printed lines come apart where they were put together, and the blanks that are trimmed off a line
are not part of any token. `Loading.Reads` follows a list of lines without a warning.
-/

set_option autoImplicit false

namespace Lir

/-! ### Lines of a text -/

def trimmed (text : String) : String := .ofList (trimBlanks text.toList)

theorem splitLines_append {line : List Char} (one_line : '\n' ∉ line) (rest : List Char) :
    splitLines (line ++ '\n' :: rest) = line :: splitLines rest := by
  induction line with
  | nil => rw [List.nil_append, splitLines, if_pos rfl]
  | cons c line ih =>
    have not_break : c ≠ '\n' := fun same => one_line (List.mem_cons.2 (.inl same.symm))
    rw [List.cons_append, splitLines, if_neg not_break,
      ih fun inside => one_line (List.mem_cons_of_mem c inside)]

theorem splitLines_renderLines {texts : List String}
    (one_line : ∀ text ∈ texts, '\n' ∉ text.toList) :
    splitLines (renderLines texts).toList = texts.map String.toList ++ [[]] := by
  rw [renderLines, String.toList_join]
  induction texts with
  | nil => rfl
  | cons text texts ih =>
    obtain ⟨first, later⟩ := List.forall_mem_cons.1 one_line
    rw [List.map_cons, List.flatMap_cons, String.toList_append, List.append_assoc]
    exact (splitLines_append first _).trans (congrArg (text.toList :: ·) (ih later))

theorem sourceLines_renderLines {texts : List String}
    (one_line : ∀ text ∈ texts, '\n' ∉ text.toList) :
    sourceLines (renderLines texts) = (texts ++ [""]).map trimmed := by
  rw [sourceLines, splitLines_renderLines one_line, List.map_append, List.map_map, List.map_append]
  rfl

/-! ### Trimmed lines -/

theorem trimBlanks_split (text : List Char) :
    ∃ front back, text = front ++ (trimBlanks text ++ back) ∧ (∀ c ∈ front, isBlank c = true) ∧
      ∀ c ∈ back, isBlank c = true := by
  refine ⟨text.takeWhile isBlank,
    ((text.dropWhile isBlank).reverse.takeWhile isBlank).reverse, ?_, ?_, ?_⟩
  · rw [trimBlanks, ← List.reverse_append, List.takeWhile_append_dropWhile, List.reverse_reverse,
      List.takeWhile_append_dropWhile]
  · exact fun c member => List.mem_takeWhile_imp member
  · exact fun c member => List.mem_takeWhile_imp (List.mem_reverse.1 member)

/-- A plain text reads the same when trimmed, since its only blanks are spaces. -/
theorem scan_trimBlanks {text : List Char} (plain : ∀ c ∈ text, isPlain c = true) :
    Token.scan (trimBlanks text) = Token.scan text := by
  obtain ⟨front, back, split, front_blank, back_blank⟩ := trimBlanks_split text
  have space : ∀ c ∈ text, isBlank c = true → Token.isBlankChar c = true := by
    intro c member blank
    have kind := plain c member
    simp only [isPlain, blank, Bool.not_true, Bool.or_false, Bool.and_eq_true,
      decide_eq_true_eq] at kind
    rw [kind.2]
    rfl
  have front_spaces : ∀ c ∈ front, Token.isBlankChar c = true := fun c member =>
    space c (split ▸ List.mem_append_left _ member) (front_blank c member)
  have back_spaces : ∀ c ∈ back, Token.isBlankChar c = true := fun c member =>
    space c (split ▸ List.mem_append_right _ (List.mem_append_right _ member)) (back_blank c member)
  rw [show Token.scan text = Token.scan (front ++ (trimBlanks text ++ back)) from
      congrArg Token.scan split, Token.scan_blanks_append front_spaces,
    Token.scan_append_blanks _ back_spaces]

theorem Spells.one_line {text : String} {tokens : List Token} (spelled : Spells text tokens) :
    '\n' ∉ text.toList :=
  fun inside => absurd (spelled.isPlain '\n' inside) (by decide)

theorem Spells.read {text : String} {tokens : List Token} (spelled : Spells text tokens)
    {line : Line} (classified : Line.ofTokens? tokens = some line) :
    Line.read (trimmed text) = .ok line := by
  have in_range : tokens.findSome? Token.outOfRange? = none :=
    List.findSome?_eq_none_iff.2 spelled.fits
  rw [Line.read, trimmed, String.toList_ofList, scan_trimBlanks spelled.isPlain, spelled.scanned]
  simp only [classified, in_range]

theorem Spells.indented {text : String} {tokens : List Token} (spelled : Spells text tokens) :
    Spells ("  " ++ text) tokens :=
  spelled.after (by decide : Lead "  " [])

/-! ### Runs without a warning -/

namespace Loading

theorem readLines_append (s : Loading) (number : Nat) (first second : List String) :
    s.readLines number (first ++ second) =
      (((s.readLines number first).1.readLines (number + first.length) second).1,
        (s.readLines number first).2 ++
          ((s.readLines number first).1.readLines (number + first.length) second).2) := by
  induction first generalizing s number with
  | nil => rfl
  | cons text first ih =>
    have moved : number + (text :: first).length = number + 1 + first.length := by
      rw [List.length_cons]
      omega
    simp only [List.cons_append, readLines, ih, moved, List.append_assoc]

/-- Lines that lead from one state of loading to another, each of them accepted. -/
structure Reads (s : Loading) (texts : List String) (t : Loading) : Prop where
  one_line : ∀ text ∈ texts, '\n' ∉ text.toList
  silent : ∀ number, s.readLines number (texts.map trimmed) = (t, [])

variable {s t u : Loading}

theorem Reads.nil : s.Reads [] s :=
  ⟨fun _ member => absurd member List.not_mem_nil, fun _ => rfl⟩

theorem Reads.cons {text : String} {tokens : List Token} {line : Line} {rest : List String}
    (spelled : Spells text tokens) (classified : Line.ofTokens? tokens = some line)
    (accepted : s.accept line = .ok t) (later : t.Reads rest u) : s.Reads (text :: rest) u := by
  refine ⟨List.forall_mem_cons.2 ⟨spelled.one_line, later.one_line⟩, fun number => ?_⟩
  have first : s.readLine number (trimmed text) = (t, none) := by
    simp only [readLine, spelled.read classified, accepted]
  rw [List.map_cons, readLines, first]
  simp only [later.silent, Option.toList_none, List.nil_append]

theorem Reads.single {text : String} {tokens : List Token} {line : Line}
    (spelled : Spells text tokens) (classified : Line.ofTokens? tokens = some line)
    (accepted : s.accept line = .ok t) : s.Reads [text] t :=
  .cons spelled classified accepted .nil

theorem Reads.append {first second : List String} (before : s.Reads first t)
    (after : t.Reads second u) : s.Reads (first ++ second) u := by
  refine ⟨List.forall_mem_append.2 ⟨before.one_line, after.one_line⟩, fun number => ?_⟩
  rw [List.map_append, readLines_append, before.silent, after.silent]
  rfl

theorem Reads.foldl {α β : Type} (state : β → Loading) (step : β → α → β)
    (lines : α → List String) {items : List α}
    (each : ∀ item ∈ items, ∀ b, (state b).Reads (lines item) (state (step b item))) (b : β) :
    (state b).Reads (items.flatMap lines) (state (items.foldl step b)) := by
  induction items generalizing b with
  | nil => exact .nil
  | cons item items ih =>
    obtain ⟨first, later⟩ := List.forall_mem_cons.1 each
    exact (first b).append (ih later (step b item))

end Loading

end Lir
