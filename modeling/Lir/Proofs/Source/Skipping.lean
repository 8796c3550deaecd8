import Lir.Proofs.Entries
import Lir.Proofs.Source.Lines
import Lir.Source.Loader
import Mathlib.Data.Finset.Card

/-!
Skipped lines leave no trace.

A line that loading warns about, a blank line and a line with nothing but a comment all leave the
loading as it was. They may be cut from a source in any selection: the program stays the same,
the order of its tables included, and so do the warnings about the lines that remain, each under
its line's new number.
-/

set_option autoImplicit false

namespace Lir

/-! ### Cutting lines -/

def keptLines {α : Type} (dropped : Finset Nat) (first : Nat) (lines : List α) : List α :=
  ((lines.zipIdx first).filter fun line => line.2 ∉ dropped).map Prod.fst

/-- The source text without the lines of the dropped numbers, where lines count from one. -/
def withoutLines (source : String) (dropped : Finset Nat) : String :=
  .ofList (['\n'].intercalate (keptLines dropped 1 (splitLines source.toList)))

def placeAfter (dropped : Finset Nat) (number : Nat) : Nat :=
  number - (dropped.filter (· < number)).card

def Warning.moveLine (move : Nat → Nat) : Warning → Warning
  | .malformed line text error => .malformed (move line) text error
  | .refused line text refusal => .refused (move line) text refusal
  | .unclosedRecord name => .unclosedRecord name
  | .unclosedFunction name => .unclosedFunction name

/-- Nothing stands on the trimmed line, or nothing but a comment. -/
def IsRemark (text : String) : Prop :=
  text.toList = [] ∨ ∃ comment, text.toList = '/' :: '/' :: comment

/-- A line that loading passes over: it warns about the line, or nothing stands there. -/
inductive Skipped (source : String) (number : Nat) : Prop where
  | warned (warning : Warning) (reported : warning ∈ (Program.load source).2)
      (about : warning.line? = some number)
  | remark (text : String) (numbered : (text, number) ∈ (sourceLines source).zipIdx 1)
      (nothing : IsRemark text)

section Cutting

variable {α : Type} (dropped : Finset Nat)

theorem keptLines_cons (first : Nat) (line : α) (rest : List α) :
    keptLines dropped first (line :: rest) =
      if first ∈ dropped then keptLines dropped (first + 1) rest
      else line :: keptLines dropped (first + 1) rest := by
  by_cases cut : first ∈ dropped <;> simp [keptLines, List.zipIdx_cons, cut]

theorem mem_of_mem_keptLines {first : Nat} {lines : List α} {line : α}
    (kept : line ∈ keptLines dropped first lines) : line ∈ lines := by
  obtain ⟨⟨_, number⟩, inside, rfl⟩ := List.mem_map.1 kept
  exact List.fst_mem_of_mem_zipIdx (List.mem_filter.1 inside).1

theorem keptLines_map {β : Type} (change : α → β) (first : Nat) (lines : List α) :
    keptLines dropped first (lines.map change) = (keptLines dropped first lines).map change := by
  induction lines generalizing first with
  | nil => rfl
  | cons line rest ih =>
    rw [List.map_cons, keptLines_cons, keptLines_cons, ih]
    split <;> rfl

theorem placeAfter_succ (number : Nat) :
    placeAfter dropped (number + 1) =
      if number ∈ dropped then placeAfter dropped number else placeAfter dropped number + 1 := by
  have bounded : (dropped.filter (· < number)).card ≤ number :=
    calc (dropped.filter (· < number)).card
      _ ≤ (Finset.range number).card := Finset.card_le_card fun n member =>
          Finset.mem_range.2 (Finset.mem_filter.1 member).2
      _ = number := Finset.card_range number
  -- The lines before the next number are those before this one, and this one if it is dropped.
  by_cases cut : number ∈ dropped
  · have one_more : dropped.filter (· < number + 1) =
        insert number (dropped.filter (· < number)) := by
      ext n
      rw [Finset.mem_insert, Finset.mem_filter, Finset.mem_filter]
      grind
    rw [if_pos cut, placeAfter, placeAfter, one_more, Finset.card_insert_of_notMem (by simp)]
    omega
  · have same : dropped.filter (· < number + 1) = dropped.filter (· < number) := by
      ext n
      rw [Finset.mem_filter, Finset.mem_filter]
      grind
    rw [if_neg cut, placeAfter, placeAfter, same]
    omega

end Cutting

/-! ### The lines of the text that is left -/

theorem splitLines_of_one_line {line : List Char} (one_line : '\n' ∉ line) :
    splitLines line = [line] := by
  induction line with
  | nil => rfl
  | cons c line ih =>
    obtain ⟨not_break, one_line⟩ := not_or.1 (mt List.mem_cons.2 one_line)
    rw [splitLines, if_neg (Ne.symm not_break), ih one_line]

theorem one_line_of_mem_splitLines {text line : List Char} (inside : line ∈ splitLines text) :
    '\n' ∉ line := by
  induction text generalizing line with
  | nil =>
    rw [List.mem_singleton.1 inside]
    exact List.not_mem_nil
  | cons c rest ih =>
    rw [splitLines] at inside
    split at inside
    next =>
      rcases List.mem_cons.1 inside with rfl | later
      · exact List.not_mem_nil
      · exact ih later
    next not_break =>
      split at inside
      next first lines split =>
        rw [split] at ih
        rcases List.mem_cons.1 inside with rfl | later
        · refine fun line_break => (List.mem_cons.1 line_break).elim (not_break ·.symm) ?_
          exact ih List.mem_cons_self
        · exact ih (List.mem_cons_of_mem first later)
      next =>
        rw [List.mem_singleton.1 inside, List.mem_singleton]
        exact (not_break ·.symm)

theorem splitLines_intercalate {lines : List (List Char)} (some_line : lines ≠ [])
    (one_line : ∀ line ∈ lines, '\n' ∉ line) : splitLines (['\n'].intercalate lines) = lines := by
  induction lines with
  | nil => exact absurd rfl some_line
  | cons line rest ih =>
    obtain ⟨here, later⟩ := List.forall_mem_cons.1 one_line
    cases rest with
    | nil => rw [List.intercalate_singleton, splitLines_of_one_line here]
    | cons next rest =>
      rw [List.intercalate_cons_cons, List.append_assoc, List.singleton_append,
        splitLines_append here, ih (List.cons_ne_nil next rest) later]

/-- The lines of the text that is left are the kept lines; if no line is kept, an empty one. -/
theorem sourceLines_withoutLines (source : String) (dropped : Finset Nat) :
    sourceLines (withoutLines source dropped) = keptLines dropped 1 (sourceLines source) ∨
      sourceLines (withoutLines source dropped) = [""] ∧
        keptLines dropped 1 (sourceLines source) = [] := by
  rw [sourceLines, sourceLines, keptLines_map, withoutLines, String.toList_ofList]
  by_cases some_line : keptLines dropped 1 (splitLines source.toList) = []
  · rw [some_line]
    exact .inr ⟨rfl, rfl⟩
  · rw [splitLines_intercalate some_line fun line kept =>
      one_line_of_mem_splitLines (mem_of_mem_keptLines dropped kept)]
    exact .inl rfl

/-! ### What one line does -/

theorem read_of_isRemark {text : String} (remark : IsRemark text) :
    Line.read text = .ok .blank := by
  have nothing : Token.skipBlanks text.toList = [] := by
    rcases remark with empty | ⟨comment, written⟩
    · rw [empty]
      rfl
    · rw [written, Token.skipBlanks_comment]
  rw [Line.read, Token.scan_of_nothing nothing]
  rfl

namespace Loading

variable {s : Loading} {dropped : Finset Nat}

theorem readLine_of_isRemark {text : String} (remark : IsRemark text) (s : Loading) (number : Nat) :
    s.readLine number text = (s, none) := by
  rw [readLine, read_of_isRemark remark]
  rfl

theorem readLine_of_warned {number : Nat} {text : String} {w : Warning}
    (warned : (s.readLine number text).2 = some w) : (s.readLine number text).1 = s := by
  rw [readLine] at warned ⊢
  split
  next => rfl
  next line read =>
    rw [read] at warned
    dsimp only at warned ⊢
    split
    next => rfl
    next next accepted =>
      rw [accepted] at warned
      cases warned

theorem line?_of_readLine {number : Nat} {text : String} {w : Warning}
    (warned : (s.readLine number text).2 = some w) : w.line? = some number := by
  rw [readLine] at warned
  split at warned
  next =>
    obtain rfl := Option.some.inj warned
    rfl
  next =>
    split at warned
    next =>
      obtain rfl := Option.some.inj warned
      rfl
    next => cases warned

/-- The number of a line matters to nothing but its warning. -/
theorem readLine_move (s : Loading) (move : Nat → Nat) (number : Nat) (text : String) :
    s.readLine (move number) text =
      ((s.readLine number text).1, (s.readLine number text).2.map (Warning.moveLine move)) := by
  rw [readLine, readLine]
  split
  next => rfl
  next line read => split <;> rfl

theorem line?_of_mem_readLines {number : Nat} {texts : List String} {w : Warning}
    (warned : w ∈ (s.readLines number texts).2) :
    ∃ line, w.line? = some line ∧ number ≤ line ∧ line < number + texts.length := by
  induction texts generalizing s number with
  | nil => exact absurd warned List.not_mem_nil
  | cons text rest ih =>
    rw [List.length_cons]
    rcases List.mem_append.1 warned with here | later
    · exact ⟨number, line?_of_readLine (Option.mem_toList.1 here), by omega, by omega⟩
    · obtain ⟨line, about, after, before⟩ := ih later
      exact ⟨line, about, by omega, by omega⟩

/-! ### A run without the lines that change nothing -/

def Unmoved (s : Loading) (dropped : Finset Nat) (first : Nat) (texts : List String) : Prop :=
  ∀ before text after, texts = before ++ text :: after → first + before.length ∈ dropped →
    ((s.readLines first before).1.readLine (first + before.length) text).1 =
      (s.readLines first before).1

theorem Unmoved.head {first : Nat} {text : String} {rest : List String}
    (unmoved : s.Unmoved dropped first (text :: rest)) (cut : first ∈ dropped) :
    (s.readLine first text).1 = s :=
  unmoved [] text rest rfl cut

theorem Unmoved.tail {first : Nat} {text : String} {rest : List String}
    (unmoved : s.Unmoved dropped first (text :: rest)) :
    (s.readLine first text).1.Unmoved dropped (first + 1) rest := by
  intro before line after split cut
  have moved : first + (text :: before).length = first + 1 + before.length := by
    rw [List.length_cons]
    omega
  have unmoved := unmoved (text :: before) line after (by rw [split, List.cons_append])
  rw [moved] at unmoved
  exact unmoved cut

def keptWarnings (dropped : Finset Nat) (warnings : List Warning) : List Warning :=
  (warnings.filter fun w => w.line?.all (· ∉ dropped)).map (Warning.moveLine (placeAfter dropped))

theorem keptWarnings_append (first second : List Warning) :
    keptWarnings dropped (first ++ second) =
      keptWarnings dropped first ++ keptWarnings dropped second := by
  rw [keptWarnings, List.filter_append, List.map_append]
  rfl

theorem keptWarnings_readLine (s : Loading) (first : Nat) (text : String) :
    keptWarnings dropped (s.readLine first text).2.toList =
      if first ∈ dropped then []
      else (s.readLine (placeAfter dropped first) text).2.toList := by
  rw [readLine_move s (placeAfter dropped)]
  cases warned : (s.readLine first text).2 with
  | none => simp [keptWarnings]
  | some w => by_cases cut : first ∈ dropped <;> simp [keptWarnings, line?_of_readLine warned, cut]

/-- Induction on the lines: a dropped line leaves the state in which the next one is read, and a
kept one is read in the same state under its new number. -/
theorem readLines_keptLines {first : Nat} {texts : List String}
    (unmoved : s.Unmoved dropped first texts) :
    s.readLines (placeAfter dropped first) (keptLines dropped first texts) =
      ((s.readLines first texts).1, keptWarnings dropped (s.readLines first texts).2) := by
  induction texts generalizing s first with
  | nil => rfl
  | cons text rest ih =>
    have later := ih unmoved.tail
    rw [placeAfter_succ] at later
    rw [keptLines_cons, readLines]
    dsimp only
    rw [keptWarnings_append, keptWarnings_readLine]
    by_cases cut : first ∈ dropped
    · rw [if_pos cut, unmoved.head cut] at later
      rw [if_pos cut, if_pos cut, unmoved.head cut, List.nil_append, later]
    · rw [if_neg cut] at later
      rw [if_neg cut, if_neg cut, readLines, readLine_move]
      dsimp only
      rw [later]

/-- Of a warning with a number, only the line of that number can be the cause. -/
theorem warned_of_mem_readLines {first : Nat} {before after : List String} {text : String}
    {w : Warning} (warned : w ∈ (s.readLines first (before ++ text :: after)).2)
    (about : w.line? = some (first + before.length)) :
    ((s.readLines first before).1.readLine (first + before.length) text).2 = some w := by
  rw [readLines_append] at warned
  rcases List.mem_append.1 warned with earlier | later
  · obtain ⟨line, numbered, _, ended⟩ := line?_of_mem_readLines earlier
    obtain rfl := Option.some.inj (about.symm.trans numbered)
    omega
  · rcases List.mem_append.1 later with here | behind
    · exact Option.mem_toList.1 here
    · obtain ⟨line, numbered, started, _⟩ := line?_of_mem_readLines behind
      obtain rfl := Option.some.inj (about.symm.trans numbered)
      omega

theorem finish_warning {w : Warning} (warned : s.finish.2 = some w) : w.line? = none := by
  rw [finish] at warned
  split at warned
  next => cases warned
  all_goals
    obtain rfl := Option.some.inj warned
    rfl

theorem keptWarnings_finish (s : Loading) :
    keptWarnings dropped s.finish.2.toList = s.finish.2.toList := by
  rw [finish]
  split <;> rfl

theorem mem_readLines_of_reported {source : String} {number : Nat} {w : Warning}
    (reported : w ∈ (Program.load source).2) (about : w.line? = some number) :
    w ∈ (start.readLines 1 (sourceLines source)).2 := by
  rcases List.mem_append.1 reported with read | ended
  · exact read
  · rw [finish_warning (Option.mem_toList.1 ended)] at about
    cases about

theorem unmoved_of_skipped {source : String}
    (skipped : ∀ number ∈ dropped, Skipped source number) :
    start.Unmoved dropped 1 (sourceLines source) := by
  intro before text after split cut
  rcases skipped _ cut with ⟨w, reported, about⟩ | ⟨other, numbered, nothing⟩
  · have read := mem_readLines_of_reported reported about
    rw [split] at read
    exact readLine_of_warned (warned_of_mem_readLines read about)
  · rw [split, List.mem_zipIdx_iff_le_and_getElem?_sub, Nat.add_sub_cancel_left,
      List.getElem?_append_right (Nat.le_refl _), Nat.sub_self] at numbered
    obtain rfl := Option.some.inj numbered.2
    rw [readLine_of_isRemark nothing]

end Loading

theorem Skipped.one_le {source : String} {number : Nat} (skipped : Skipped source number) :
    1 ≤ number := by
  rcases skipped with ⟨w, reported, about⟩ | ⟨text, numbered, _⟩
  · obtain ⟨line, found, started, _⟩ :=
      Loading.line?_of_mem_readLines (Loading.mem_readLines_of_reported reported about)
    obtain rfl := Option.some.inj (about.symm.trans found)
    exact started
  · exact (List.mem_zipIdx_iff_le_and_getElem?_sub.1 numbered).1

namespace Program

/-- Skipped lines, cut from a source in any selection, leave the program as it is, with its tables
in the same order, and leave the warnings about the remaining lines and the end of the text. -/
theorem load_withoutLines {source : String} {dropped : Finset Nat}
    (skipped : ∀ number ∈ dropped, Skipped source number) :
    load (withoutLines source dropped) =
      ((load source).1, Loading.keptWarnings dropped (load source).2) := by
  have no_line : 0 ∉ dropped := fun member => absurd (skipped 0 member).one_le (by decide)
  have kept := Loading.readLines_keptLines (Loading.unmoved_of_skipped skipped)
  rw [placeAfter_succ, if_neg no_line, placeAfter, Nat.zero_sub, Nat.zero_add] at kept
  have read : Loading.start.readLines 1 (sourceLines (withoutLines source dropped)) =
      ((Loading.start.readLines 1 (sourceLines source)).1,
        Loading.keptWarnings dropped (Loading.start.readLines 1 (sourceLines source)).2) := by
    rcases sourceLines_withoutLines source dropped with same | ⟨blank, nothing⟩
    · rw [same, kept]
    · -- Nothing is kept: the empty text has one line, and that line is blank.
      rw [nothing] at kept
      rw [blank, ← kept]
      rfl
  simp only [load]
  rw [read, Loading.keptWarnings_append, Loading.keptWarnings_finish]

/-- A source with lines to skip: before the first label, unreadable, out of place, and after the
terminator. The function is never closed. -/
def skipsLines : String := "\n".intercalate [
  "fn f() -> _ \x7b",
  "x = $copy 0",
  "// start",
  "entry:",
  "x = $bogus",
  "g: int",
  "",
  "$ret",
  "$ret"]

theorem warnings_skipsLines : (load skipsLines).2 = [
    .refused 2 "x = $copy 0" (.outsideBlock .operation),
    .malformed 5 "x = $bogus" .malformed,
    .refused 6 "g: int" .misplaced,
    .refused 9 "$ret" (.blockError .terminator (.terminated "entry")),
    .unclosedFunction "f"] := by
  decide +kernel

theorem load_withoutLines_skipsLines :
    (∀ number ∈ ({2, 3, 5, 7} : Finset Nat), Skipped skipsLines number) ∧
      load (withoutLines skipsLines {2, 3, 5, 7}) = ((load skipsLines).1, [
        .refused 3 "g: int" .misplaced,
        .refused 5 "$ret" (.blockError .terminator (.terminated "entry")),
        .unclosedFunction "f"]) := by
  have skipped : ∀ number ∈ ({2, 3, 5, 7} : Finset Nat), Skipped skipsLines number := by
    intro number member
    have reported : ∀ w ∈ (load skipsLines).2, w.line? = some number → Skipped skipsLines number :=
      .warned
    rw [warnings_skipsLines] at reported
    simp only [Finset.mem_insert, Finset.mem_singleton] at member
    rcases member with rfl | rfl | rfl | rfl
    · exact reported _ (.head _) rfl
    · exact .remark "// start" (by decide +kernel) (.inr ⟨" start".toList, rfl⟩)
    · exact reported _ (.tail _ (.head _)) rfl
    · exact .remark "" (by decide +kernel) (.inl rfl)
  refine ⟨skipped, (load_withoutLines skipped).trans ?_⟩
  rw [warnings_skipsLines]
  rfl

end Program

end Lir
