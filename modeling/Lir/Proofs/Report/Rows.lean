import Lir.Proofs.Source.Lines
import Lir.Report
import Mathlib.Data.String.Basic

/-!
Rows of a text report, and what can be read back from them.

A row is written as its key, an arrow, and its items between braces. If the characters of keys lie
beyond the space and no item holds a comma, a line gives back its row, and lines are in the order of
their keys also where one key starts with another. A point is written so that its last dot tells
the block from the number, whatever the block is called.
-/

set_option autoImplicit false

namespace Lir

/-! ### Lists of characters taken apart -/

theorem append_cons_inj {α : Type} {sep : α} {front other rest more : List α}
    (absent : sep ∉ front) (other_absent : sep ∉ other)
    (same : front ++ sep :: rest = other ++ sep :: more) : front = other ∧ rest = more := by
  induction front generalizing other with
  | nil =>
    cases other with
    | nil => exact ⟨rfl, (List.cons.inj same).2⟩
    | cons d other => exact absurd ((List.cons.inj same).1 ▸ List.mem_cons_self) other_absent
  | cons c front ih =>
    cases other with
    | nil => exact absurd ((List.cons.inj same).1 ▸ List.mem_cons_self) absent
    | cons d other =>
      obtain ⟨rfl, tails⟩ := List.cons.inj same
      rw [List.mem_cons, not_or] at absent other_absent
      obtain ⟨rfl, rest_same⟩ := ih absent.2 other_absent.2 tails
      exact ⟨rfl, rest_same⟩

/-- A smaller text stays smaller when a space and more text follow both, even if it is the start of
the larger one. -/
theorem append_space_lt_append_space {text other : List Char} (less : text < other)
    (beyond : ∀ c ∈ other, ' ' < c) (rest more : List Char) :
    text ++ ' ' :: rest < other ++ ' ' :: more := by
  induction text generalizing other with
  | nil =>
    cases other with
    | nil => exact absurd less (List.lt_irrefl _)
    | cons d other => exact List.Lex.rel (beyond d List.mem_cons_self)
  | cons c text ih =>
    cases other with
    | nil => exact absurd less (List.not_lt_nil _)
    | cons d other =>
      rcases List.cons_lt_cons_iff.1 less with smaller | ⟨rfl, tails⟩
      · exact List.Lex.rel smaller
      · exact List.Lex.cons (ih tails fun c member => beyond c (List.mem_cons_of_mem _ member))

theorem eq_of_map_eq_map {α β : Type} {f : α → β} {P : α → Prop}
    (inj : ∀ a b, P a → P b → f a = f b → a = b) {items others : List α}
    (held : ∀ item ∈ items, P item) (others_held : ∀ item ∈ others, P item)
    (same : items.map f = others.map f) : items = others := by
  induction items generalizing others with
  | nil => exact (List.map_eq_nil_iff.1 same.symm).symm
  | cons item items ih =>
    obtain ⟨first, rest, rfl, head, tail⟩ := List.map_eq_cons_iff.1 same.symm
    obtain ⟨item_held, items_held⟩ := List.forall_mem_cons.1 held
    obtain ⟨first_held, rest_held⟩ := List.forall_mem_cons.1 others_held
    rw [inj item first item_held first_held head.symm, ih items_held rest_held tail.symm]

/-! ### Points -/

namespace Point

def label : Point → String
  | .op _ index => toString index
  | .term _ => "term"

theorem render_eq (point : Point) : point.render = point.block ++ "." ++ point.label := by
  cases point with
  | op block index => rfl
  | term block =>
    have assoc : block ++ "." ++ "term" = block ++ ("." ++ "term") := String.append_assoc
    exact assoc.symm

theorem toList_label_op (block : String) (index : Nat) :
    (op block index).label.toList = Nat.toDigits 10 index := Nat.toList_repr

theorem isWordChar_of_mem_label (point : Point) :
    ∀ c ∈ point.label.toList, Token.isWordChar c = true := by
  cases point with
  | op block index =>
    intro c member
    rw [toList_label_op] at member
    exact Token.isWordChar_of_isDigit (Nat.isDigit_of_mem_toDigits (by decide) (by decide) member)
  | term block =>
    have words : ∀ c ∈ "term".toList, Token.isWordChar c = true := by simp [Token.isWordChar]
    exact words

theorem eq_of_label {p q : Point} (block : p.block = q.block) (label : p.label = q.label) :
    p = q := by
  have not_number : ∀ index, Nat.toDigits 10 index ≠ "term".toList := by
    intro index same
    have digit : ∀ c ∈ Nat.toDigits 10 index, c.isDigit = true := fun c member =>
      Nat.isDigit_of_mem_toDigits (by decide) (by decide) member
    rw [same] at digit
    exact absurd (digit 't' (by decide)) (by decide)
  have letters := congrArg String.toList label
  cases p with
  | op _ i =>
    rw [toList_label_op] at letters
    cases q with
    | op _ j =>
      rw [toList_label_op] at letters
      obtain rfl : i = j := by
        rw [← Nat.ofDigitChars_ten_toDigits (n := i), letters, Nat.ofDigitChars_ten_toDigits]
      exact congrArg (op · i) block
    | term _ => exact absurd letters (not_number i)
  | term _ =>
    cases q with
    | op _ j =>
      rw [toList_label_op] at letters
      exact absurd letters.symm (not_number j)
    | term _ => exact congrArg term block

/-- Points are written apart, also if block names hold dots and digits themselves. -/
theorem eq_of_render {p q : Point} (same : p.render = q.render) : p = q := by
  -- Read from the end, the first dot is the one before the label.
  have backwards : ∀ point : Point, point.render.toList.reverse =
      point.label.toList.reverse ++ '.' :: point.block.toList.reverse := by
    intro point
    rw [render_eq]
    simp
  have no_dot : ∀ point : Point, '.' ∉ point.label.toList.reverse := by
    intro point member
    exact absurd (point.isWordChar_of_mem_label '.' (List.mem_reverse.1 member)) (by decide)
  have parts := congrArg (fun text => text.toList.reverse) same
  simp only [backwards] at parts
  obtain ⟨label, block⟩ := append_cons_inj (no_dot p) (no_dot q) parts
  exact eq_of_label (String.toList_inj.1 (List.reverse_injective block))
    (String.toList_inj.1 (List.reverse_injective label))

end Point

/-! ### Texts of keys and items -/

def BeyondSpace (text : String) : Prop := ∀ c ∈ text.toList, ' ' < c

theorem lt_of_isWordChar {c : Char} (word : Token.isWordChar c = true) : ' ' < c := by
  have range := Token.toNat_of_isWordChar word
  change (32 : Nat) < c.toNat
  omega

theorem isWordChar_of_isIdentifier {name : String} (identifier : isIdentifier name) :
    ∀ c ∈ name.toList, Token.isWordChar c = true := by
  obtain ⟨c, rest, same, start, words⟩ := (isIdentifier_iff name).1 identifier
  rw [same]
  exact List.forall_mem_cons.2 ⟨Token.isWordChar_of_isNameStart start, words⟩

theorem beyondSpace_of_isIdentifier {name : String} (identifier : isIdentifier name) :
    BeyondSpace name :=
  fun c member => lt_of_isWordChar (isWordChar_of_isIdentifier identifier c member)

theorem BeyondSpace.not_mem {text : String} (beyond : BeyondSpace text) {c : Char}
    (not_beyond : ¬ ' ' < c) : c ∉ text.toList :=
  fun member => not_beyond (beyond c member)

structure Separable (item : String) : Prop where
  not_empty : item ≠ ""
  no_comma : ',' ∉ item.toList
  one_line : '\n' ∉ item.toList

theorem ne_empty_of_isIdentifier {name : String} (identifier : isIdentifier name) : name ≠ "" := by
  rintro rfl
  exact absurd identifier (by decide)

theorem not_mem_of_isIdentifier {name : String} (identifier : isIdentifier name) {c : Char}
    (no_word : Token.isWordChar c = false) : c ∉ name.toList := by
  intro member
  rw [isWordChar_of_isIdentifier identifier c member] at no_word
  exact Bool.noConfusion no_word

theorem separable_of_isIdentifier {name : String} (identifier : isIdentifier name) :
    Separable name where
  not_empty := ne_empty_of_isIdentifier identifier
  no_comma := not_mem_of_isIdentifier identifier (by decide)
  one_line := not_mem_of_isIdentifier identifier (by decide)

namespace Point

theorem mem_render {point : Point} {c : Char} (member : c ∈ point.render.toList) :
    c ∈ point.block.toList ∨ c = '.' ∨ Token.isWordChar c = true := by
  rw [render_eq, String.toList_append, String.toList_append, List.mem_append, List.mem_append]
    at member
  rcases member with (block | dot) | label
  · exact .inl block
  · exact .inr (.inl (List.mem_singleton.1 dot))
  · exact .inr (.inr (point.isWordChar_of_mem_label c label))

theorem beyondSpace_render {point : Point} (identifier : isIdentifier point.block) :
    BeyondSpace point.render := by
  intro c member
  rcases mem_render member with block | rfl | word
  · exact beyondSpace_of_isIdentifier identifier c block
  · decide
  · exact lt_of_isWordChar word

theorem separable_render {point : Point} (identifier : isIdentifier point.block) :
    Separable point.render where
  not_empty empty := by
    have dot : '.' ∈ point.render.toList := by
      rw [render_eq]
      simp
    rw [empty] at dot
    exact absurd dot (by decide)
  no_comma member := by
    rcases mem_render member with block | dot | word
    · exact not_mem_of_isIdentifier identifier (by decide) block
    · exact absurd dot (by decide)
    · exact absurd word (by decide)
  one_line := (beyondSpace_render identifier).not_mem (by decide)

end Point

/-! ### Rows -/

/-- A row whose line gives it back. -/
structure LegibleRow (row : String × List String) : Prop where
  key : BeyondSpace row.1
  items : ∀ item ∈ row.2, Separable item

def rowStart (key : String) : List Char := key.toList ++ " -> \x7b".toList

theorem toList_rowLine (key : String) (items : List String) :
    (rowLine key items).toList =
      key.toList ++ ' ' :: ("-> \x7b".toList ++ (", ".intercalate items).toList ++ ['\x7d']) := by
  simp [rowLine]

theorem rowStart_isPrefix_iff {key other : String} (beyond : BeyondSpace key)
    (other_beyond : BeyondSpace other) (items : List String) :
    rowStart key <+: (rowLine other items).toList ↔ key = other := by
  constructor
  · rintro ⟨rest, same⟩
    rw [toList_rowLine, rowStart, List.append_assoc] at same
    exact String.toList_inj.1 (append_cons_inj (beyond.not_mem (by decide))
      (other_beyond.not_mem (by decide)) same).1
  · rintro rfl
    refine ⟨(", ".intercalate items).toList ++ ['\x7d'], ?_⟩
    rw [toList_rowLine, rowStart]
    simp

theorem rowLine_lt_rowLine {key other : String} (less : key < other)
    (beyond : BeyondSpace other) (items others : List String) :
    rowLine key items < rowLine other others := by
  rw [String.lt_iff_toList_lt, toList_rowLine, toList_rowLine]
  exact append_space_lt_append_space (String.lt_iff_toList_lt.1 less) beyond _ _

theorem toList_intercalate_cons (item : String) (rest : List String) :
    (", ".intercalate (item :: rest)).toList = item.toList ++
      (if rest = [] then [] else ',' :: ' ' :: (", ".intercalate rest).toList) := by
  cases rest with
  | nil => simp
  | cons next rest => simp [String.intercalate_cons_cons]

theorem eq_of_intercalate {items others : List String} (separable : ∀ item ∈ items, Separable item)
    (others_separable : ∀ item ∈ others, Separable item)
    (same : (", ".intercalate items).toList = (", ".intercalate others).toList) :
    items = others := by
  -- An item is followed by a comma or by nothing, and holds no comma itself.
  induction items generalizing others with
  | nil =>
    cases others with
    | nil => rfl
    | cons other others =>
      rw [toList_intercalate_cons] at same
      have empty : other.toList = [] := (List.append_eq_nil_iff.1 same.symm).1
      exact absurd (String.toList_inj.1 empty) (others_separable other List.mem_cons_self).not_empty
  | cons item items ih =>
    obtain ⟨first, later⟩ := List.forall_mem_cons.1 separable
    cases others with
    | nil =>
      rw [toList_intercalate_cons] at same
      have empty : item.toList = [] := (List.append_eq_nil_iff.1 same).1
      exact absurd (String.toList_inj.1 empty) first.not_empty
    | cons other others =>
      obtain ⟨other_first, other_later⟩ := List.forall_mem_cons.1 others_separable
      rw [toList_intercalate_cons, toList_intercalate_cons] at same
      by_cases last : items = []
      · by_cases other_last : others = []
        · simp only [last, other_last, if_true, List.append_nil] at same
          rw [String.toList_inj.1 same, last, other_last]
        · simp only [last, other_last, if_true, if_false, List.append_nil] at same
          exact absurd (same ▸ List.mem_append_right _ List.mem_cons_self) first.no_comma
      · by_cases other_last : others = []
        · simp only [last, other_last, if_true, if_false, List.append_nil] at same
          exact absurd (same ▸ List.mem_append_right _ List.mem_cons_self) other_first.no_comma
        · simp only [last, other_last, if_false] at same
          obtain ⟨head, tails⟩ := append_cons_inj first.no_comma other_first.no_comma same
          rw [String.toList_inj.1 head, ih later other_later (List.cons.inj tails).2]

theorem eq_of_rowLine {row other : String × List String} (legible : LegibleRow row)
    (other_legible : LegibleRow other) (same : rowLine row.1 row.2 = rowLine other.1 other.2) :
    row = other := by
  have letters := congrArg String.toList same
  rw [toList_rowLine, toList_rowLine] at letters
  obtain ⟨key, behind⟩ := append_cons_inj (legible.key.not_mem (by decide))
    (other_legible.key.not_mem (by decide)) letters
  rw [List.append_assoc, List.append_assoc] at behind
  have joined := List.append_cancel_right (List.append_cancel_left behind)
  exact Prod.ext (String.toList_inj.1 key)
    (eq_of_intercalate legible.items other_legible.items joined)

theorem LegibleRow.one_line {row : String × List String} (legible : LegibleRow row) :
    '\n' ∉ (rowLine row.1 row.2).toList := by
  have items : ∀ items : List String, (∀ item ∈ items, Separable item) →
      '\n' ∉ (", ".intercalate items).toList := by
    intro items separable
    induction items with
    | nil => decide
    | cons item items ih =>
      obtain ⟨first, later⟩ := List.forall_mem_cons.1 separable
      rw [toList_intercalate_cons, List.mem_append, not_or]
      refine ⟨first.one_line, ?_⟩
      split
      · exact List.not_mem_nil
      · simp only [List.mem_cons, not_or]
        exact ⟨by decide, by decide, ih later⟩
  rw [toList_rowLine, List.mem_append, not_or, List.mem_cons, not_or, List.mem_append, not_or,
    List.mem_append, not_or]
  exact ⟨legible.key.not_mem (by decide), by decide, ⟨by decide, items row.2 legible.items⟩,
    by decide⟩

/-! ### Reports -/

namespace Report

def rows : Report → List (String × List String)
  | .sets rows => rows
  | .values rows => rows.map fun row => (row.1, row.2.map fun value => value.1 ++ " -> " ++ value.2)

theorem lines_eq (report : Report) :
    report.lines = report.rows.map fun row => rowLine row.1 row.2 := by
  cases report with
  | sets rows => rfl
  | values rows =>
    rw [Report.lines, Report.rows, List.map_map]
    rfl

theorem pairwise_lt_lines {report : Report} (legible : ∀ row ∈ report.rows, LegibleRow row)
    (sorted : report.rows.Pairwise fun row other => row.1 < other.1) :
    report.lines.Pairwise (· < ·) := by
  rw [lines_eq, List.pairwise_map]
  refine sorted.imp_of_mem fun {row other} _ member less => ?_
  exact rowLine_lt_rowLine less (legible other member).key _ _

/-- A text report gives back the rows it was made of. -/
theorem eq_rows_of_render {report other : Report} (legible : ∀ row ∈ report.rows, LegibleRow row)
    (other_legible : ∀ row ∈ other.rows, LegibleRow row)
    (same : report.render .text = other.render .text) : report.rows = other.rows := by
  have one_line : ∀ report : Report, (∀ row ∈ report.rows, LegibleRow row) →
      ∀ line ∈ report.lines, '\n' ∉ line.toList := by
    intro report legible line member
    rw [lines_eq] at member
    obtain ⟨row, listed, rfl⟩ := List.mem_map.1 member
    exact (legible row listed).one_line
  have apart := congrArg (fun text => splitLines text.toList) same
  simp only [render, splitLines_renderLines (one_line report legible),
    splitLines_renderLines (one_line other other_legible)] at apart
  have lines : report.lines = other.lines :=
    List.map_injective_iff.2 (fun _ _ => String.toList_inj.1) (List.append_cancel_right apart)
  rw [lines_eq, lines_eq] at lines
  exact eq_of_map_eq_map (fun _ _ => eq_of_rowLine) legible other_legible lines

end Report

end Lir
