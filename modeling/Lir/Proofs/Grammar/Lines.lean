import Lir.Proofs.Grammar.Declarations
import Lir.Proofs.Grammar.Instructions
import Lir.Proofs.Source.Readers

/-!
Lines follow the grammar.

Each kind of line takes the text to its end, or the next kind is tried. What the reading of a line
gives is what the walk over the parse tree gives: the walk ends early at an integer that is too
large, and nowhere else.
-/

set_option autoImplicit false

namespace Lir

namespace Grammar

open Token (First skipBlanks)

variable {α : Type} {whole : List Char}

/-! ### Whole texts -/

theorem Ahead.nothing_iff {text rest : List Char} {tokens : List Token}
    (ahead : Ahead text tokens rest) : skipBlanks text = [] ↔ tokens = [] ∧ rest = [] := by
  cases ahead with
  | stuck => simp
  | token first later =>
    have something := List.ne_nil_of_length_pos (Nat.zero_lt_of_lt first.length_lt)
    simp [something]

/-- The expression takes the whole text where all of it is tokens and the reader gives a value for
them, and fails elsewhere. -/
structure Finishes (whole : List Char) (e : Peg) (reader : List Token → Option α)
    (Yields : List Tree → α → Prop) : Prop where
  fails : ∀ {text rest : List Char} {tokens : List Token}, skipBlanks text = text →
    Ahead text tokens rest → (rest = [] → reader tokens = none) →
      Parses whole .free e text none
  takes : ∀ {text : List Char} {tokens : List Token} {value : α}, skipBlanks text = text →
    Ahead text tokens [] → reader tokens = some value →
      ∃ trees, Parses whole .free e text (some (trees, [])) ∧
        Tree.integersOf trees = tokens.filterMap literal? ∧ Yields trees value

def endNode : Tree := .node .endOfText [] [] []

theorem parses_end : Parses whole .free (.rule .endOfText) [] (some ([endNode], [])) :=
  .rule .finish

theorem Agrees.finishes {e : Peg} {reader : Reader α} {Y : List Tree → α → Prop}
    (agrees : ∀ bound, Agrees whole bound e reader Y) :
    Finishes whole (Peg.sequence [e, Rule.endOfText]) reader.complete fun trees value =>
      ∃ front, trees = front ++ [endNode] ∧ Y front value := by
  constructor
  · intro text rest tokens skipped ahead unread
    cases read : reader tokens with
    | none => exact .seq_first_fails ((agrees _).fails (Nat.le_refl _) skipped ahead read)
    | some found =>
      obtain ⟨trees, behind, used, parsed, later, _⟩ :=
        (agrees _).takes (Nat.le_refl _) skipped ahead read
      have some_left : skipBlanks behind ≠ [] := by
        intro nothing
        obtain ⟨none_left, no_rest⟩ := later.nothing_iff.1 nothing
        have completed := (Reader.complete_eq_some_iff reader tokens found.1).2
          (by rw [read, ← none_left])
        simp [unread no_rest] at completed
      exact .seq_second_fails parsed (parses_free_gap whole behind)
        (.rule_fails (.finish_fails some_left))
  · intro text tokens value skipped ahead completed
    have read := (Reader.complete_eq_some_iff reader tokens value).1 completed
    obtain ⟨trees, behind, used, parsed, later, split, integers, held⟩ :=
      (agrees _).takes (Nat.le_refl _) skipped ahead read
    have gap := parses_free_gap whole behind
    rw [later.nothing_iff.2 ⟨rfl, rfl⟩] at gap
    refine ⟨_, .seq parsed gap parses_end, ?_, trees, by rw [List.append_nil], held⟩
    rw [integersOf_append, integersOf_append, integers, split, List.append_nil]
    simp [Tree.integersOf, Tree.integers, endNode]

theorem Finishes.or {e other : Peg} {first second : List Token → Option α}
    {Y : List Tree → α → Prop} (finishes : Finishes whole e first Y)
    (later : Finishes whole other second Y) :
    Finishes whole (.choice e other) (fun tokens => (first tokens).or (second tokens)) Y := by
  constructor
  · intro text rest tokens skipped ahead unread
    exact .choice_second
      (finishes.fails skipped ahead fun no_rest => (Option.or_eq_none_iff.1 (unread no_rest)).1)
      (later.fails skipped ahead fun no_rest => (Option.or_eq_none_iff.1 (unread no_rest)).2)
  · intro text tokens value skipped ahead read
    rcases Option.or_eq_some_iff.1 read with read_first | ⟨unread, read_second⟩
    · obtain ⟨trees, parsed, taken⟩ := finishes.takes skipped ahead read_first
      exact ⟨trees, .choice_first parsed, taken⟩
    · obtain ⟨trees, parsed, taken⟩ := later.takes skipped ahead read_second
      exact ⟨trees, .choice_second (finishes.fails skipped ahead fun _ => unread) parsed, taken⟩

/-! ### Kinds of line -/

def WalksLine (input : String) (trees : List Tree) (line : Line) : Prop :=
  ∀ start stop, Walk.line input [.node .line start stop trees] =
    (do inRange (Tree.integersOf trees); return line)

theorem finishes_kind (input : String) {name : Rule} {reader : Reader Line}
    (not_end : name ≠ .endOfText)
    (agrees : ∀ bound, Agrees whole bound (.rule name) reader (Walks name (Walk.item input))) :
    Finishes whole (Peg.sequence [name, Rule.endOfText]) reader.complete (WalksLine input) := by
  have finishes := Agrees.finishes agrees
  refine ⟨finishes.fails, fun skipped ahead read => ?_⟩
  obtain ⟨trees, parsed, integers, _, rfl, tree, rfl, kind, walked⟩ :=
    finishes.takes skipped ahead read
  refine ⟨_, parsed, integers, fun start stop => ?_⟩
  simp [Walk.line, kind, not_end, walked, Tree.integersOf, Tree.integers, endNode]

theorem finishes_blank (input : String) :
    Finishes whole (.rule .endOfText) Reader.blank.complete (WalksLine input) := by
  constructor
  · intro text rest tokens skipped ahead unread
    refine .rule_fails (.finish_fails fun nothing => ?_)
    obtain ⟨rfl, rfl⟩ := ahead.nothing_iff.1 (skipped.trans nothing)
    exact absurd (unread rfl) (by simp [Reader.complete, Reader.blank])
  · intro text tokens line skipped ahead read
    cases tokens with
    | nil =>
      obtain rfl : text = [] := skipped.symm.trans (ahead.nothing_iff.2 ⟨rfl, rfl⟩)
      refine ⟨_, parses_end, rfl, fun start stop => ?_⟩
      rw [← Option.some.inj read]
      rfl
    | cons token tokens => simp [Reader.complete, Reader.blank] at read

theorem ofTokens?_eq (tokens : List Token) :
    Line.ofTokens? tokens =
      (Reader.recordHeader.complete tokens).or ((Reader.functionHeader.complete tokens).or
        ((Reader.external.complete tokens).or ((Reader.locals.complete tokens).or
          ((Reader.close.complete tokens).or ((instructionOrRet.complete tokens).or
            ((Reader.label.complete tokens).or ((Reader.declaration.complete tokens).or
              (Reader.blank.complete tokens)))))))) := by
  have cons (f : Reader Line → Option Line) (reader : Reader Line) (rest : List (Reader Line)) :
      (reader :: rest).findSome? f = (f reader).or (rest.findSome? f) := by
    rw [List.findSome?_cons]
    cases f reader <;> rfl
  simp only [Line.ofTokens?, Reader.kinds, cons, List.findSome?_nil, Option.or_none,
    complete_instructionOrRet]

theorem finishes_line (input : String) :
    Finishes whole Rule.lineKinds Line.ofTokens? (WalksLine input) := by
  have kinds : Finishes whole Rule.lineKinds _ (WalksLine input) :=
    (finishes_kind input (by decide) (agrees_recordHeader input)).or
      ((finishes_kind input (by decide) (agrees_functionHeader input)).or
        ((finishes_kind input (by decide) (agrees_external input)).or
          ((finishes_kind input (by decide) (agrees_locals input)).or
            ((finishes_kind input (by decide) (agrees_closeLine input)).or
              ((finishes_kind input (by decide) (agrees_instruction input)).or
                ((finishes_kind input (by decide) (agrees_label input)).or
                  ((finishes_kind input (by decide) (agrees_declaration input)).or
                    (finishes_blank input))))))))
  rw [funext ofTokens?_eq]
  exact kinds

/-! ### Integers -/

theorem outOfRange?_of_first {text rest : List Char} {token : Token}
    (first : First text token rest) :
    token.outOfRange? = (literal? token).filter fun literal => (parseWord? literal).isNone := by
  cases token with
  | number negative digits =>
    obtain ⟨some_digit, all_digits⟩ := first.digits
    rw [Token.outOfRange?, literal?, Option.filter_some,
      parseWord?_numberText negative some_digit all_digits]
    cases Token.fitsWord (Token.numberValue negative digits) <;> rfl
  | _ => rfl

theorem Ahead.outOfRange? {text rest : List Char} {tokens : List Token}
    (ahead : Ahead text tokens rest) :
    tokens.findSome? Token.outOfRange? =
      (tokens.filterMap literal?).find? fun literal => (parseWord? literal).isNone := by
  induction ahead with
  | stuck => rfl
  | @token text behind rest token tokens first later ih =>
    rw [List.findSome?_cons, outOfRange?_of_first first, ih]
    cases found : literal? token with
    | none => rw [List.filterMap_cons_none found, Option.filter_none]
    | some literal =>
      rw [List.filterMap_cons_some found, Option.filter_some, List.find?_cons]
      cases (parseWord? literal).isNone <;> rfl

/-- The grammar makes one thing of each text. Where it rejects a text the line is malformed. Where
it accepts one, the walk over the tree and the reading give the same line if each integer of the
tree is a 32-bit word, and else both report the first that is not, as written: no other error of the
walk occurs. -/
theorem read_follows_grammar (text : String) :
    ∃ outcome : Option (List Tree × List Char),
      (∀ other, Parses text.toList .free (.rule .line) text.toList other ↔ other = outcome) ∧
      match outcome with
      | none => Line.read text = .error .malformed
      | some (trees, _) =>
        match (Tree.integersOf trees).find? fun literal => (parseWord? literal).isNone with
        | none => ∃ line, Walk.line text trees = .ok line ∧ Line.read text = .ok line
        | some literal =>
          Walk.line text trees = .error (.integer literal) ∧
            Line.read text = .error (.integerOutOfRange literal) ∧
              (LineError.integerOutOfRange literal).message =
                "Unsupported construct: integer out of range: " ++ literal := by
  obtain ⟨tokens, rest, ahead⟩ := Ahead.exists_ahead text.toList
  have gap := parses_free_gap text.toList text.toList
  have again := Token.skipBlanks_skipBlanks text.toList
  -- The grammar accepts what is all tokens, and these a line.
  by_cases read : rest = [] ∧ ∃ line, Line.ofTokens? tokens = some line
  · obtain ⟨rfl, line, read⟩ := read
    obtain ⟨trees, parsed, integers, walked⟩ := (finishes_line text).takes again ahead.skip read
    have accepted : Parses text.toList .free (.rule .line) text.toList
        (some ([.node .line text.toList [] trees], [])) := .rule (.seq .start gap parsed)
    refine ⟨_, fun _ => ⟨fun parsed => parsed.unique accepted, fun same => same ▸ accepted⟩, ?_⟩
    have same_integers : Tree.integersOf [.node .line text.toList [] trees] =
        tokens.filterMap literal? := by
      rw [Tree.integersOf, Tree.integersOf, List.append_nil, integers_node (by decide), integers]
    have walk := walked text.toList []
    rw [inRange, integers] at walk
    have reads := ahead.outOfRange?
    simp only [same_integers, walk, Line.read, ahead.scan, read, reads, if_true]
    cases (tokens.filterMap literal?).find? fun literal => (parseWord? literal).isNone with
    | none => exact ⟨line, rfl, rfl⟩
    | some literal => exact ⟨rfl, rfl, rfl⟩
  · have unread (no_rest : rest = []) : Line.ofTokens? tokens = none :=
      Option.eq_none_iff_forall_ne_some.2 fun line found => read ⟨no_rest, line, found⟩
    have rejected : Parses text.toList .free (.rule .line) text.toList none :=
      .rule_fails (.seq_second_fails .start gap
        ((finishes_line text).fails again ahead.skip unread))
    refine ⟨_, fun _ => ⟨fun parsed => parsed.unique rejected, fun same => same ▸ rejected⟩, ?_⟩
    rw [Line.read, ahead.scan]
    by_cases no_rest : rest = []
    · simp only [if_pos no_rest, unread no_rest]
    · simp only [if_neg no_rest]

end Grammar

end Lir
