import Lir.Proofs.Grammar.Parsing
import Lir.Proofs.Source.Scan

/-!
What the grammar takes at a token.

Where a text starts with a token, the expression for it takes exactly the characters of the token,
and every other expression for a word or a mark fails. Between tokens the grammar skips what
scanning skips.
-/

set_option autoImplicit false

namespace Lir

namespace Token

/-! ### The characters of a token -/

def lexeme : Token → List Char
  | .ident name => name.toList
  | .number negative digits => if negative then '-' :: digits else digits
  | .opcode word => '$' :: word.toList
  | .punct .openBrace => ['\x7b']
  | .punct .closeBrace => ['\x7d']
  | .punct .openParen => ['(']
  | .punct .closeParen => [')']
  | .punct .openBracket => ['[']
  | .punct .closeBracket => [']']
  | .punct .colon => [':']
  | .punct .semicolon => [';']
  | .punct .comma => [',']
  | .punct .ampersand => ['&']
  | .punct .equals => ['=']
  | .punct .arrow => ['-', '>']

theorem lexeme_of_ofChar? {c : Char} {mark : Punct} (written : Punct.ofChar? c = some mark) :
    lexeme (.punct mark) = [c] := by
  rw [Punct.ofChar?.eq_def] at written
  split at written
  all_goals first | (obtain rfl := Option.some.inj written; rfl) | simp at written

theorem First.eq_append {text rest : List Char} {token : Token} (first : First text token rest) :
    text = token.lexeme ++ rest := by
  cases first with
  | opcode tail => simp [lexeme, List.takeWhile_append_dropWhile]
  | arrow tail => rfl
  | negative digit tail => simp [lexeme, List.takeWhile_append_dropWhile]
  | number digit tail => simp [lexeme, List.takeWhile_append_dropWhile]
  | ident start tail => simp [lexeme, List.takeWhile_append_dropWhile]
  | punct written tail => simp [lexeme_of_ofChar? written]

theorem First.unique {text rest other_rest : List Char} {token other : Token}
    (first : First text token rest) (again : First text other other_rest) :
    token = other ∧ rest = other_rest := by
  rw [← first?_eq_some_iff] at first again
  exact Prod.mk.inj (Option.some.inj (first.symm.trans again))

theorem head_dropWhile {p : Char → Bool} (text : List Char) :
    ∀ c ∈ (text.dropWhile p).head?, p c = false := by
  intro c first
  have failed := List.head?_dropWhile_not p text
  rw [Option.mem_def.1 first] at failed
  exact failed

theorem First.stops {text rest : List Char} {token : Token} (first : First text token rest)
    (word : (∃ name, token = .ident name) ∨ ∃ word, token = .opcode word) :
    ∀ c ∈ rest.head?, isWordChar c = false := by
  cases first with
  | opcode tail => exact head_dropWhile tail
  | ident start tail => exact head_dropWhile tail
  | _ => simp at word

theorem First.digits {text rest : List Char} {negative : Bool} {digits : List Char}
    (first : First text (.number negative digits) rest) :
    digits ≠ [] ∧ digits.all Char.isDigit = true := by
  cases first with
  | negative digit tail | number digit tail =>
    exact ⟨List.cons_ne_nil _ _, List.all_eq_true.2
      (List.forall_mem_cons.2 ⟨digit, fun _ member => List.mem_takeWhile_imp member⟩)⟩

theorem skipBlanks_skipBlanks (text : List Char) :
    skipBlanks (skipBlanks text) = skipBlanks text := by
  rcases skipBlanks_eq text with same | ⟨same, _⟩
  · rw [same]
    cases kept : text.dropWhile isBlankChar with
    | nil => rfl
    | cons c rest =>
      have not_blank := head_dropWhile (p := isBlankChar) text c (by rw [kept]; rfl)
      refine skipBlanks_of_not_comment not_blank fun comment slashes => ?_
      rw [skipBlanks, kept, slashes] at same
      exact absurd same (List.cons_ne_nil _ _).symm
  · rw [same]
    rfl

end Token

namespace Grammar

open Token (First first? isWordChar isBlankChar isNameStart skipBlanks)

variable {whole : List Char}

/-! ### Single characters -/

namespace Parses

theorem tight_gap (text : List Char) :
    Parses whole .tight Spacing.tight.gap text (some ([], text)) :=
  .text (by simp)

theorem tight_rule {name : Rule} {text : List Char} {outcome : Option (List Tree × List Char)}
    (inner : Parses whole .tight name.body text outcome) :
    Parses whole .tight (.rule name) text outcome := by
  have tight : name.spacing .tight = .tight := by cases name <;> rfl
  rw [← tight] at inner
  cases outcome with
  | none => exact .rule_fails inner
  | some taken =>
    have left := Parses.rule inner
    rwa [Rule.leave, if_pos (.inr rfl)] at left

theorem tight_seq {first second : Peg} {text behind rest : List Char} {trees more : List Tree}
    (taken : Parses whole .tight first text (some (trees, behind)))
    (later : Parses whole .tight second behind (some (more, rest))) :
    Parses whole .tight (.seq first second) text (some (trees ++ more, rest)) := by
  have both := Parses.seq taken (tight_gap behind) later
  rwa [List.append_nil] at both

end Parses

/-- Takes one character of a class, or fails. -/
structure OneChar (whole : List Char) (e : Peg) (accepts : Char → Bool) : Prop where
  takes : ∀ c rest, accepts c = true → Parses whole .tight e (c :: rest) (some ([], rest))
  fails : ∀ text, (∀ c ∈ text.head?, accepts c = false) → Parses whole .tight e text none

namespace OneChar

variable {e other : Peg} {accepts accepts_other : Char → Bool}

theorem char (accepts : Char → Bool) : OneChar whole (.char accepts) accepts :=
  ⟨fun _ rest accepted => .char accepted rest, fun _ fails => .char_fails fails⟩

theorem text {letters : String} {c : Char} (only : letters.toList = [c]) :
    OneChar whole (.text letters) (· = c) := by
  constructor
  · intro d rest same
    rw [of_decide_eq_true same]
    exact .text (by rw [only]; rfl)
  · intro text other
    refine .text_fails fun ⟨rest, same⟩ => ?_
    rw [only] at same
    simpa using other c (by rw [← same]; rfl)

theorem choice (one : OneChar whole e accepts) (another : OneChar whole other accepts_other) :
    OneChar whole (.choice e other) fun c => accepts c || accepts_other c := by
  constructor
  · intro c rest accepted
    by_cases first : accepts c = true
    · exact .choice_first (one.takes c rest first)
    · have fails := one.fails (c :: rest) (by simpa using first)
      exact .choice_second fails (another.takes c rest (by simpa [first] using accepted))
  · intro text fails
    have both := fun c first => Bool.or_eq_false_iff.1 (fails c first)
    exact .choice_second (one.fails text fun c first => (both c first).1)
      (another.fails text fun c first => (both c first).2)

theorem rule (name : Rule) (body : OneChar whole name.body accepts) :
    OneChar whole (.rule name) accepts :=
  ⟨fun c rest accepted => (body.takes c rest accepted).tight_rule,
    fun text fails => (body.fails text fails).tight_rule⟩

theorem further (one : OneChar whole e accepts) (text : List Char) :
    Parses whole .tight (.further e) text (some ([], text.dropWhile accepts)) := by
  induction text with
  | nil => exact .further_none (Parses.tight_gap []) (one.fails [] (by simp))
  | cons c rest ih =>
    by_cases accepted : accepts c = true
    · rw [List.dropWhile_cons_of_pos accepted]
      exact .further_some (Parses.tight_gap _) (one.takes c rest accepted) ih
    · rw [List.dropWhile_cons_of_neg accepted]
      exact .further_none (Parses.tight_gap _) (one.fails _ (by simpa using accepted))

theorem star (one : OneChar whole e accepts) (text : List Char) :
    Parses whole .tight (.star e) text (some ([], text.dropWhile accepts)) := by
  cases text with
  | nil => exact .star_none (one.fails [] (by simp))
  | cons c rest =>
    by_cases accepted : accepts c = true
    · rw [List.dropWhile_cons_of_pos accepted]
      exact .star_some (one.takes c rest accepted) (one.further rest)
    · rw [List.dropWhile_cons_of_neg accepted]
      exact .star_none (one.fails _ (by simpa using accepted))

end OneChar

theorem oneChar_wordChar : OneChar whole (.rule .wordChar) isWordChar := by
  refine OneChar.rule .wordChar ?_
  exact (OneChar.char Char.isAlphanum).choice (OneChar.text (c := '_') rfl)

theorem oneChar_blank : OneChar whole (.rule .blank) isBlankChar :=
  OneChar.rule .blank
    ((OneChar.text (c := ' ') rfl).choice (OneChar.text (c := '\t') rfl))

/-! ### Gaps -/

theorem parses_comment (text : List Char) :
    Parses whole .tight (.rule .comment) ('/' :: '/' :: text) (some ([], [])) := by
  have nothing : (text.dropWhile fun _ => true) = [] := List.dropWhile_eq_nil_iff.2 fun _ _ => rfl
  have all : Parses whole .tight (.star (.char fun _ => true)) text
      (some ([], text.dropWhile fun _ => true)) := (OneChar.char _).star text
  rw [nothing] at all
  exact (Parses.tight_seq (.text rfl) all).tight_rule

theorem comment_fails {text : List Char} (other : ¬ "//".toList <+: text) :
    Parses whole .tight (.seq (.rule .comment) (.star (.rule .blank))) text none :=
  .seq_first_fails (Parses.seq_first_fails (.text_fails other)).tight_rule

theorem parses_gap (text : List Char) :
    Parses whole .tight Peg.gap text (some ([], skipBlanks text)) := by
  refine Parses.tight_seq (oneChar_blank.star text) (?_ : Parses _ _ _ _ (some ([], _)))
  rcases Token.skipBlanks_eq text with same | ⟨same, comment, slashes⟩
  · rw [same]
    refine .star_none (comment_fails fun ⟨rest, slashes⟩ => ?_)
    -- A comment would have been skipped.
    rw [skipBlanks, ← slashes] at same
    exact absurd same (List.cons_ne_nil _ _).symm
  · rw [same, slashes]
    have none_left : Parses whole .tight
        (.further (.seq (.rule .comment) (.star (.rule .blank)))) [] (some ([], [])) :=
      .further_none (Parses.tight_gap []) (comment_fails (by simp))
    exact .star_some (Parses.tight_seq (parses_comment comment) (oneChar_blank.star [])) none_left

/-! ### Words -/

def wordToken? (word : String) : Option Token :=
  match first? word.toList with
  | some (.ident name, []) => some (.ident name)
  | some (.opcode name, []) => some (.opcode name)
  | _ => none

theorem first_of_wordToken? {word : String} {token : Token} (named : wordToken? word = some token) :
    First word.toList token [] ∧
      ((∃ name, token = .ident name) ∨ ∃ name, token = .opcode name) := by
  rw [wordToken?] at named
  split at named
  next name found =>
    rw [← Option.some.inj named]
    exact ⟨(Token.first?_eq_some_iff _ _ _).1 found, .inl ⟨name, rfl⟩⟩
  next name found =>
    rw [← Option.some.inj named]
    exact ⟨(Token.first?_eq_some_iff _ _ _).1 found, .inr ⟨name, rfl⟩⟩
  next => simp at named

theorem isWordChar_of_mem_tail {word : String} {token : Token}
    (named : wordToken? word = some token) : ∀ c ∈ word.toList.tail, isWordChar c = true := by
  obtain ⟨first, kind⟩ := first_of_wordToken? named
  generalize none_left : ([] : List Char) = rest at first
  generalize word.toList = text at first
  cases first with
  | opcode tail | ident start tail => exact List.dropWhile_eq_nil_iff.1 none_left.symm
  | _ => simp at kind

theorem exists_cons_of_wordToken? {word : String} {token : Token}
    (named : wordToken? word = some token) : ∃ c rest, word.toList = c :: rest :=
  List.exists_cons_of_ne_nil
    (List.ne_nil_of_length_pos (first_of_wordToken? named).1.length_lt)

/-- Words that can be alternatives: each is one name or opcode, and none starts with an earlier
one. -/
structure Alternatives (words : List String) : Prop where
  each : ∀ word ∈ words, (wordToken? word).isSome = true
  apart : words.Pairwise fun earlier later => ¬ earlier.toList <+: later.toList

instance (words : List String) : Decidable (Alternatives words) :=
  decidable_of_iff ((∀ word ∈ words, (wordToken? word).isSome = true) ∧
      words.Pairwise fun earlier later => ¬ earlier.toList <+: later.toList)
    ⟨fun ⟨each, apart⟩ => ⟨each, apart⟩, fun ⟨each, apart⟩ => ⟨each, apart⟩⟩

theorem oneOf_cons_takes {word : String} {words : List String} {text rest : List Char}
    (same : text = word.toList ++ rest) :
    Parses whole .tight (Peg.oneOf ((word :: words).map Peg.text)) text (some ([], rest)) := by
  cases words with
  | nil => exact .text same
  | cons next words => exact .choice_first (.text same)

theorem oneOf_cons {word : String} {words : List String} {text : List Char}
    {outcome : Option (List Tree × List Char)} (other : ¬ word.toList <+: text)
    (later : Parses whole .tight (Peg.oneOf (words.map Peg.text)) text outcome) :
    Parses whole .tight (Peg.oneOf ((word :: words).map Peg.text)) text outcome := by
  cases words with
  | nil =>
    have none_left : Parses whole .tight (Peg.oneOf []) text none := .absent_fails (.text rfl)
    rw [later.unique none_left]
    exact .text_fails other
  | cons next words => exact .choice_second (.text_fails other) later

namespace Alternatives

variable {words : List String} {text rest : List Char}

theorem oneOf_takes (alternatives : Alternatives words) {word : String} (member : word ∈ words)
    (same : text = word.toList ++ rest) (stops : ∀ c ∈ rest.head?, isWordChar c = false) :
    Parses whole .tight (Peg.oneOf (words.map Peg.text)) text (some ([], rest)) := by
  induction words with
  | nil => exact absurd member List.not_mem_nil
  | cons first words ih =>
    by_cases here : word = first
    · exact oneOf_cons_takes (here ▸ same)
    obtain ⟨token, named⟩ :=
      Option.isSome_iff_exists.1 (alternatives.each first List.mem_cons_self)
    have ⟨apart, later_apart⟩ := List.pairwise_cons.1 alternatives.apart
    have later := (List.mem_cons.1 member).resolve_left here
    have parsed := ih
      ⟨fun word member => alternatives.each word (List.mem_cons_of_mem _ member), later_apart⟩ later
    refine oneOf_cons (fun starts => ?_) parsed
    -- An earlier word that the text starts with too would have to go on after this one.
    rcases List.prefix_or_prefix_of_prefix starts ⟨rest, same.symm⟩ with shorter | ⟨more, longer⟩
    · exact apart word later shorter
    · obtain ⟨behind, same_text⟩ := starts
      rw [← longer, same, List.append_assoc] at same_text
      have behind_word := List.append_cancel_left same_text
      cases more with
      | nil => exact here (String.toList_inj.1 (by simpa using longer))
      | cons c more =>
        have stop := stops c (by rw [← behind_word]; rfl)
        have inside : c ∈ first.toList.tail := by
          obtain ⟨token, named⟩ := Option.isSome_iff_exists.1 (alternatives.each word member)
          obtain ⟨d, letters, spelled⟩ := exists_cons_of_wordToken? named
          rw [← longer, spelled]
          simp
        rw [isWordChar_of_mem_tail named c inside] at stop
        exact Bool.noConfusion stop

/-- The choice fails or takes a word. -/
theorem oneOf_cases (whole : List Char) (words : List String) (text : List Char) :
    Parses whole .tight (Peg.oneOf (words.map Peg.text)) text none ∨
      ∃ word ∈ words, ∃ rest, text = word.toList ++ rest ∧
        Parses whole .tight (Peg.oneOf (words.map Peg.text)) text (some ([], rest)) := by
  induction words with
  | nil => exact .inl (.absent_fails (.text rfl))
  | cons first words ih =>
    by_cases starts : first.toList <+: text
    · obtain ⟨rest, same⟩ := starts
      exact .inr ⟨first, List.mem_cons_self, rest, same.symm, oneOf_cons_takes same.symm⟩
    · rcases ih with fails | ⟨word, member, rest, same, taken⟩
      · exact .inl (oneOf_cons starts fails)
      · exact .inr ⟨word, List.mem_cons_of_mem _ member, rest, same, oneOf_cons starts taken⟩

theorem takes (alternatives : Alternatives words) {word : String} (member : word ∈ words)
    {token : Token} (named : wordToken? word = some token) (first : First text token rest) :
    Parses whole .tight (Peg.word words) text (some ([], rest)) := by
  obtain ⟨alone, kind⟩ := first_of_wordToken? named
  have stops := first.stops kind
  have same : text = word.toList ++ rest := by
    rw [first.eq_append, alone.eq_append, List.append_nil]
  have ends : Parses whole .tight (.absent Rule.wordChar) rest (some ([], rest)) :=
    .absent (oneChar_wordChar.fails rest stops)
  exact Parses.tight_seq (alternatives.oneOf_takes member same stops) ends

theorem fails (alternatives : Alternatives words)
    (other : ∀ word ∈ words, ∀ token rest, First text token rest → wordToken? word ≠ some token) :
    Parses whole .tight (Peg.word words) text none := by
  rcases oneOf_cases whole words text with fails | ⟨word, member, rest, same, taken⟩
  · exact .seq_first_fails fails
  -- If a word is there it goes on, since its token does not come first.
  obtain ⟨token, named⟩ := Option.isSome_iff_exists.1 (alternatives.each word member)
  obtain ⟨c, behind, rfl, goes_on⟩ : ∃ c behind, rest = c :: behind ∧ isWordChar c = true := by
    by_contra! stops
    have apart : Token.Apart word.toList rest := fun c first goes_on => by
      cases rest with
      | nil => simp at first
      | cons d behind =>
        rw [← Option.some.inj first] at goes_on
        exact absurd goes_on (stops d behind rfl)
    have first := (first_of_wordToken? named).1.append fun _ => apart
    exact other word member token _ (same ▸ first) named
  exact .seq_second_fails taken (Parses.tight_gap _)
    (.absent_fails (oneChar_wordChar.takes c behind goes_on))

end Alternatives

/-! ### Names, integers and marks -/

theorem oneChar_nameStart :
    OneChar whole (Peg.oneOf [.char Char.isAlpha, "_"]) isNameStart :=
  (OneChar.char Char.isAlpha).choice (OneChar.text (c := '_') rfl)

theorem ident_takes {text rest : List Char} {name : String}
    (first : First text (.ident name) rest) :
    Parses whole .tight Rule.ident.body text (some ([], rest)) := by
  cases first with
  | ident start tail =>
    exact Parses.tight_seq (oneChar_nameStart.takes _ _ start) (oneChar_wordChar.star tail)

theorem ident_fails {text : List Char}
    (other : ∀ name rest, ¬ First text (.ident name) rest) :
    Parses whole .tight Rule.ident.body text none := by
  refine .seq_first_fails (oneChar_nameStart.fails text fun c first => ?_)
  refine Bool.eq_false_iff.2 fun start => ?_
  cases text with
  | nil => simp at first
  | cons d tail =>
    obtain rfl := Option.some.inj first
    exact other _ _ (.ident start tail)

theorem int_takes {text rest : List Char} {negative : Bool} {digits : List Char}
    (first : First text (.number negative digits) rest) :
    Parses whole .tight Rule.int.body text (some ([], rest)) := by
  have digit_star : ∀ {c : Char}, c.isDigit = true → ∀ tail : List Char,
      Parses whole .tight (.seq (.char Char.isDigit) (.star (.char Char.isDigit))) (c :: tail)
        (some ([], tail.dropWhile Char.isDigit)) := fun digit tail =>
    Parses.tight_seq (.char digit tail) ((OneChar.char Char.isDigit).star tail)
  cases first with
  | @negative c digit tail =>
    have sign : Parses whole .tight (.text "-") ('-' :: c :: tail) (some ([], c :: tail)) :=
      .text rfl
    exact Parses.tight_seq (.optional_some sign) (digit_star digit tail)
  | @number c digit tail =>
    have no_sign : Parses whole .tight (.text "-") (c :: tail) none := by
      refine .text_fails fun ⟨rest, same⟩ => ?_
      exact Token.ne_of_class digit '-' (by decide) (List.cons.inj same).1.symm
    exact Parses.tight_seq (.optional_none no_sign) (digit_star digit tail)

theorem int_fails {text : List Char}
    (other : ∀ negative digits rest, ¬ First text (.number negative digits) rest) :
    Parses whole .tight Rule.int.body text none := by
  have no_digit : ∀ tail : List Char, (∀ c ∈ tail.head?, c.isDigit = false) →
      Parses whole .tight (Peg.sequence [.char Char.isDigit, .star (.char Char.isDigit)]) tail
        none :=
    fun tail fails => .seq_first_fails (.char_fails fails)
  by_cases sign : ∃ tail, text = '-' :: tail
  · obtain ⟨tail, rfl⟩ := sign
    refine .seq_second_fails (.optional_some (.text rfl)) (Parses.tight_gap tail)
      (no_digit tail fun c first => Bool.eq_false_iff.2 fun digit => ?_)
    cases tail with
    | nil => simp at first
    | cons d tail =>
      obtain rfl := Option.some.inj first
      exact other _ _ _ (.negative digit tail)
  · have no_sign : Parses whole .tight (.text "-") text none :=
      .text_fails fun ⟨rest, same⟩ => sign ⟨rest, same.symm⟩
    refine .seq_second_fails (.optional_none no_sign) (Parses.tight_gap text)
      (no_digit text fun c first => Bool.eq_false_iff.2 fun digit => ?_)
    cases text with
    | nil => simp at first
    | cons d tail =>
      obtain rfl := Option.some.inj first
      exact other _ _ _ (.number digit tail)

theorem mark_takes {spacing : Spacing} {letters : String} {mark : Punct}
    (written : First letters.toList (.punct mark) []) {text rest : List Char}
    (first : First text (.punct mark) rest) :
    Parses whole spacing (.text letters) text (some ([], rest)) :=
  .text (by rw [first.eq_append, written.eq_append, List.append_nil])

theorem mark_fails {spacing : Spacing} {letters : String} {mark : Punct}
    (written : First letters.toList (.punct mark) []) {text : List Char}
    (other : ∀ rest, ¬ First text (.punct mark) rest) :
    Parses whole spacing (.text letters) text none := by
  refine .text_fails fun ⟨rest, same⟩ => other rest ?_
  rw [← same]
  -- A mark is never longer than it is written.
  generalize none_left : ([] : List Char) = behind at written
  generalize letters.toList = front at written
  cases written with
  | arrow => rw [← none_left]; exact .arrow rest
  | punct written => rw [← none_left]; exact .punct written rest

end Grammar

end Lir
