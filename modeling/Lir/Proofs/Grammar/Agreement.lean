import Lir.Proofs.Grammar.Walk
import Lir.Proofs.Grammar.Words

/-!
Readers of tokens that agree with expressions of the grammar.

A reader agrees with an expression if both fail alike at every text, or the reader leaves the tokens
of the text that the expression leaves. What the trees of the expression have to do with the value
of the reader is a parameter, and agreement is put together the way expressions are.
-/

set_option autoImplicit false

namespace Lir

namespace Grammar

open Token (First first? skipBlanks)

/-- The tokens at the front of a text, and the rest of it that starts with no token. The text is
made of tokens if no rest is left. -/
inductive Ahead : List Char → List Token → List Char → Prop where
  | stuck {text : List Char} (other : ∀ token rest, ¬ First (skipBlanks text) token rest) :
      Ahead text [] (skipBlanks text)
  | token {text behind rest : List Char} {token : Token} {tokens : List Token}
      (first : First (skipBlanks text) token behind) (later : Ahead behind tokens rest) :
      Ahead text (token :: tokens) rest

namespace Ahead

variable {text rest : List Char} {tokens : List Token}

theorem exists_ahead (text : List Char) : ∃ tokens rest, Ahead text tokens rest := by
  obtain ⟨length, same⟩ : ∃ length, text.length = length := ⟨_, rfl⟩
  induction length using Nat.strong_induction_on generalizing text with
  | _ length ih =>
    by_cases starts : ∃ token behind, First (skipBlanks text) token behind
    · obtain ⟨token, behind, first⟩ := starts
      have shorter := Token.length_skipBlanks_le text
      have less := first.length_lt
      obtain ⟨tokens, rest, later⟩ := ih behind.length (by omega) behind rfl
      exact ⟨token :: tokens, rest, .token first later⟩
    · exact ⟨[], _, .stuck fun token rest first => starts ⟨token, rest, first⟩⟩

theorem skip (ahead : Ahead text tokens rest) : Ahead (skipBlanks text) tokens rest := by
  cases ahead with
  | stuck other =>
    rw [← Token.skipBlanks_skipBlanks] at other
    have again := Ahead.stuck other
    rwa [Token.skipBlanks_skipBlanks] at again
  | token first later => exact .token (by rwa [Token.skipBlanks_skipBlanks]) later

theorem scan (ahead : Ahead text tokens rest) :
    Token.scan text = if rest = [] then some tokens else none := by
  induction ahead with
  | @stuck text other =>
    by_cases nothing : skipBlanks text = []
    · rw [if_pos nothing, Token.scan_of_nothing nothing]
    · have none_first : first? (skipBlanks text) = none :=
        Option.eq_none_iff_forall_not_mem.2 fun read found =>
          other _ _ ((Token.first?_eq_some_iff _ _ _).1 found)
      rw [if_neg nothing, Token.scan_of_something nothing, none_first]
      rfl
  | @token text behind rest token tokens first later ih =>
    have something : skipBlanks text ≠ [] :=
      List.ne_nil_of_length_pos (Nat.zero_lt_of_lt first.length_lt)
    rw [Token.scan_of_something something, (Token.first?_eq_some_iff _ _ _).2 first,
      Option.bind_some, ih]
    split <;> rfl

end Ahead

def literal? : Token → Option String
  | .number negative digits => some (Token.numberText negative digits)
  | _ => none

variable {α β : Type} {whole : List Char}

/-- What an expression takes where a reader leaves some of the tokens: nodes, and the text behind
what it takes. The integers of the nodes are the numbers among the tokens that are taken. -/
def Takes (whole : List Char) (e : Peg) (text : List Char) (tokens left : List Token)
    (rest : List Char) (Yields : List Tree → Prop) : Prop :=
  ∃ trees behind used, Parses whole .free e text (some (trees, behind)) ∧ Ahead behind left rest ∧
    tokens = used ++ left ∧ Tree.integersOf trees = used.filterMap literal? ∧ Yields trees

/-- The expression and the reader fail alike or take the same, up to a number of tokens. -/
structure Agrees (whole : List Char) (bound : Nat) (e : Peg) (reader : Reader α)
    (Yields : List Tree → α → Prop) : Prop where
  fails : ∀ {text rest : List Char} {tokens : List Token}, tokens.length ≤ bound →
    skipBlanks text = text → Ahead text tokens rest → reader tokens = none →
    Parses whole .free e text none
  takes : ∀ {text rest : List Char} {tokens left : List Token} {value : α}, tokens.length ≤ bound →
    skipBlanks text = text → Ahead text tokens rest → reader tokens = some (value, left) →
    Takes whole e text tokens left rest fun trees => Yields trees value

namespace Agrees

variable {bound : Nat} {e other : Peg} {reader : Reader α} {Y : List Tree → α → Prop}
  {next : Reader β} {Z : List Tree → β → Prop}

theorem map (agrees : Agrees whole bound e reader Y) (f : α → β)
    (same : ∀ tokens, next tokens = (reader tokens).map fun read => (f read.1, read.2))
    (yields : ∀ trees value, Y trees value → Z trees (f value)) : Agrees whole bound e next Z := by
  constructor
  · intro text rest tokens within skipped ahead unread
    rw [same, Option.map_eq_none_iff] at unread
    exact agrees.fails within skipped ahead unread
  · intro text rest tokens left value within skipped ahead read
    rw [same] at read
    obtain ⟨⟨value, left⟩, read_first, values⟩ := Option.map_eq_some_iff.1 read
    obtain ⟨rfl, rfl⟩ := Prod.mk.inj values
    obtain ⟨trees, behind, used, parsed, ahead, split, integers, held⟩ :=
      agrees.takes within skipped ahead read_first
    exact ⟨trees, behind, used, parsed, ahead, split, integers, yields trees _ held⟩

theorem imp {Z : List Tree → α → Prop} (agrees : Agrees whole bound e reader Y)
    (yields : ∀ trees value, Y trees value → Z trees value) : Agrees whole bound e reader Z :=
  agrees.map id (fun tokens => by cases reader tokens <;> rfl) yields

theorem mono {fewer : Nat} (agrees : Agrees whole bound e reader Y) (le : fewer ≤ bound) :
    Agrees whole fewer e reader Y :=
  ⟨fun within => agrees.fails (within.trans le), fun within => agrees.takes (within.trans le)⟩

end Agrees

/-! ### One token -/

def single (accept : Token → Option α) : Reader α
  | token :: rest => (accept token).map fun value => (value, rest)
  | [] => none

theorem exists_of_single {accept : Token → Option α} {tokens left : List Token} {value : α}
    (read : single accept tokens = some (value, left)) :
    ∃ token, tokens = token :: left ∧ accept token = some value := by
  cases tokens with
  | nil => simp [single] at read
  | cons token rest =>
    obtain ⟨value, accepted, same⟩ := Option.map_eq_some_iff.1 read
    obtain ⟨rfl, rfl⟩ := Prod.mk.inj same
    exact ⟨token, rfl, accepted⟩

theorem Agrees.token {accept : Token → Option α} {e : Peg} {Y : List Tree → α → Prop}
    (takes : ∀ {text rest : List Char} {token : Token} {value : α}, First text token rest →
      accept token = some value → ∃ trees, Parses whole .free e text (some (trees, rest)) ∧
        Tree.integersOf trees = (literal? token).toList ∧ Y trees value)
    (fails : ∀ {text : List Char}, (∀ token rest, First text token rest → accept token = none) →
      Parses whole .free e text none) (bound : Nat) : Agrees whole bound e (single accept) Y := by
  constructor
  · intro text rest tokens within skipped ahead unread
    refine fails fun token behind first => ?_
    cases ahead with
    | stuck other => exact absurd (by rwa [skipped]) (other token behind)
    | token found later =>
      rw [skipped] at found
      rw [(first.unique found).1]
      exact Option.map_eq_none_iff.1 unread
  · intro text rest tokens left value within skipped ahead read
    cases ahead with
    | stuck => simp [single] at read
    | @token _ behind _ token tokens first later =>
      rw [skipped] at first
      obtain ⟨value, accepted, values⟩ := Option.map_eq_some_iff.1 read
      obtain ⟨rfl, rfl⟩ := Prod.mk.inj values
      obtain ⟨trees, parsed, integers, held⟩ := takes first accepted
      refine ⟨trees, behind, [token], parsed, later, rfl, ?_, held⟩
      rw [integers]
      cases found : literal? token <;> simp [found]

/-! ### One after the other -/

def depending (first : Reader α) (second : α → Reader β) : Reader (α × β) := fun tokens =>
  (first tokens).bind fun a => (second a.1 a.2).map fun b => ((a.1, b.1), b.2)

def Depending (Y : List Tree → α → Prop) (Z : α → List Tree → β → Prop) (trees : List Tree)
    (values : α × β) : Prop :=
  ∃ front back, trees = front ++ back ∧ Y front values.1 ∧ Z values.1 back values.2

def both (first : Reader α) (second : Reader β) : Reader (α × β) := fun tokens =>
  (first tokens).bind fun a => (second a.2).map fun b => ((a.1, b.1), b.2)

theorem exists_of_both {first : Reader α} {second : Reader β} {tokens left : List Token}
    {values : α × β} (read : both first second tokens = some (values, left)) :
    ∃ middle, first tokens = some (values.1, middle) ∧ second middle = some (values.2, left) := by
  obtain ⟨⟨value, middle⟩, read_first, read⟩ := Option.bind_eq_some_iff.1 read
  obtain ⟨⟨more, left⟩, read_second, same⟩ := Option.map_eq_some_iff.1 read
  obtain ⟨rfl, rfl⟩ := Prod.mk.inj same
  exact ⟨middle, read_first, read_second⟩

def Both (Y : List Tree → α → Prop) (Z : List Tree → β → Prop) (trees : List Tree)
    (values : α × β) : Prop :=
  ∃ front back, trees = front ++ back ∧ Y front values.1 ∧ Z back values.2

theorem integersOf_append (trees more : List Tree) :
    Tree.integersOf (trees ++ more) = Tree.integersOf trees ++ Tree.integersOf more := by
  induction trees with
  | nil => rfl
  | cons tree trees ih =>
    rw [List.cons_append, Tree.integersOf, ih, Tree.integersOf, List.append_assoc]

theorem parses_free_gap (whole text : List Char) :
    Parses whole .tight Spacing.free.gap text (some ([], skipBlanks text)) :=
  parses_gap text

section

variable {bound later_bound : Nat} {e other : Peg} {first : Reader α} {second : Reader β}
  {Y : List Tree → α → Prop} {Z : List Tree → β → Prop}

/-- Two parts, of which the second need agree only on as many tokens as the first leaves. -/
theorem Agrees.then_depending_within {second : α → Reader β} {Z : α → List Tree → β → Prop}
    (agrees : Agrees whole bound e first Y)
    (later : ∀ value, Agrees whole later_bound other (second value) (Z value))
    (leaves : ∀ tokens value left, tokens.length ≤ bound → left <:+ tokens →
      first tokens = some (value, left) → left.length ≤ later_bound) :
    Agrees whole bound (.seq e other) (depending first second) (Depending Y Z) := by
  -- What is behind the first part starts with a gap, which the tokens do not show.
  constructor
  · intro text rest tokens within skipped ahead unread
    cases read : first tokens with
    | none => exact .seq_first_fails (agrees.fails within skipped ahead read)
    | some found =>
      obtain ⟨trees, behind, used, parsed, ahead_behind, split, _, _⟩ :=
        agrees.takes within skipped ahead read
      rw [depending, read, Option.bind_some, Option.map_eq_none_iff] at unread
      exact .seq_second_fails parsed (parses_free_gap whole behind)
        ((later _).fails (leaves _ _ _ within ⟨used, split.symm⟩ read)
          (Token.skipBlanks_skipBlanks behind) ahead_behind.skip unread)
  · intro text rest tokens left values within skipped ahead read_both
    obtain ⟨⟨value, middle⟩, read, read_later⟩ := Option.bind_eq_some_iff.1 read_both
    obtain ⟨⟨more, left⟩, read_second, same⟩ := Option.map_eq_some_iff.1 read_later
    obtain ⟨rfl, rfl⟩ := Prod.mk.inj same
    obtain ⟨front, behind, used, parsed, ahead_behind, split, integers, held⟩ :=
      agrees.takes within skipped ahead read
    obtain ⟨back, end_text, used_later, parsed_later, ahead_end, split_later, integers_later,
      held_later⟩ := (later _).takes (leaves _ _ _ within ⟨used, split.symm⟩ read)
        (Token.skipBlanks_skipBlanks behind) ahead_behind.skip read_second
    refine ⟨front ++ [] ++ back, end_text, used ++ used_later,
      .seq parsed (parses_free_gap whole behind) parsed_later, ahead_end, ?_, ?_, ?_⟩
    · rw [split, split_later, List.append_assoc]
    · rw [List.append_nil, integersOf_append, integers, integers_later, List.filterMap_append]
    · exact ⟨front, back, by rw [List.append_nil], held, held_later⟩

theorem Agrees.then_depending {second : α → Reader β} {Z : α → List Tree → β → Prop}
    (agrees : Agrees whole bound e first Y)
    (later : ∀ value, Agrees whole bound other (second value) (Z value)) :
    Agrees whole bound (.seq e other) (depending first second) (Depending Y Z) :=
  agrees.then_depending_within later fun _ _ _ within suffix _ => suffix.length_le.trans within

theorem Agrees.then (agrees : Agrees whole bound e first Y)
    (later : Agrees whole bound other second Z) :
    Agrees whole bound (.seq e other) (both first second) (Both Y Z) :=
  agrees.then_depending fun _ => later

theorem Agrees.token_then {accept : Token → Option α}
    (agrees : Agrees whole (bound + 1) e (single accept) Y)
    (later : Agrees whole bound other second Z) :
    Agrees whole (bound + 1) (.seq e other) (both (single accept) second) (Both Y Z) := by
  refine agrees.then_depending_within (fun _ => later) fun tokens value left within _ read => ?_
  cases tokens with
  | nil => simp [single] at read
  | cons token tokens =>
    obtain ⟨_, _, same⟩ := Option.map_eq_some_iff.1 read
    rw [← (Prod.mk.inj same).2]
    exact Nat.le_of_succ_le_succ within

end

/-! ### Choices and parts that may be missing -/

def either (first second : Reader α) : Reader α := fun tokens =>
  (first tokens).or (second tokens)

theorem Agrees.or {bound : Nat} {e other : Peg} {first second : Reader α}
    {Y : List Tree → α → Prop} (agrees : Agrees whole bound e first Y)
    (later : Agrees whole bound other second Y) :
    Agrees whole bound (.choice e other) (either first second) Y := by
  constructor
  · intro text rest tokens within skipped ahead unread
    obtain ⟨unread_first, unread_second⟩ := Option.or_eq_none_iff.1 unread
    exact .choice_second (agrees.fails within skipped ahead unread_first)
      (later.fails within skipped ahead unread_second)
  · intro text rest tokens left value within skipped ahead read
    rcases Option.or_eq_some_iff.1 read with read_first | ⟨unread, read_second⟩
    · obtain ⟨trees, behind, used, parsed, taken⟩ := agrees.takes within skipped ahead read_first
      exact ⟨trees, behind, used, .choice_first parsed, taken⟩
    · obtain ⟨trees, behind, used, parsed, taken⟩ := later.takes within skipped ahead read_second
      exact ⟨trees, behind, used,
        .choice_second (agrees.fails within skipped ahead unread) parsed, taken⟩

def maybe (item : Reader α) : Reader (Option α) := fun tokens =>
  match item tokens with
  | some (value, left) => some (some value, left)
  | none => some (none, tokens)

def Maybe (Y : List Tree → α → Prop) (trees : List Tree) : Option α → Prop
  | some value => Y trees value
  | none => trees = []

theorem Agrees.optional {bound : Nat} {e : Peg} {item : Reader α} {Y : List Tree → α → Prop}
    (agrees : Agrees whole bound e item Y) :
    Agrees whole bound (.optional e) (maybe item) (Maybe Y) := by
  constructor
  · intro text rest tokens within skipped ahead unread
    rw [maybe] at unread
    split at unread <;> simp at unread
  · intro text rest tokens left value within skipped ahead read
    rw [maybe] at read
    split at read
    next found left read_item =>
      obtain ⟨rfl, rfl⟩ := Prod.mk.inj (Option.some.inj read)
      obtain ⟨trees, behind, used, parsed, taken⟩ := agrees.takes within skipped ahead read_item
      exact ⟨trees, behind, used, .optional_some parsed, taken⟩
    next unread =>
      obtain ⟨rfl, rfl⟩ := Prod.mk.inj (Option.some.inj read)
      exact ⟨[], text, [], .optional_none (agrees.fails within skipped ahead unread), ahead, rfl,
        rfl, rfl⟩

/-! ### Rules -/

def Node (name : Rule) (Y : List Tree → α → Prop) (trees : List Tree) (value : α) : Prop :=
  ∃ start stop children, trees = [.node name start stop children] ∧ Y children value

theorem integers_node {name : Rule} (not_int : name ≠ .int) (start stop : List Char)
    (children : List Tree) :
    (Tree.node name start stop children).integers = Tree.integersOf children := by
  rw [Tree.integers.eq_def]
  split
  next same => exact absurd (Tree.node.inj same).1 not_int
  next same => rw [(Tree.node.inj same).2.2.2]

theorem Agrees.rule {bound : Nat} (name : Rule) {reader : Reader α} {Y : List Tree → α → Prop}
    (agrees : Agrees whole bound name.body reader Y) (loud : name.silent = false)
    (free : name.spacing .free = .free) :
    Agrees whole bound (.rule name) reader (Node name Y) := by
  constructor
  · intro text rest tokens within skipped ahead unread
    refine .rule_fails ?_
    rw [free]
    exact agrees.fails within skipped ahead unread
  · intro text rest tokens left value within skipped ahead read
    obtain ⟨trees, behind, used, parsed, ahead_behind, split, integers, held⟩ :=
      agrees.takes within skipped ahead read
    rw [← free] at parsed
    have left := Parses.rule parsed
    rw [Rule.leave, if_neg (by simp [loud])] at left
    refine ⟨_, behind, used, left, ahead_behind, split, ?_, ⟨_, _, _, rfl, held⟩⟩
    have not_int : name ≠ .int := by
      rintro rfl
      cases free
    rw [Tree.integersOf, Tree.integersOf, List.append_nil, integers_node not_int, integers]

theorem Agrees.silent {bound : Nat} (name : Rule) {reader : Reader α} {Y : List Tree → α → Prop}
    (agrees : Agrees whole bound name.body reader Y) (silent : name.silent = true)
    (free : name.spacing .free = .free) : Agrees whole bound (.rule name) reader Y := by
  constructor
  · intro text rest tokens within skipped ahead unread
    refine .rule_fails ?_
    rw [free]
    exact agrees.fails within skipped ahead unread
  · intro text rest tokens left value within skipped ahead read
    obtain ⟨trees, behind, used, parsed, others⟩ := agrees.takes within skipped ahead read
    rw [← free] at parsed
    have left := Parses.rule parsed
    rw [Rule.leave, if_pos (.inl silent)] at left
    exact ⟨trees, behind, used, left, others⟩

/-! ### Lists -/

def Each (Y : List Tree → α → Prop) (trees : List Tree) : List α → Prop
  | [] => trees = []
  | value :: values => ∃ front back, trees = front ++ back ∧ Y front value ∧ Each Y back values

def NoNode (trees : List Tree) (_ : Unit) : Prop := trees = []

def mark (accepts : Token → Bool) : Reader Unit :=
  single fun token => if accepts token then some () else none

section

variable {bound : Nat} {separator item : Peg} {separates : Token → Bool} {reader : Reader α}
  {Y : List Tree → α → Prop}

theorem more_of_none {tokens : List Token} (unread : both (mark separates) reader tokens = none)
    (steps : Nat) : Reader.more separates reader steps tokens = ([], tokens) := by
  cases steps with
  | zero => rfl
  | succ steps =>
    cases tokens with
    | nil => rfl
    | cons token rest =>
      rw [Reader.more]
      split
      next separator =>
        simp only [both, mark, single, if_pos separator, Option.map_some, Option.bind_some,
          Option.map_eq_none_iff] at unread
        rw [unread]
      next => rfl

theorem exists_of_mark {tokens left : List Token}
    (read : mark separates tokens = some ((), left)) :
    ∃ token, tokens = token :: left ∧ separates token = true := by
  obtain ⟨token, rfl, accepted⟩ := exists_of_single read
  by_cases held : separates token = true
  · exact ⟨token, rfl, held⟩
  · simp [held] at accepted

theorem exists_of_round {tokens left : List Token} {value : α}
    (read : both (mark separates) reader tokens = some (((), value), left)) :
    ∃ token rest, tokens = token :: rest ∧ separates token = true ∧
      reader rest = some (value, left) := by
  obtain ⟨rest, read_separator, read_item⟩ := exists_of_both read
  obtain ⟨token, rfl, separator⟩ := exists_of_mark read_separator
  exact ⟨token, rest, rfl, separator, read_item⟩

theorem more_of_some {tokens left : List Token} {value : α}
    (read : both (mark separates) reader tokens = some (((), value), left)) (steps : Nat) :
    Reader.more separates reader (steps + 1) tokens =
      (value :: (Reader.more separates reader steps left).1,
        (Reader.more separates reader steps left).2) := by
  obtain ⟨token, rest, rfl, separator, read_item⟩ := exists_of_round read
  rw [Reader.more, if_pos separator, read_item]

theorem length_lt_of_round (agrees : Agrees whole bound item reader Y) {text rest : List Char}
    {tokens left : List Token} {value : α} (within : tokens.length ≤ bound)
    (ahead : Ahead text tokens rest)
    (read : both (mark separates) reader tokens = some (((), value), left)) :
    left.length < tokens.length := by
  obtain ⟨token, others, rfl, _, read_item⟩ := exists_of_round read
  cases ahead with
  | @token _ behind _ _ _ _ later =>
    obtain ⟨_, _, used, _, _, split, _, _⟩ := agrees.takes (Nat.le_of_succ_le within)
      (Token.skipBlanks_skipBlanks behind) later.skip read_item
    rw [List.length_cons, split, List.length_append]
    omega

theorem Agrees.further
    (between : Agrees whole bound separator (mark separates) NoNode)
    (agrees : Agrees whole bound item reader Y) {steps : Nat} {text rest : List Char}
    {tokens : List Token} (enough : tokens.length ≤ steps) (within : tokens.length ≤ bound)
    (ahead : Ahead text tokens rest) :
    Takes whole (.further (Peg.sequence [separator, item])) text tokens
      (Reader.more separates reader steps tokens).2 rest fun trees =>
        Each Y trees (Reader.more separates reader steps tokens).1 := by
  have round := between.then agrees
  -- By the steps of the reader: each round takes its separator, so there are enough of them.
  induction steps generalizing text tokens with
  | zero =>
    obtain rfl := List.length_eq_zero_iff.1 (Nat.le_zero.1 enough)
    have fails := round.fails within (Token.skipBlanks_skipBlanks text) ahead.skip rfl
    exact ⟨[], text, [], .further_none (parses_free_gap whole text) fails, ahead, rfl, rfl, rfl⟩
  | succ steps ih =>
    cases read : both (mark separates) reader tokens with
    | none =>
      rw [more_of_none read]
      have fails := round.fails within (Token.skipBlanks_skipBlanks text) ahead.skip read
      exact ⟨[], text, [], .further_none (parses_free_gap whole text) fails, ahead, rfl, rfl, rfl⟩
    | some found =>
      obtain ⟨⟨⟨⟩, value⟩, left⟩ := found
      have shorter := length_lt_of_round agrees within ahead read
      rw [more_of_some read]
      obtain ⟨trees, behind, used, parsed, ahead_behind, split, integers, _, back, rfl, rfl,
        held⟩ := round.takes within (Token.skipBlanks_skipBlanks text) ahead.skip read
      obtain ⟨more, end_text, used_later, parsed_later, ahead_end, split_later, integers_later,
        held_later⟩ := ih (Nat.le_of_lt_succ (shorter.trans_le enough))
          (shorter.le.trans within) ahead_behind
      refine ⟨_, end_text, used ++ used_later,
        .further_some (parses_free_gap whole text) parsed parsed_later, ahead_end, ?_, ?_,
        back, more, rfl, held, held_later⟩
      · rw [List.append_assoc, ← split_later, split]
      · rw [integersOf_append, List.filterMap_append, ← integers_later, ← integers]
        rfl

theorem Parses.star_of_further {e : Peg} {text behind : List Char} {trees : List Tree}
    (skipped : skipBlanks text = text)
    (parsed : Parses whole .free (.further e) text (some (trees, behind))) :
    Parses whole .free (.star e) text (some (trees, behind)) := by
  have no_gap := parses_free_gap whole text
  rw [skipped] at no_gap
  cases parsed with
  | further_none gap fails =>
    cases gap.unique no_gap
    exact .star_none fails
  | further_some gap taken later =>
    cases gap.unique no_gap
    exact .star_some taken later

def rounds (separates : Token → Bool) (reader : Reader α) : Reader (List α) := fun tokens =>
  some (Reader.more separates reader tokens.length tokens)

theorem Agrees.rounds
    (between : Agrees whole bound separator (mark separates) NoNode)
    (agrees : Agrees whole bound item reader Y) :
    Agrees whole bound (.star (Peg.sequence [separator, item])) (rounds separates reader)
      (Each Y) := by
  constructor
  · intro text rest tokens within skipped ahead unread
    simp [Grammar.rounds] at unread
  · intro text rest tokens left values within skipped ahead read
    have taken := between.further agrees (Nat.le_refl _) within ahead
    rw [Option.some.inj read] at taken
    obtain ⟨trees, behind, used, parsed, others⟩ := taken
    exact ⟨trees, behind, used, .star_of_further skipped parsed, others⟩

theorem Agrees.list
    (between : Agrees whole bound separator (mark separates) NoNode)
    (agrees : Agrees whole bound item reader Y) :
    Agrees whole bound (Peg.separated separator item) (Reader.list separates reader) (Each Y) := by
  refine (agrees.then (between.rounds agrees)).map (fun values => values.1 :: values.2) ?_ ?_
  · intro tokens
    cases read : reader tokens <;> simp [Reader.list, both, Grammar.rounds, read]
  · rintro trees values ⟨front, back, rfl, held, later⟩
    exact ⟨front, back, rfl, held, later⟩

theorem Agrees.listOrNone (between : Agrees whole bound separator (mark separates) NoNode)
    (agrees : Agrees whole bound item reader Y) :
    Agrees whole bound (.optional (Peg.separated separator item))
      (fun tokens => some (Reader.listOrNone separates reader tokens)) (Each Y) := by
  refine (between.list agrees).optional.map (fun values => values.getD []) (fun tokens => ?_) ?_
  · rw [maybe, Reader.listOrNone]
    split
    next found => rw [found]; rfl
    next unread => rw [unread]; rfl
  · intro trees values held
    cases values with
    | none => exact held
    | some values => exact held

end

end Grammar

end Lir
