import Lir.Proofs.Grammar.Agreement
import Lir.Proofs.Source.Writable

/-!
Words, names, operands and marks of the grammar agree with readers of single tokens.

The walk over a tree is compared with the value of a reader, which is told first whether all
integers of the tree fit: the walk fails at the first that does not.
-/

set_option autoImplicit false

namespace Lir

namespace Grammar

open Token (First)

/-! ### Integers that fit -/

/-- Fails at the first integer that does not fit. -/
def inRange (literals : List String) : Walk Unit :=
  match literals.find? fun literal => (parseWord? literal).isNone with
  | some literal => .error (.integer literal)
  | none => .ok ()

theorem inRange_nil : inRange [] = pure () := rfl

theorem inRange_append (literals more : List String) :
    inRange (literals ++ more) = inRange literals >>= fun _ => inRange more := by
  rw [inRange, List.find?_append, inRange]
  cases literals.find? fun literal => (parseWord? literal).isNone <;> rfl

theorem splitSign_of_isDigit {c : Char} (digit : c.isDigit = true) (rest : List Char) :
    splitSign (c :: rest) = (false, c :: rest) := by
  rw [splitSign.eq_def]
  split
  next same => exact absurd (List.cons.inj same).1 (Token.ne_of_class digit _ (by decide))
  next same => exact absurd (List.cons.inj same).1 (Token.ne_of_class digit _ (by decide))
  next => rfl

theorem parseWord?_numberText (negative : Bool) {digits : List Char} (some_digit : digits ≠ [])
    (all_digits : digits.all Char.isDigit = true) :
    parseWord? (Token.numberText negative digits) =
      if Token.fitsWord (Token.numberValue negative digits) then
        some (.ofInt (Token.numberValue negative digits))
      else none := by
  have signed : splitSign (Token.numberText negative digits).toList = (negative, digits) := by
    obtain ⟨c, rest, rfl⟩ := List.exists_cons_of_ne_nil some_digit
    have digit := (List.forall_mem_cons.1 (List.all_eq_true.1 all_digits)).1
    cases negative with
    | true => simp [Token.numberText, splitSign]
    | false => simp [Token.numberText, splitSign_of_isDigit digit]
  rw [parseWord?, signed]
  simp only [some_digit, all_digits, ne_eq, not_false_eq_true, true_and]

variable {α : Type} {whole : List Char}

/-- The walk over the node of a rule gives the value if all integers fit. -/
def Walks (name : Rule) (walk : Tree → Walk α) (trees : List Tree) (value : α) : Prop :=
  ∃ tree, trees = [tree] ∧ tree.rule = name ∧
    walk tree = (do inRange tree.integers; return value)

def WalksTo (walk : Tree → Walk α) (trees : List Tree) (value : α) : Prop :=
  ∃ tree, trees = [tree] ∧ walk tree = (do inRange tree.integers; return value)

theorem Agrees.walksTo {bound : Nat} {e : Peg} {name : Rule} {reader : Reader α}
    {walk : Tree → Walk α} (agrees : Agrees whole bound e reader (Walks name walk)) :
    Agrees whole bound e reader (WalksTo walk) := by
  refine agrees.imp ?_
  rintro trees value ⟨tree, rfl, _, walked⟩
  exact ⟨tree, rfl, walked⟩

def WalksWithin (name : Rule) (walk : Tree → Walk α) (trees : List Tree) (value : α) : Prop :=
  ∀ start stop, walk (.node name start stop trees) =
    (do inRange (Tree.integersOf trees); return value)

theorem Agrees.node {bound : Nat} (name : Rule) {reader : Reader α} {walk : Tree → Walk α}
    (agrees : Agrees whole bound name.body reader (WalksWithin name walk))
    (loud : name.silent = false) (free : name.spacing .free = .free) :
    Agrees whole bound (.rule name) reader (Walks name walk) := by
  refine (agrees.rule name loud free).map id (fun tokens => ?_) ?_
  · cases reader tokens <;> rfl
  · rintro trees value ⟨start, stop, children, rfl, walked⟩
    have not_int : name ≠ .int := by
      rintro rfl
      cases free
    exact ⟨_, rfl, rfl, by rw [walked, integers_node not_int, id]⟩

theorem mapM_each {name : Rule} {walk : Tree → Walk α} {trees : List Tree} {values : List α}
    (held : Each (Walks name walk) trees values) :
    trees.mapM walk = (do inRange (Tree.integersOf trees); return values) := by
  induction values generalizing trees with
  | nil =>
    obtain rfl := held
    rfl
  | cons value values ih =>
    obtain ⟨front, back, rfl, ⟨tree, rfl, kind, walked⟩, later⟩ := held
    simp [walked, ih later, Tree.integersOf, inRange_append]

theorem rule_of_each {name : Rule} {walk : Tree → Walk α} {trees : List Tree} {values : List α}
    (held : Each (Walks name walk) trees values) : ∀ tree ∈ trees, tree.rule = name := by
  induction values generalizing trees with
  | nil =>
    obtain rfl := held
    exact fun _ member => absurd member List.not_mem_nil
  | cons value values ih =>
    obtain ⟨front, back, rfl, ⟨tree, rfl, kind, _⟩, later⟩ := held
    exact List.forall_mem_cons.2 ⟨kind, ih later⟩

/-! ### Marks -/

theorem agrees_mark (letters : String) {written : Punct}
    (spelled : First letters.toList (.punct written) []) (bound : Nat) :
    Agrees whole bound (.text letters) (mark fun token => token = .punct written) NoNode := by
  refine Agrees.token (fun {text rest token value} first accepted => ?_) (fun {text} other => ?_)
    bound
  · split at accepted
    next same =>
      rw [of_decide_eq_true same] at first ⊢
      exact ⟨[], mark_takes spelled first, rfl, rfl⟩
    next => simp at accepted
  · refine mark_fails spelled fun rest first => ?_
    simpa using other _ rest first

theorem agrees_comma (bound : Nat) : Agrees whole bound (.text ",") (mark Reader.isComma) NoNode :=
  agrees_mark "," (.punct rfl []) bound

theorem agrees_separator (bound : Nat) :
    Agrees whole bound (.rule .separator) (mark Reader.isSeparator) NoNode := by
  refine Agrees.silent .separator ?_ rfl rfl
  refine ((agrees_mark ";" (.punct rfl []) bound).or
    (agrees_mark "," (.punct rfl []) bound)).map id (fun tokens => ?_) fun _ _ held => held
  cases tokens with
  | nil => rfl
  | cons token rest =>
    simp only [mark, single, either, Reader.isSeparator, Bool.or_eq_true]
    by_cases first : token = .punct .semicolon <;> by_cases second : token = .punct .comma <;>
      simp [first, second]

/-! ### Words, names and integers -/

theorem between_of_first {start stop : List Char} {token : Token}
    (first : First start token stop) : Tree.between start stop = .ofList token.lexeme := by
  rw [first.eq_append, Tree.between, List.length_append, Nat.add_sub_cancel, List.take_left' rfl]

def Leaf (name : Rule) (accept : Token → Option α) (trees : List Tree) (value : α) : Prop :=
  ∃ start stop token, trees = [.node name start stop []] ∧ First start token stop ∧
    accept token = some value

theorem Agrees.leaf {name : Rule} {accept : Token → Option α}
    (tight : name.spacing .free = .tight) (loud : name.silent = false)
    (takes : ∀ {text rest : List Char} {token : Token} {value : α}, First text token rest →
      accept token = some value → Parses whole .tight name.body text (some ([], rest)))
    (fails : ∀ {text : List Char}, (∀ token rest, First text token rest → accept token = none) →
      Parses whole .tight name.body text none)
    (integers : ∀ {start stop : List Char} {token : Token} {value : α}, First start token stop →
      accept token = some value →
        (Tree.node name start stop []).integers = (literal? token).toList)
    (bound : Nat) : Agrees whole bound (.rule name) (single accept) (Leaf name accept) := by
  refine Agrees.token (fun {text rest token value} first accepted => ?_) (fun {text} other => ?_)
    bound
  · have parsed := takes first accepted
    rw [← tight] at parsed
    have left := Parses.rule parsed
    rw [Rule.leave, if_neg (by simp [loud])] at left
    refine ⟨_, left, ?_, text, rest, token, rfl, first, accepted⟩
    rw [Tree.integersOf, Tree.integersOf, List.append_nil, integers first accepted]
  · refine .rule_fails ?_
    rw [tight]
    exact fails other

def wordAmong (words : List String) (token : Token) : Option String :=
  words.find? fun word => wordToken? word = some token

theorem wordToken?_of_wordAmong {words : List String} {token : Token} {word : String}
    (found : wordAmong words token = some word) : wordToken? word = some token := by
  rw [wordAmong] at found
  simpa using List.find?_some found

theorem agrees_word {name : Rule} {words : List String} (body : name.body = Peg.word words)
    (alternatives : Alternatives words) (tight : name.spacing .free = .tight)
    (loud : name.silent = false) (not_int : name ≠ .int) (bound : Nat) :
    Agrees whole bound (.rule name) (single (wordAmong words)) (Leaf name (wordAmong words)) := by
  refine Agrees.leaf tight loud (fun {text rest token word} first found => ?_)
    (fun {text} other => ?_) (fun {start stop token word} first found => ?_) bound
  · rw [body]
    exact alternatives.takes (List.mem_of_find?_eq_some found) (wordToken?_of_wordAmong found) first
  · rw [body]
    refine alternatives.fails fun word member token rest first same => ?_
    have absent := List.find?_eq_none.1 (other token rest first) word member
    exact absent (decide_eq_true same)
  · rw [integers_node not_int]
    rcases (first_of_wordToken? (wordToken?_of_wordAmong found)).2 with ⟨_, rfl⟩ | ⟨_, rfl⟩ <;> rfl

theorem between_of_wordToken? {start stop : List Char} {token : Token} {word : String}
    (first : First start token stop) (named : wordToken? word = some token) :
    Tree.between start stop = word := by
  have alone := (first_of_wordToken? named).1.eq_append
  rw [between_of_first first, ← String.toList_inj, String.toList_ofList, alone, List.append_nil]

def nameOf : Token → Option String
  | .ident name => some name
  | _ => none

theorem agrees_ident (bound : Nat) :
    Agrees whole bound (.rule .ident) Reader.ident (Leaf .ident nameOf) := by
  have agrees : Agrees whole bound (.rule .ident) (single nameOf) (Leaf .ident nameOf) := by
    refine Agrees.leaf rfl rfl (fun {text rest token name} first found => ?_)
      (fun {text} other => ?_) (fun {start stop token name} first found => ?_) bound
    · cases token with
      | ident name => exact ident_takes first
      | _ => simp [nameOf] at found
    · exact ident_fails fun name rest first => by simpa [nameOf] using other _ rest first
    · cases token with
      | ident name => rfl
      | _ => simp [nameOf] at found
  refine agrees.map id (fun tokens => ?_) fun _ _ held => held
  rcases tokens with _ | ⟨⟨name⟩ | _ | _ | _, rest⟩ <;> rfl

theorem between_of_nameOf {start stop : List Char} {token : Token} {name : String}
    (first : First start token stop) (found : nameOf token = some name) :
    Tree.between start stop = name := by
  cases token with
  | ident name =>
    rw [between_of_first first, ← Option.some.inj found]
    exact String.ofList_toList
  | _ => simp [nameOf] at found

def Named (name : Rule) (trees : List Tree) (word : String) : Prop :=
  ∃ tree, trees = [tree] ∧ tree.rule = name ∧ tree.text = word ∧ tree.integers = []

theorem agrees_name (bound : Nat) :
    Agrees whole bound (.rule .ident) Reader.ident (Named .ident) := by
  refine (agrees_ident bound).map id (fun tokens => ?_) ?_
  · cases Reader.ident tokens <;> rfl
  · rintro trees name ⟨start, stop, token, rfl, first, found⟩
    exact ⟨_, rfl, rfl, between_of_nameOf first found, rfl⟩

theorem eq_of_ident {tokens left : List Token} {name : String}
    (read : Reader.ident tokens = some (name, left)) : tokens = .ident name :: left := by
  rw [Reader.ident.eq_def] at read
  split at read
  next => obtain ⟨rfl, rfl⟩ := Prod.mk.inj (Option.some.inj read); rfl
  next => simp at read

def Marking (name : Rule) (trees : List Tree) (_ : Unit) : Prop :=
  ∃ tree, trees = [tree] ∧ tree.rule = name ∧ tree.integers = []

theorem wordAmong_singleton {word : String} {token : Token} (named : wordToken? word = some token)
    (other : Token) : wordAmong [word] other = if token = other then some word else none := by
  simp [wordAmong, named, List.find?_singleton]

theorem agrees_marking {name : Rule} {word : String} {token : Token}
    (body : name.body = Peg.word [word]) (named : wordToken? word = some token)
    (tight : name.spacing .free = .tight) (loud : name.silent = false) (not_int : name ≠ .int)
    (bound : Nat) :
    Agrees whole bound (.rule name) (mark fun other => other = token) (Marking name) := by
  have alternatives : Alternatives [word] :=
    ⟨List.forall_mem_singleton.2 (by simp [named]), List.pairwise_singleton _ _⟩
  refine (agrees_word body alternatives tight loud not_int bound).map (fun _ => ())
    (fun tokens => ?_) ?_
  · cases tokens with
    | nil => rfl
    | cons other rest =>
      by_cases same : other = token <;>
        simp [mark, single, wordAmong_singleton named, same, Ne.symm]
  · rintro trees _ ⟨start, stop, _, rfl, _, _⟩
    exact ⟨_, rfl, rfl, integers_node not_int _ _ _⟩

theorem agrees_keyword (word : Keyword) (bound : Nat) :
    Agrees whole bound (.rule (.keyword word)) (mark fun token => token = .ident word.text)
      (Marking (.keyword word)) :=
  agrees_marking rfl (by cases word <;> decide) rfl rfl (by simp) bound

theorem agrees_opcode (word : Opcode) {name : String}
    (named : wordToken? word.text = some (.opcode name)) (bound : Nat) :
    Agrees whole bound (.rule (.opcode word)) (mark fun token => token = .opcode name)
      (Marking (.opcode word)) :=
  agrees_marking rfl named rfl rfl (by simp) bound

def numberOf : Token → Option (Bool × List Char)
  | .number negative digits => some (negative, digits)
  | _ => none

theorem agrees_int (bound : Nat) :
    Agrees whole bound (.rule .int) (single numberOf) (Leaf .int numberOf) := by
  refine Agrees.leaf rfl rfl (fun {text rest token number} first found => ?_)
    (fun {text} other => ?_) (fun {start stop token number} first found => ?_) bound
  · cases token with
    | number negative digits => exact int_takes first
    | _ => simp [numberOf] at found
  · exact int_fails fun negative digits rest first => by simpa [numberOf] using other _ rest first
  · cases token with
    | number negative digits =>
      rw [Tree.integers, between_of_first first]
      cases negative <;> rfl
    | _ => simp [numberOf] at found

/-! ### Operands -/

theorem inRange_number (negative : Bool) {digits : List Char} (some_digit : digits ≠ [])
    (all_digits : digits.all Char.isDigit = true) :
    inRange [Token.numberText negative digits] =
      if Token.fitsWord (Token.numberValue negative digits) then pure ()
      else throw (.integer (Token.numberText negative digits)) := by
  rw [inRange, List.find?_singleton, parseWord?_numberText negative some_digit all_digits]
  by_cases fits : Token.fitsWord (Token.numberValue negative digits) = true
  · simp only [if_pos fits]
    rfl
  · simp only [if_neg fits]
    rfl

theorem agrees_constant (input : String) (bound : Nat) :
    Agrees whole bound (.rule .int)
      (fun tokens => (single numberOf tokens).map fun read =>
        (Operand.const (.ofInt (Token.numberValue read.1.1 read.1.2)), read.2))
      (WalksWithin .operand (Walk.operand input)) := by
  refine (agrees_int bound).map
    (fun number => .const (.ofInt (Token.numberValue number.1 number.2))) (fun _ => rfl) ?_
  rintro trees number ⟨start, stop, token, rfl, first, found⟩ before behind
  cases token with
  | number negative digits =>
    obtain ⟨some_digit, all_digits⟩ := first.digits
    -- The node is the number as written, so it is checked as the token is.
    have literal : Tree.between start stop = Token.numberText negative digits := by
      rw [between_of_first first]
      cases negative <;> rfl
    have integers : Tree.integersOf [.node .int start stop []] =
        [Token.numberText negative digits] := by
      rw [Tree.integersOf, Tree.integers, literal]
      rfl
    rw [← Option.some.inj found, integers, inRange_number negative some_digit all_digits]
    simp only [Walk.operand, Walk.next_cons, Tree.children_node, Tree.rule_node, Tree.text_node,
      literal, parseWord?_numberText negative some_digit all_digits, pure_bind]
    by_cases fits : Token.fitsWord (Token.numberValue negative digits) = true
    · simp only [if_pos fits]
      rfl
    · simp only [if_neg fits]
      rfl
  | _ => simp [numberOf] at found

theorem agrees_operand (input : String) (bound : Nat) :
    Agrees whole bound (.rule .operand) Reader.operand
      (Walks .operand (Walk.operand input)) := by
  refine Agrees.node .operand ?_ rfl rfl
  have ident : Agrees whole bound (.rule .ident)
      (fun tokens => (Reader.ident tokens).map fun read => (Operand.var read.1, read.2))
      (WalksWithin .operand (Walk.operand input)) := by
    refine (agrees_name bound).map Operand.var (fun _ => rfl) ?_
    rintro trees name ⟨tree, rfl, kind, text, no_integer⟩ before behind
    simp [Walk.operand, kind, text, Tree.integersOf, no_integer, inRange_nil]
  refine ((agrees_constant input bound).or ident).map id (fun tokens => ?_) fun _ _ held => held
  rcases tokens with _ | ⟨⟨name⟩ | _ | _ | _, rest⟩ <;> rfl

end Grammar

end Lir
