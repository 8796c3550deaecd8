import Lir.Json.Reader
import Lir.Proofs.Source.Spelling

/-!
The tokens of what a JSON value is written as.

A text is written character by character, each as an escape that reads back as the character. A
number has no end of its own, but behind a number stands a mark or nothing. So the tokens of a
written value are scanned first, whatever is scanned from the text behind it.
-/

set_option autoImplicit false

namespace Lir

namespace JsonToken

/-! ### Texts -/

inductive StandsFor : Nat ⊕ Char → Char → Prop where
  | char (c : Char) : StandsFor (.inr c) c
  | unit {c : Char} (control : c.toNat < 0x20) : StandsFor (.inl c.toNat) c

theorem hexUnit?_control {number : Nat} (control : number < 0x20) :
    hexUnit? '0' '0' (number / 16).digitChar (number % 16).digitChar = some number := by
  have all : ∀ number < 0x20,
      hexUnit? '0' '0' (number / 16).digitChar (number % 16).digitChar = some number := by decide
  exact all number control

def withPart (part : Nat ⊕ Char) (read : Option (List (Nat ⊕ Char) × List Char)) :
    Option (List (Nat ⊕ Char) × List Char) :=
  read.map fun read => (part :: read.1, read.2)

theorem textParts?_short {c letter : Char} (short : shortEscape? letter = some c)
    (rest : List Char) :
    textParts? ('\\' :: letter :: rest) = withPart (.inr c) (textParts? rest) := by
  have not_unit : letter ≠ 'u' := by
    rintro rfl
    cases short
  rw [textParts?.eq_4 letter rest fun _ _ _ _ _ is_unit _ => not_unit is_unit, short]
  cases textParts? rest <;> rfl

theorem textParts?_unit {a b c d : Char} {unit : Nat} (read : hexUnit? a b c d = some unit)
    (rest : List Char) :
    textParts? ('\\' :: 'u' :: a :: b :: c :: d :: rest) =
      withPart (.inl unit) (textParts? rest) := by
  rw [textParts?.eq_3, read]
  cases textParts? rest <;> rfl

theorem textParts?_plain {c : Char} (quote : c ≠ '"') (backslash : c ≠ '\\')
    (plain : ¬ c.toNat < 0x20) (rest : List Char) :
    textParts? (c :: rest) = withPart (.inr c) (textParts? rest) := by
  rw [textParts?.eq_5 c rest quote (fun _ _ _ _ _ same _ => backslash same)
    fun _ _ same _ => backslash same, if_neg (not_or.2 ⟨backslash, plain⟩)]
  cases textParts? rest <;> rfl

theorem escape_cases (c : Char) :
    (∃ letter, shortEscape? letter = some c ∧ Json.escape c = ['\\', letter]) ∨
    (c.toNat < 0x20 ∧ Json.escape c =
      ['\\', 'u', '0', '0', (c.toNat / 16).digitChar, (c.toNat % 16).digitChar]) ∨
    (c ≠ '"' ∧ c ≠ '\\' ∧ ¬ c.toNat < 0x20 ∧ Json.escape c = [c]) := by
  by_cases named : c ∈ ['"', '\\', '\x08', '\t', '\n', '\x0c', '\r']
  · refine .inl ?_
    simp only [List.mem_cons, List.not_mem_nil, or_false] at named
    rcases named with rfl | rfl | rfl | rfl | rfl | rfl | rfl <;> exact ⟨_, rfl, rfl⟩
  · simp only [List.mem_cons, List.not_mem_nil, or_false, not_or] at named
    obtain ⟨quote, backslash, back, tab, line, form, carriage⟩ := named
    simp only [Json.escape, quote, backslash, back, tab, line, form, carriage, if_false]
    by_cases control : c.toNat < 0x20
    · exact .inr (.inl ⟨control, if_pos control⟩)
    · exact .inr (.inr ⟨quote, backslash, control, if_neg control⟩)

/-- Each character is read back from its escape, whatever follows. -/
theorem textParts?_escape (c : Char) : ∃ part, StandsFor part c ∧ ∀ rest : List Char,
    textParts? (Json.escape c ++ rest) = withPart part (textParts? rest) := by
  rcases escape_cases c with ⟨letter, short, written⟩ | ⟨control, written⟩ |
    ⟨quote, backslash, plain, written⟩
  · exact ⟨.inr c, .char c, fun rest => written ▸ textParts?_short short rest⟩
  · exact ⟨.inl c.toNat, .unit control,
      fun rest => written ▸ textParts?_unit (hexUnit?_control control) rest⟩
  · exact ⟨.inr c, .char c,
      fun rest => written ▸ textParts?_plain quote backslash plain rest⟩

theorem joinParts?_cons {part : Nat ⊕ Char} {c : Char} (stands : StandsFor part c)
    (parts : List (Nat ⊕ Char)) :
    joinParts? (part :: parts) = (joinParts? parts).map (c :: ·) := by
  cases stands with
  | char => rfl
  | unit control =>
    -- A control character is no half of a pair, so what follows it is read on its own.
    have not_high : isHighSurrogate c.toNat = false := by
      simp only [isHighSurrogate, Bool.and_eq_false_iff, decide_eq_false_iff_not]
      omega
    have not_low : isLowSurrogate c.toNat = false := by
      simp only [isLowSurrogate, Bool.and_eq_false_iff, decide_eq_false_iff_not]
      omega
    rcases parts with _ | ⟨next | next, later⟩ <;>
      simp [joinParts?, not_high, not_low, Char.ofNat_toNat]

theorem textParts?_quoted (text rest : List Char) : ∃ parts,
    textParts? (text.flatMap Json.escape ++ '"' :: rest) = some (parts, rest) ∧
      joinParts? parts = some text := by
  induction text with
  | nil => exact ⟨[], rfl, rfl⟩
  | cons c text ih =>
    obtain ⟨parts, read, joined⟩ := ih
    obtain ⟨part, stands, escaped⟩ := textParts?_escape c
    refine ⟨part :: parts, ?_, ?_⟩
    · rw [List.flatMap_cons, List.append_assoc, escaped, read]
      rfl
    · rw [joinParts?_cons stands, joined]
      rfl

/-! ### Numbers -/

inductive Ends : List Char → Prop where
  | nil : Ends []
  | mark {c : Char} (rest : List Char) (ends : c = ',' ∨ c = ']' ∨ c = '\x7d') :
    Ends (c :: rest)

theorem exists_toDigits_eq_cons (n : Nat) :
    ∃ c digits, Nat.toDigits 10 n = c :: digits ∧ c.isDigit = true := by
  obtain ⟨c, digits, written⟩ := List.exists_cons_of_ne_nil (@Nat.toDigits_ne_nil n 10)
  exact ⟨c, digits, written,
    Nat.isDigit_of_mem_toDigits (by decide) (by decide) (written ▸ List.mem_cons_self)⟩

theorem head?_toDigits {n : Nat} (positive : 0 < n) : (Nat.toDigits 10 n).head? ≠ some '0' := by
  induction n using Nat.strong_induction_on with
  | _ n ih =>
    rcases Nat.lt_or_ge n 10 with small | large
    · have all : ∀ n < 10, 0 < n → (Nat.toDigits 10 n).head? ≠ some '0' := by decide
      exact all n small positive
    · -- Without its last digit the number still starts with the same one.
      have shorter := ih (n / 10) (by omega) (by omega)
      rw [Nat.toDigits_of_base_le (by decide) large,
        List.head?_append_of_ne_nil _ Nat.toDigits_ne_nil]
      exact shorter

theorem fraction?_ends {rest : List Char} (ends : Ends rest) :
    fraction? rest = some (false, rest) := by
  rcases ends with _ | ⟨rest, rfl | rfl | rfl⟩ <;> rfl

theorem exponent?_ends {rest : List Char} (ends : Ends rest) :
    exponent? rest = some (false, rest) := by
  rcases ends with _ | ⟨rest, rfl | rfl | rfl⟩ <;> rfl

theorem dropWhile_isDigit_ends {rest : List Char} (ends : Ends rest) :
    rest.dropWhile Char.isDigit = rest := by
  rcases ends with _ | ⟨rest, rfl | rfl | rfl⟩ <;> rfl

theorem takeWhile_isDigit_ends {rest : List Char} (ends : Ends rest) :
    rest.takeWhile Char.isDigit = [] := by
  rcases ends with _ | ⟨rest, rfl | rfl | rfl⟩ <;> rfl

/-- The digits of a number are read as the number; zero with a sign is no integer. -/
theorem number?_toDigits (negative : Bool) (n : Nat) {rest : List Char} (ends : Ends rest) :
    number? negative (Nat.toDigits 10 n ++ rest) =
      some (if negative && n = 0 then .fraction else .integer (if negative then -n else n),
        rest) := by
  have digits : ∀ c ∈ Nat.toDigits 10 n, c.isDigit = true :=
    fun c member => Nat.isDigit_of_mem_toDigits (by decide) (by decide) member
  have taken : (Nat.toDigits 10 n ++ rest).takeWhile Char.isDigit = Nat.toDigits 10 n := by
    rw [List.takeWhile_append_of_pos digits, takeWhile_isDigit_ends ends, List.append_nil]
  have left : (Nat.toDigits 10 n ++ rest).dropWhile Char.isDigit = rest := by
    rw [List.dropWhile_append_of_pos digits, dropWhile_isDigit_ends ends]
  have leading : Nat.toDigits 10 n ≠ [] ∧
      ((Nat.toDigits 10 n).head? ≠ some '0' ∨ Nat.toDigits 10 n = ['0']) := by
    refine ⟨Nat.toDigits_ne_nil, ?_⟩
    rcases Nat.eq_zero_or_pos n with rfl | positive
    · exact .inr rfl
    · exact .inl (head?_toDigits positive)
  rw [number?]
  dsimp only
  rw [taken, left, guard, if_pos leading, fraction?_ends ends, Nat.ofDigitChars_ten_toDigits]
  simp [exponent?_ends ends]

/-! ### The first token of a text -/

theorem first?_quote (text : String) (rest : List Char) :
    first? ((Json.quote text).toList ++ rest) = some (.leaf (.text (some text)), rest) := by
  obtain ⟨parts, read, joined⟩ := textParts?_quoted text.toList rest
  simp [Json.quote, first?, read, joined]

theorem first?_digit {c : Char} (digit : c.isDigit = true) (text : List Char) :
    first? (c :: text) = (number? false (c :: text)).map fun read => (.leaf read.1, read.2) := by
  rw [first?.eq_12]
  · cases number? false (c :: text) <;> rfl
  all_goals
    rintro rest same
    cases same
    exact absurd digit (by decide)

theorem first?_minus (text : List Char) :
    first? ('-' :: text) = (number? true text).map fun read => (.leaf read.1, read.2) := by
  rw [first?]
  cases number? true text <;> rfl

theorem first?_integer (value : Int) {rest : List Char} (ends : Ends rest) :
    first? ((toString value).toList ++ rest) = some (.leaf (.integer value), rest) := by
  rw [toList_toString_int]
  by_cases negative : value < 0
  · have not_zero : value.natAbs ≠ 0 := by omega
    have value_eq : -(value.natAbs : Int) = value := by omega
    rw [if_pos negative, List.cons_append, first?_minus, number?_toDigits true _ ends]
    simp only [not_zero, decide_false, Bool.and_false, Bool.false_eq_true, if_false, if_true,
      value_eq, Option.map_some]
  · have value_eq : (value.natAbs : Int) = value := by omega
    rw [if_neg negative]
    have read := number?_toDigits false value.natAbs ends
    obtain ⟨c, digits, written, digit⟩ := exists_toDigits_eq_cons value.natAbs
    rw [written, List.cons_append] at read ⊢
    rw [first?_digit digit, read]
    simp only [Bool.false_and, Bool.false_eq_true, if_false, value_eq, Option.map_some]

/-! ### All tokens of a text -/

/-- A text without spaces that consists of the given tokens, one after the other. -/
inductive Scans : List Char → List JsonToken → Prop where
  | nil : Scans [] []
  | cons {c : Char} {text rest : List Char} {token : JsonToken} {tokens : List JsonToken}
      (first : first? (c :: text) = some (token, rest)) (filled : isSpace c = false)
      (shorter : rest.length ≤ text.length) (later : Scans rest tokens) :
      Scans (c :: text) (token :: tokens)

theorem isSpace_of_isDigit {c : Char} (digit : c.isDigit = true) : isSpace c = false := by
  rw [Bool.eq_false_iff]
  intro space
  simp only [isSpace, Bool.or_eq_true, decide_eq_true_eq] at space
  rcases space with ((rfl | rfl) | rfl) | rfl <;> exact absurd digit (by decide)

theorem Scans.scanSteps {text : List Char} {tokens : List JsonToken} (scans : Scans text tokens)
    {steps : Nat} (enough : text.length ≤ steps) : scanSteps steps text = some tokens := by
  induction scans generalizing steps with
  | nil => cases steps <;> rfl
  | @cons c text rest token tokens first filled shorter later ih =>
    rw [List.length_cons] at enough
    obtain ⟨steps, rfl⟩ : ∃ fewer, steps = fewer + 1 := ⟨steps - 1, by omega⟩
    have later_enough : rest.length ≤ steps := by omega
    simp [JsonToken.scanSteps, filled, first, ih later_enough]

theorem Scans.prepend {written rest : List Char} {token : JsonToken} {tokens : List JsonToken}
    (later : Scans rest tokens) (first : first? (written ++ rest) = some (token, rest))
    (filled : ∃ c tail, written = c :: tail ∧ isSpace c = false) :
    Scans (written ++ rest) (token :: tokens) := by
  obtain ⟨c, tail, rfl, filled⟩ := filled
  have shorter : rest.length ≤ (tail ++ rest).length := by
    rw [List.length_append]
    omega
  exact .cons first filled shorter later

end JsonToken

namespace Json

open JsonToken

/-! ### The tokens of a value -/

mutual
def tokens : Json → List JsonToken
  | .null => [.leaf .null]
  | .bool value => [.leaf (.bool value)]
  | .integer value => [.leaf (.integer value)]
  | .fraction => [.leaf .fraction]
  | .text value => [.leaf (.text value)]
  | .array items =>
    .openBracket :: (List.intercalate [.comma] (itemTokens items) ++ [.closeBracket])
  | .object members =>
    .openBrace :: (List.intercalate [.comma] (memberTokens members) ++ [.closeBrace])

def itemTokens : List Json → List (List JsonToken)
  | [] => []
  | item :: rest => item.tokens :: itemTokens rest

def memberTokens : List (Option String × Json) → List (List JsonToken)
  | [] => []
  | (name, value) :: rest => (.leaf (.text name) :: .colon :: value.tokens) :: memberTokens rest
end

variable {rest : List Char} {later : List JsonToken}

theorem scans_text (value : Option String) (scans : Scans rest later) :
    Scans ((render (.text value)).toList ++ rest) (.leaf (.text value) :: later) := by
  cases value with
  | none => exact scans.prepend rfl ⟨_, _, rfl, rfl⟩
  | some value =>
    have written : (quote value).toList = '"' :: (value.toList.flatMap escape ++ ['"']) :=
      String.toList_ofList
    exact scans.prepend (first?_quote value rest) ⟨_, _, written, rfl⟩

theorem scans_integer (value : Int) (ends : Ends rest) (scans : Scans rest later) :
    Scans ((render (.integer value)).toList ++ rest) (.leaf (.integer value) :: later) := by
  rw [render]
  refine scans.prepend (first?_integer value ends) ?_
  rw [toList_toString_int]
  split
  · exact ⟨_, _, rfl, rfl⟩
  · obtain ⟨c, digits, written, digit⟩ := exists_toDigits_eq_cons value.natAbs
    exact ⟨c, digits, written, isSpace_of_isDigit digit⟩

theorem scans_fraction (ends : Ends rest) (scans : Scans rest later) :
    Scans ((render .fraction).toList ++ rest) (.leaf .fraction :: later) := by
  have first : first? ('-' :: '0' :: rest) = some (.leaf .fraction, rest) := by
    rw [first?_minus]
    exact congrArg _ (number?_toDigits true 0 ends)
  exact scans.prepend first ⟨_, _, rfl, rfl⟩

theorem renderMembers_cons (name : Option String) (value : Json)
    (members : List (Option String × Json)) :
    renderMembers ((name, value) :: members) =
      (render (.text name) ++ ":" ++ value.render) :: renderMembers members := by
  cases name <;> rfl

theorem scans_member (name : Option String) {value : Json}
    (scans : Scans (value.render.toList ++ rest) (value.tokens ++ later)) :
    Scans ((render (.text name) ++ ":" ++ value.render).toList ++ rest)
      (.leaf (.text name) :: .colon :: value.tokens ++ later) := by
  have named := scans_text name (@Scans.prepend [':'] _ .colon _ scans rfl ⟨_, _, rfl, rfl⟩)
  simpa using named

mutual
theorem scans_render (value : Json) {rest : List Char} {later : List JsonToken} (ends : Ends rest)
    (scans : Scans rest later) : Scans (value.render.toList ++ rest) (value.tokens ++ later) := by
  cases value with
  | null => exact scans.prepend rfl ⟨_, _, rfl, rfl⟩
  | bool value => cases value <;> exact scans.prepend rfl ⟨_, _, rfl, rfl⟩
  | integer value => exact scans_integer value ends scans
  | fraction => exact scans_fraction ends scans
  | text value => exact scans_text value scans
  | array items =>
    have closed : Scans (']' :: rest) (.closeBracket :: later) :=
      @Scans.prepend [']'] _ _ _ scans rfl ⟨_, _, rfl, rfl⟩
    have inner := scans_renderItems items (.mark rest (.inr (.inl rfl))) closed
    have opened := @Scans.prepend ['['] _ .openBracket _ inner rfl ⟨_, _, rfl, rfl⟩
    simpa [render, tokens] using opened
  | object members =>
    have closed : Scans ('\x7d' :: rest) (.closeBrace :: later) :=
      @Scans.prepend ['\x7d'] _ _ _ scans rfl ⟨_, _, rfl, rfl⟩
    have inner := scans_renderMembers members (.mark rest (.inr (.inr rfl))) closed
    have opened := @Scans.prepend ['\x7b'] _ .openBrace _ inner rfl ⟨_, _, rfl, rfl⟩
    simpa [render, tokens] using opened

theorem scans_renderItems (items : List Json) {rest : List Char} {later : List JsonToken}
    (ends : Ends rest) (scans : Scans rest later) :
    Scans ((",".intercalate (renderItems items)).toList ++ rest)
      (List.intercalate [.comma] (itemTokens items) ++ later) := by
  match items with
  | [] => exact scans
  | [item] => simpa [renderItems, itemTokens] using scans_render item ends scans
  | item :: next :: items =>
    have following := scans_renderItems (next :: items) ends scans
    have separated := @Scans.prepend [','] _ .comma _ following rfl ⟨_, _, rfl, rfl⟩
    -- Behind an item that is not the last one stands a comma, which ends a number.
    have first := scans_render item (.mark _ (.inl rfl)) separated
    simpa [renderItems, itemTokens, String.intercalate_cons_cons,
      List.intercalate_cons_cons] using first

theorem scans_renderMembers (members : List (Option String × Json)) {rest : List Char}
    {later : List JsonToken} (ends : Ends rest) (scans : Scans rest later) :
    Scans ((",".intercalate (renderMembers members)).toList ++ rest)
      (List.intercalate [.comma] (memberTokens members) ++ later) := by
  match members with
  | [] => exact scans
  | [(name, value)] =>
    have only := scans_member name (scans_render value ends scans)
    rw [renderMembers_cons]
    simpa [renderMembers, memberTokens] using only
  | (name, value) :: (other, next) :: members =>
    have following := scans_renderMembers ((other, next) :: members) ends scans
    have separated := @Scans.prepend [','] _ .comma _ following rfl ⟨_, _, rfl, rfl⟩
    have first := scans_member name (scans_render value (.mark _ (.inl rfl)) separated)
    rw [renderMembers_cons] at first
    rw [renderMembers_cons, renderMembers_cons]
    simpa [memberTokens, String.intercalate_cons_cons, List.intercalate_cons_cons] using first
end

theorem scan_render (value : Json) : scan value.render.toList = some value.tokens := by
  have scans := scans_render value .nil .nil
  rw [List.append_nil, List.append_nil] at scans
  exact scans.scanSteps (Nat.le_refl _)

end Json

end Lir
