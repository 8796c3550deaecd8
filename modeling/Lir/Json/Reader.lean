import Lir.Json.Value

/-!
Reading JSON text: first its tokens, then the value they form.

`Json.parse` accepts exactly the texts of the JSON grammar. It does not ask whether texts denote
strings or numbers fit anywhere; that is settled where a value is used.
-/

set_option autoImplicit false

namespace Lir

inductive JsonToken where
  | openBrace
  | closeBrace
  | openBracket
  | closeBracket
  | colon
  | comma
  | leaf (value : Json)

namespace JsonToken

def hexDigit? (c : Char) : Option Nat :=
  if '0' ≤ c ∧ c ≤ '9' then some (c.toNat - '0'.toNat)
  else if 'a' ≤ c ∧ c ≤ 'f' then some (c.toNat - 'a'.toNat + 10)
  else if 'A' ≤ c ∧ c ≤ 'F' then some (c.toNat - 'A'.toNat + 10)
  else none

def hexUnit? (a b c d : Char) : Option Nat := do
  let a ← hexDigit? a
  let b ← hexDigit? b
  let c ← hexDigit? c
  let d ← hexDigit? d
  some (((a * 16 + b) * 16 + c) * 16 + d)

def shortEscape? : Char → Option Char
  | '"' => some '"'
  | '\\' => some '\\'
  | '/' => some '/'
  | 'b' => some '\x08'
  | 'f' => some '\x0c'
  | 'n' => some '\n'
  | 'r' => some '\r'
  | 't' => some '\t'
  | _ => none

/-- The parts of a text after its opening quote: 16-bit units written as escapes, and other
characters; then what follows the closing quote. -/
def textParts? : List Char → Option (List (Nat ⊕ Char) × List Char)
  | [] => none
  | '"' :: rest => some ([], rest)
  | '\\' :: 'u' :: a :: b :: c :: d :: rest => do
    let unit ← hexUnit? a b c d
    let (parts, rest) ← textParts? rest
    some (.inl unit :: parts, rest)
  | '\\' :: c :: rest => do
    let c ← shortEscape? c
    let (parts, rest) ← textParts? rest
    some (.inr c :: parts, rest)
  | c :: rest =>
    if c = '\\' ∨ c.toNat < 0x20 then none
    else do
      let (parts, rest) ← textParts? rest
      some (.inr c :: parts, rest)

def isHighSurrogate (unit : Nat) : Bool := 0xD800 ≤ unit && unit ≤ 0xDBFF

def isLowSurrogate (unit : Nat) : Bool := 0xDC00 ≤ unit && unit ≤ 0xDFFF

/-- The characters that the parts denote, if every surrogate has its partner beside it. -/
def joinParts? : List (Nat ⊕ Char) → Option (List Char)
  | [] => some []
  | .inr c :: rest => (joinParts? rest).map (c :: ·)
  | .inl high :: .inl low :: rest =>
    -- Two escapes make one character if they are a high and a low surrogate, in this order.
    if isHighSurrogate high then
      if isLowSurrogate low then
        (joinParts? rest).map
          (.ofNat (0x10000 + (high - 0xD800) * 0x400 + (low - 0xDC00)) :: ·)
      else none
    else if isLowSurrogate high then none
    else (joinParts? (.inl low :: rest)).map (.ofNat high :: ·)
  | .inl unit :: rest =>
    if isHighSurrogate unit || isLowSurrogate unit then none
    else (joinParts? rest).map (.ofNat unit :: ·)

def someDigits? (text : List Char) : Option (List Char) :=
  match text with
  | c :: rest => if c.isDigit then some (rest.dropWhile Char.isDigit) else none
  | [] => none

def fraction? : List Char → Option (Bool × List Char)
  | '.' :: rest => (someDigits? rest).map (true, ·)
  | rest => some (false, rest)

def exponent? : List Char → Option (Bool × List Char)
  | c :: rest =>
    if c = 'e' ∨ c = 'E' then
      match rest with
      | sign :: digits =>
        if sign = '+' ∨ sign = '-' then (someDigits? digits).map (true, ·)
        else (someDigits? rest).map (true, ·)
      | [] => none
    else some (false, c :: rest)
  | [] => some (false, [])

/-- A number after its sign. Only zero may start with the digit zero. -/
def number? (negative : Bool) (text : List Char) : Option (Json × List Char) := do
  let digits := text.takeWhile Char.isDigit
  guard (digits ≠ [] ∧ (digits.head? ≠ some '0' ∨ digits = ['0']))
  let (pointed, rest) ← fraction? (text.dropWhile Char.isDigit)
  let (scaled, rest) ← exponent? rest
  let magnitude : Int := Nat.ofDigitChars 10 digits 0
  let value : Json :=
    if pointed || scaled || (negative && magnitude = 0) then .fraction
    else .integer (if negative then -magnitude else magnitude)
  some (value, rest)

def isSpace (c : Char) : Bool := c = ' ' || c = '\t' || c = '\n' || c = '\r'

def first? : List Char → Option (JsonToken × List Char)
  | '\x7b' :: rest => some (.openBrace, rest)
  | '\x7d' :: rest => some (.closeBrace, rest)
  | '[' :: rest => some (.openBracket, rest)
  | ']' :: rest => some (.closeBracket, rest)
  | ':' :: rest => some (.colon, rest)
  | ',' :: rest => some (.comma, rest)
  | 'n' :: 'u' :: 'l' :: 'l' :: rest => some (.leaf .null, rest)
  | 't' :: 'r' :: 'u' :: 'e' :: rest => some (.leaf (.bool true), rest)
  | 'f' :: 'a' :: 'l' :: 's' :: 'e' :: rest => some (.leaf (.bool false), rest)
  | '"' :: rest => do
    let (parts, rest) ← textParts? rest
    some (.leaf (.text ((joinParts? parts).map String.ofList)), rest)
  | '-' :: rest => do
    let (value, rest) ← number? true rest
    some (.leaf value, rest)
  | text => do
    let (value, rest) ← number? false text
    some (.leaf value, rest)

def scanSteps : Nat → List Char → Option (List JsonToken)
  | 0, text => if (text.dropWhile isSpace).isEmpty then some [] else none
  | steps + 1, text =>
    match text.dropWhile isSpace with
    | [] => some []
    | rest => do
      let (token, rest) ← first? rest
      let tokens ← scanSteps steps rest
      some (token :: tokens)

def scan (text : List Char) : Option (List JsonToken) := scanSteps text.length text

end JsonToken

namespace Json

mutual
def valueSteps : Nat → List JsonToken → Option (Json × List JsonToken)
  | 0, _ => none
  | _ + 1, .leaf value :: rest => some (value, rest)
  | _ + 1, .openBracket :: .closeBracket :: rest => some (.array [], rest)
  | steps + 1, .openBracket :: rest => do
    let (items, rest) ← itemSteps steps rest
    some (.array items, rest)
  | _ + 1, .openBrace :: .closeBrace :: rest => some (.object [], rest)
  | steps + 1, .openBrace :: rest => do
    let (members, rest) ← memberSteps steps rest
    some (.object members, rest)
  | _ + 1, _ => none

def itemSteps : Nat → List JsonToken → Option (List Json × List JsonToken)
  | 0, _ => none
  | steps + 1, tokens => do
    let (item, rest) ← valueSteps steps tokens
    match rest with
    | .comma :: rest => do
      let (items, rest) ← itemSteps steps rest
      some (item :: items, rest)
    | .closeBracket :: rest => some ([item], rest)
    | _ => none

def memberSteps : Nat → List JsonToken → Option (List (Option String × Json) × List JsonToken)
  | 0, _ => none
  | steps + 1, .leaf (.text name) :: .colon :: tokens => do
    let (value, rest) ← valueSteps steps tokens
    match rest with
    | .comma :: rest => do
      let (members, rest) ← memberSteps steps rest
      some ((name, value) :: members, rest)
    | .closeBrace :: rest => some ([(name, value)], rest)
    | _ => none
  | _ + 1, _ => none
end

/-- Each token takes at most two steps: one for itself and one for the list it starts. -/
def ofTokens? (tokens : List JsonToken) : Option Json :=
  match valueSteps (2 * tokens.length) tokens with
  | some (value, []) => some value
  | _ => none

def parse (text : String) : Option Json := (JsonToken.scan text.toList).bind ofTokens?

end Json

end Lir
