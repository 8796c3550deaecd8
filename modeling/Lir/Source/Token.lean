/-!
Tokens of a source line.

Spaces and tabs separate tokens and mean nothing else; two slashes start a comment that takes the
rest of the text. A word never ends inside a run of letters, digits and underscores, so `$copyy`
is one token and not `$copy` before `y`; a number ends where its digits end, so `1x` is two.
-/

set_option autoImplicit false

namespace Lir

inductive Punct where
  | openBrace
  | closeBrace
  | openParen
  | closeParen
  | openBracket
  | closeBracket
  | colon
  | semicolon
  | comma
  | ampersand
  | equals
  | arrow
  deriving DecidableEq

inductive Token where
  | ident (name : String)
  /-- Decimal digits, at least one, and whether a minus sign stands before them. -/
  | number (negative : Bool) (digits : List Char)
  | opcode (word : String)
  | punct (mark : Punct)
  deriving DecidableEq

namespace Punct

def ofChar? : Char → Option Punct
  | '\x7b' => some .openBrace
  | '\x7d' => some .closeBrace
  | '(' => some .openParen
  | ')' => some .closeParen
  | '[' => some .openBracket
  | ']' => some .closeBracket
  | ':' => some .colon
  | ';' => some .semicolon
  | ',' => some .comma
  | '&' => some .ampersand
  | '=' => some .equals
  | _ => none

end Punct

namespace Token

/-- Characters that continue a word: letters and digits of ASCII, and the underscore. -/
def isWordChar (c : Char) : Bool := c.isAlphanum || c = '_'

def isNameStart (c : Char) : Bool := c.isAlpha || c = '_'

def isBlankChar (c : Char) : Bool := c = ' ' || c = '\t'

def skipBlanks (text : List Char) : List Char :=
  match text.dropWhile isBlankChar with
  | '/' :: '/' :: _ => []
  | rest => rest

/-- The token at the front of a text that starts with neither blank nor comment. -/
def first? : List Char → Option (Token × List Char)
  | [] => none
  | '$' :: rest =>
    some (.opcode (.ofList (rest.takeWhile isWordChar)), rest.dropWhile isWordChar)
  | '-' :: '>' :: rest => some (.punct .arrow, rest)
  | '-' :: c :: rest =>
    if c.isDigit then
      some (.number true (c :: rest.takeWhile Char.isDigit), rest.dropWhile Char.isDigit)
    else none
  | c :: rest =>
    if c.isDigit then
      some (.number false (c :: rest.takeWhile Char.isDigit), rest.dropWhile Char.isDigit)
    else if isNameStart c then
      some (.ident (.ofList (c :: rest.takeWhile isWordChar)), rest.dropWhile isWordChar)
    else (Punct.ofChar? c).map fun mark => (.punct mark, rest)

def scanSteps : Nat → List Char → Option (List Token)
  | 0, text => if (skipBlanks text).isEmpty then some [] else none
  | steps + 1, text =>
    match skipBlanks text with
    | [] => some []
    | rest => do
      let (token, rest) ← first? rest
      let tokens ← scanSteps steps rest
      some (token :: tokens)

def scan (text : List Char) : Option (List Token) := scanSteps text.length text

def numberValue (negative : Bool) (digits : List Char) : Int :=
  let magnitude : Int := Nat.ofDigitChars 10 digits 0
  if negative then -magnitude else magnitude

def numberText (negative : Bool) (digits : List Char) : String :=
  .ofList (if negative then '-' :: digits else digits)

def fitsWord (value : Int) : Bool := -2147483648 ≤ value && value ≤ 2147483647

def outOfRange? : Token → Option String
  | .number negative digits =>
    if fitsWord (numberValue negative digits) then none else some (numberText negative digits)
  | _ => none

end Token

end Lir
