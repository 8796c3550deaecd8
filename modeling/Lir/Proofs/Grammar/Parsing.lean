import Lir.Source.Line

/-!
The grammar of lines, by characters.

A parsing expression takes the front of a text or fails. An ordered choice takes the first
alternative that does not fail, optional parts and repetitions take as much as they can, and nothing
is given back later. Blanks and comments are skipped between the parts of a sequence and between the
rounds of a repetition, but not within a word.

A rule that takes a text leaves a node with the text before and behind it; what stands between is
the text of the node.
-/

set_option autoImplicit false

namespace Lir

namespace Grammar

inductive Keyword where
  | record
  | function
  | external
  | locals
  | next
  | ret
  deriving DecidableEq

def Keyword.text : Keyword → String
  | .record => "struct"
  | .function => "fn"
  | .external => "extern"
  | .locals => "let"
  | .next => "then"
  | .ret => "ret"

inductive Opcode where
  | copy
  | arith
  | cmp
  | gep
  | gfp
  | alloc
  | addrOf
  | load
  | store
  | jump
  | branch
  | ret
  deriving DecidableEq

def Opcode.text : Opcode → String
  | .copy => "$copy"
  | .arith => "$arith"
  | .cmp => "$cmp"
  | .gep => "$gep"
  | .gfp => "$gfp"
  | .alloc => "$alloc"
  | .addrOf => "$addrof"
  | .load => "$load"
  | .store => "$store"
  | .jump => "$jump"
  | .branch => "$branch"
  | .ret => "$ret"

inductive Rule where
  -- Below the words.
  | blank
  | comment
  | wordChar
  -- Words and marks.
  | ident
  | int
  | keyword (word : Keyword)
  | opcode (word : Opcode)
  | arithOp
  | cmpOp
  | callOp
  | separator
  | endOfText
  -- Types.
  | ty
  | pointerTy
  | functionTy
  | resultTy
  | voidTy
  | intTy
  | recordTy
  | typedName
  -- Declarations.
  | recordHeader
  | fieldList
  | functionHeader
  | paramList
  | external
  | locals
  | declaration
  | label
  | close
  -- Instructions.
  | operand
  | copy
  | arith
  | cmp
  | gep
  | gfp
  | allocId
  | alloc
  | addrOf
  | load
  | args
  | call
  | assign
  | store
  | jump
  | branch
  | ret
  | instruction
  | line
  deriving DecidableEq

inductive Peg where
  | text (letters : String)
  | char (accepts : Char → Bool)
  | start
  | finish
  | rule (name : Rule)
  | seq (first second : Peg)
  | choice (first second : Peg)
  | optional (item : Peg)
  | star (item : Peg)
  /-- The rounds of a repetition after the first. -/
  | further (item : Peg)
  /-- Takes nothing, and only where the item fails. -/
  | absent (item : Peg)

namespace Peg

instance : Coe String Peg := ⟨.text⟩

instance : Coe Rule Peg := ⟨.rule⟩

def sequence : List Peg → Peg
  | [] => text ""
  | [item] => item
  | item :: rest => seq item (sequence rest)

def oneOf : List Peg → Peg
  | [] => absent (text "")
  | [item] => item
  | item :: rest => choice item (oneOf rest)

def separated (separator item : Peg) : Peg := sequence [item, star (sequence [separator, item])]

/-- One of the words, where no letter or digit goes on with it. -/
def word (words : List String) : Peg := sequence [oneOf (words.map text), absent Rule.wordChar]

def gap : Peg :=
  sequence [star Rule.blank, star (sequence [Rule.comment, star Rule.blank])]

end Peg

inductive Spacing where
  | free
  | tight
  deriving DecidableEq

def Spacing.gap : Spacing → Peg
  | .free => Peg.gap
  | .tight => Peg.text ""

namespace Rule

open Peg

def silent : Rule → Bool
  | blank | comment | wordChar | separator => true
  | _ => false

/-- The spacing within a rule: words, blanks and comments have no gaps, and all else is spaced as
around it. -/
def spacing (outer : Spacing) : Rule → Spacing
  | blank | comment | ident | int | keyword _ | opcode _ | arithOp | cmpOp | callOp | voidTy
  | intTy => .tight
  | _ => outer

/-- What a line may be, in the order in which it is tried. Each kind must reach the end of the
text. -/
def lineKinds : Peg :=
  oneOf [
    sequence [recordHeader, endOfText],
    sequence [functionHeader, endOfText],
    sequence [external, endOfText],
    sequence [locals, endOfText],
    sequence [close, endOfText],
    sequence [instruction, endOfText],
    sequence [label, endOfText],
    sequence [declaration, endOfText],
    endOfText]

def body : Rule → Peg
  | blank => oneOf [" ", "\t"]
  | comment => sequence ["//", star (char fun _ => true)]
  | wordChar => oneOf [char Char.isAlphanum, "_"]
  | ident => sequence [oneOf [char Char.isAlpha, "_"], star wordChar]
  | int => sequence [optional "-", char Char.isDigit, star (char Char.isDigit)]
  | keyword word => Peg.word [word.text]
  | opcode word => Peg.word [word.text]
  | arithOp => word ["add", "sub", "mul", "div"]
  | cmpOp => word ["lte", "lt", "gte", "gt", "neq", "eq"]
  | callOp => word ["$call_ext", "$call_dir", "$call_idr"]
  | separator => oneOf [";", ","]
  | endOfText => finish
  | ty => oneOf [pointerTy, functionTy, intTy, recordTy]
  | pointerTy => sequence ["&", ty]
  | functionTy => sequence ["(", optional (separated "," ty), ")", "->", resultTy]
  | resultTy => oneOf [voidTy, ty]
  | voidTy => word ["_"]
  | intTy => word ["int"]
  | recordTy => ident
  | typedName => sequence [ident, ":", ty]
  | recordHeader =>
    sequence [keyword .record, ident, "\x7b", optional (sequence [optional fieldList, close])]
  | fieldList =>
    sequence [typedName, star (sequence [separator, typedName]), optional separator]
  | functionHeader =>
    sequence [keyword .function, ident, "(", optional paramList, ")",
      optional (sequence ["->", resultTy]), "\x7b"]
  | paramList => separated "," typedName
  | external => sequence [keyword .external, ident, ":", functionTy]
  | locals =>
    sequence [keyword .locals, typedName, star (sequence [",", typedName]), optional separator]
  | declaration => sequence [typedName, optional separator]
  | label => sequence [ident, ":"]
  | close => "\x7d"
  | operand => oneOf [int, ident]
  | copy => sequence [opcode .copy, operand]
  | arith => sequence [opcode .arith, arithOp, operand, operand]
  | cmp => sequence [opcode .cmp, cmpOp, operand, operand]
  | gep => sequence [opcode .gep, ident, operand]
  | gfp => sequence [opcode .gfp, ident, ident]
  | allocId => sequence ["[", ident, "]"]
  | alloc => sequence [opcode .alloc, operand, optional (oneOf [allocId, ident])]
  | addrOf => sequence [opcode .addrOf, ident]
  | load => sequence [opcode .load, ident]
  | args => optional (separated "," operand)
  | call =>
    sequence [callOp, ident, "(", args, ")", optional (sequence [keyword .next, ident])]
  | assign =>
    sequence [ident, "=", oneOf [copy, arith, cmp, gep, gfp, alloc, addrOf, load, call]]
  | store => sequence [opcode .store, ident, operand]
  | jump => sequence [opcode .jump, ident]
  | branch => sequence [opcode .branch, operand, ident, ident]
  | ret => sequence [oneOf [opcode .ret, keyword .ret], optional operand]
  | instruction => oneOf [assign, store, call, jump, branch, ret]
  | line => sequence [start, lineKinds]

end Rule

/-- A node of a parse tree: its rule, the text that is left where the node starts, and what of it is
left where the node ends. -/
inductive Tree where
  | node (rule : Rule) (start stop : List Char) (children : List Tree)

namespace Tree

def rule : Tree → Rule
  | node rule _ _ _ => rule

def start : Tree → List Char
  | node _ start _ _ => start

def stop : Tree → List Char
  | node _ _ stop _ => stop

def children : Tree → List Tree
  | node _ _ _ children => children

end Tree

/-- What a rule leaves. Within words there are no nodes. -/
def Rule.leave (rule : Rule) (outer : Spacing) (start stop : List Char) (trees : List Tree) :
    List Tree :=
  if rule.silent ∨ outer = .tight then trees else [.node rule start stop trees]

/-- What a parsing expression makes of a text: it fails, or leaves nodes and the text behind what it
takes. -/
inductive Parses (whole : List Char) :
    Spacing → Peg → List Char → Option (List Tree × List Char) → Prop where
  | text {spacing : Spacing} {letters : String} {text rest : List Char}
      (same : text = letters.toList ++ rest) :
      Parses whole spacing (.text letters) text (some ([], rest))
  | text_fails {spacing : Spacing} {letters : String} {text : List Char}
      (other : ¬ letters.toList <+: text) : Parses whole spacing (.text letters) text none
  | char {spacing : Spacing} {accepts : Char → Bool} {c : Char} (accepted : accepts c = true)
      (rest : List Char) : Parses whole spacing (.char accepts) (c :: rest) (some ([], rest))
  | char_fails {spacing : Spacing} {accepts : Char → Bool} {text : List Char}
      (other : ∀ c ∈ text.head?, accepts c = false) : Parses whole spacing (.char accepts) text none
  | start {spacing : Spacing} : Parses whole spacing .start whole (some ([], whole))
  | start_fails {spacing : Spacing} {text : List Char} (within : text ≠ whole) :
      Parses whole spacing .start text none
  | finish {spacing : Spacing} : Parses whole spacing .finish [] (some ([], []))
  | finish_fails {spacing : Spacing} {text : List Char} (more : text ≠ []) :
      Parses whole spacing .finish text none
  | rule {spacing : Spacing} {name : Rule} {text rest : List Char} {trees : List Tree}
      (inner : Parses whole (name.spacing spacing) name.body text (some (trees, rest))) :
      Parses whole spacing (.rule name) text (some (name.leave spacing text rest trees, rest))
  | rule_fails {spacing : Spacing} {name : Rule} {text : List Char}
      (inner : Parses whole (name.spacing spacing) name.body text none) :
      Parses whole spacing (.rule name) text none
  | seq {spacing : Spacing} {first second : Peg} {text behind before rest : List Char}
      {trees skipped more : List Tree}
      (taken : Parses whole spacing first text (some (trees, behind)))
      (gap : Parses whole .tight spacing.gap behind (some (skipped, before)))
      (later : Parses whole spacing second before (some (more, rest))) :
      Parses whole spacing (.seq first second) text (some (trees ++ skipped ++ more, rest))
  | seq_first_fails {spacing : Spacing} {first second : Peg} {text : List Char}
      (fails : Parses whole spacing first text none) :
      Parses whole spacing (.seq first second) text none
  | seq_second_fails {spacing : Spacing} {first second : Peg} {text behind before : List Char}
      {trees skipped : List Tree}
      (taken : Parses whole spacing first text (some (trees, behind)))
      (gap : Parses whole .tight spacing.gap behind (some (skipped, before)))
      (fails : Parses whole spacing second before none) :
      Parses whole spacing (.seq first second) text none
  | choice_first {spacing : Spacing} {first second : Peg} {text : List Char}
      {taken : List Tree × List Char} (held : Parses whole spacing first text (some taken)) :
      Parses whole spacing (.choice first second) text (some taken)
  | choice_second {spacing : Spacing} {first second : Peg} {text : List Char}
      {outcome : Option (List Tree × List Char)} (fails : Parses whole spacing first text none)
      (later : Parses whole spacing second text outcome) :
      Parses whole spacing (.choice first second) text outcome
  | optional_some {spacing : Spacing} {item : Peg} {text : List Char}
      {taken : List Tree × List Char} (held : Parses whole spacing item text (some taken)) :
      Parses whole spacing (.optional item) text (some taken)
  | optional_none {spacing : Spacing} {item : Peg} {text : List Char}
      (fails : Parses whole spacing item text none) :
      Parses whole spacing (.optional item) text (some ([], text))
  | star_none {spacing : Spacing} {item : Peg} {text : List Char}
      (fails : Parses whole spacing item text none) :
      Parses whole spacing (.star item) text (some ([], text))
  | star_some {spacing : Spacing} {item : Peg} {text behind rest : List Char}
      {trees more : List Tree} (taken : Parses whole spacing item text (some (trees, behind)))
      (later : Parses whole spacing (.further item) behind (some (more, rest))) :
      Parses whole spacing (.star item) text (some (trees ++ more, rest))
  -- The gap before a round that fails is not taken.
  | further_none {spacing : Spacing} {item : Peg} {text before : List Char} {skipped : List Tree}
      (gap : Parses whole .tight spacing.gap text (some (skipped, before)))
      (fails : Parses whole spacing item before none) :
      Parses whole spacing (.further item) text (some ([], text))
  | further_some {spacing : Spacing} {item : Peg} {text before behind rest : List Char}
      {skipped trees more : List Tree}
      (gap : Parses whole .tight spacing.gap text (some (skipped, before)))
      (taken : Parses whole spacing item before (some (trees, behind)))
      (later : Parses whole spacing (.further item) behind (some (more, rest))) :
      Parses whole spacing (.further item) text (some (skipped ++ trees ++ more, rest))
  | absent {spacing : Spacing} {item : Peg} {text : List Char}
      (fails : Parses whole spacing item text none) :
      Parses whole spacing (.absent item) text (some ([], text))
  | absent_fails {spacing : Spacing} {item : Peg} {text : List Char}
      {taken : List Tree × List Char} (held : Parses whole spacing item text (some taken)) :
      Parses whole spacing (.absent item) text none

namespace Parses

variable {whole : List Char}

/-- A parsing expression makes one thing of a text. -/
theorem unique {spacing : Spacing} {e : Peg} {text : List Char}
    {outcome other : Option (List Tree × List Char)} (parsed : Parses whole spacing e text outcome)
    (again : Parses whole spacing e text other) : outcome = other := by
  -- Along the first run: the second starts with the same parts, which make the same of their texts.
  induction parsed generalizing other with
  | text same =>
    cases again with
    | text again => rw [List.append_cancel_left (same.symm.trans again)]
    | text_fails other => exact absurd ⟨_, same.symm⟩ other
  | text_fails other =>
    cases again with
    | text again => exact absurd ⟨_, again.symm⟩ other
    | text_fails => rfl
  | char accepted =>
    cases again with
    | char => rfl
    | char_fails other => simp [other _ rfl] at accepted
  | char_fails other =>
    cases again with
    | char accepted => simp [other _ rfl] at accepted
    | char_fails => rfl
  | start =>
    cases again with
    | start => rfl
    | start_fails within => exact absurd rfl within
  | start_fails within =>
    cases again with
    | start => exact absurd rfl within
    | start_fails => rfl
  | finish =>
    cases again with
    | finish => rfl
    | finish_fails more => exact absurd rfl more
  | finish_fails more =>
    cases again with
    | finish => exact absurd rfl more
    | finish_fails => rfl
  | rule inner ih =>
    cases again with
    | rule again => cases ih again; rfl
    | rule_fails again => cases ih again
  | rule_fails inner ih =>
    cases again with
    | rule again => cases ih again
    | rule_fails => rfl
  | seq taken gap later taken_ih gap_ih later_ih =>
    cases again with
    | seq taken gap later => cases taken_ih taken; cases gap_ih gap; cases later_ih later; rfl
    | seq_first_fails fails => cases taken_ih fails
    | seq_second_fails taken gap fails =>
      cases taken_ih taken; cases gap_ih gap; cases later_ih fails
  | seq_first_fails fails ih =>
    cases again with
    | seq taken => cases ih taken
    | seq_first_fails => rfl
    | seq_second_fails => rfl
  | seq_second_fails taken gap fails taken_ih gap_ih fails_ih =>
    cases again with
    | seq taken gap later => cases taken_ih taken; cases gap_ih gap; cases fails_ih later
    | seq_first_fails => rfl
    | seq_second_fails => rfl
  | choice_first held ih =>
    cases again with
    | choice_first again => exact ih again
    | choice_second fails => cases ih fails
  | choice_second fails later fails_ih later_ih =>
    cases again with
    | choice_first again => cases fails_ih again
    | choice_second _ later => exact later_ih later
  | optional_some held ih =>
    cases again with
    | optional_some again => exact ih again
    | optional_none fails => cases ih fails
  | optional_none fails ih =>
    cases again with
    | optional_some held => cases ih held
    | optional_none => rfl
  | star_none fails ih =>
    cases again with
    | star_none => rfl
    | star_some taken => cases ih taken
  | star_some taken later taken_ih later_ih =>
    cases again with
    | star_none fails => cases taken_ih fails
    | star_some taken later => cases taken_ih taken; cases later_ih later; rfl
  | further_none gap fails gap_ih fails_ih =>
    cases again with
    | further_none => rfl
    | further_some gap taken => cases gap_ih gap; cases fails_ih taken
  | further_some gap taken later gap_ih taken_ih later_ih =>
    cases again with
    | further_none gap fails => cases gap_ih gap; cases taken_ih fails
    | further_some gap taken later =>
      cases gap_ih gap; cases taken_ih taken; cases later_ih later; rfl
  | absent fails ih =>
    cases again with
    | absent => rfl
    | absent_fails held => cases ih held
  | absent_fails held ih =>
    cases again with
    | absent fails => cases ih fails
    | absent_fails => rfl

end Parses

end Grammar

end Lir
