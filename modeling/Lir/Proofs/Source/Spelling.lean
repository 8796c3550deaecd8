import Lir.Proofs.Source.Scan
import Lir.Proofs.Source.Writable
import Lir.Source.Blank
import Lir.Source.Printer

/-!
The tokens of what is printed.

Each printed form is made of names, numbers and fixed texts. A fixed text between two names starts
and ends with a character that no name goes on with, so the tokens of the whole are the tokens of
the parts.
-/

set_option autoImplicit false

namespace Lir

/-! ### Texts and their tokens -/

/-- A character that a printed line may hold: no slash, and of the blanks only the space. -/
def isPlain (c : Char) : Bool := c ≠ '/' && (c = ' ' || !isBlank c)

/-- A text without comment or line break that scans to the tokens, whose literals all fit. -/
structure Spells (text : String) (tokens : List Token) : Prop where
  scanned : Token.scan text.toList = some tokens
  plain : text.toList.all isPlain = true
  fits : ∀ token ∈ tokens, token.outOfRange? = none

def opens (text : String) : Bool := text.toList.head?.any fun c => !Token.isWordChar c

def closes (text : String) : Bool :=
  text.toList.getLast?.any fun c => !Token.isWordChar c && c ≠ '$'

structure Lead (fixed : String) (marks : List Token) : Prop where
  spells : Spells fixed marks
  closed : closes fixed = true

structure Trail (fixed : String) (marks : List Token) : Prop where
  spells : Spells fixed marks
  opened : opens fixed = true

structure Gap (fixed : String) (marks : List Token) : Prop where
  lead : Lead fixed marks
  trail : Trail fixed marks

-- What is printed has only a few fixed texts, and each is scanned by evaluation.
section

variable (text : String) (tokens : List Token)

instance : Decidable (Spells text tokens) :=
  decidable_of_iff (Token.scan text.toList = some tokens ∧ text.toList.all isPlain = true ∧
      ∀ token ∈ tokens, token.outOfRange? = none)
    ⟨fun ⟨scanned, plain, fits⟩ => ⟨scanned, plain, fits⟩,
      fun ⟨scanned, plain, fits⟩ => ⟨scanned, plain, fits⟩⟩

instance : Decidable (Lead text tokens) :=
  decidable_of_iff (Spells text tokens ∧ closes text = true)
    ⟨fun ⟨spells, closed⟩ => ⟨spells, closed⟩, fun ⟨spells, closed⟩ => ⟨spells, closed⟩⟩

instance : Decidable (Trail text tokens) :=
  decidable_of_iff (Spells text tokens ∧ opens text = true)
    ⟨fun ⟨spells, opened⟩ => ⟨spells, opened⟩, fun ⟨spells, opened⟩ => ⟨spells, opened⟩⟩

instance : Decidable (Gap text tokens) :=
  decidable_of_iff (Lead text tokens ∧ Trail text tokens)
    ⟨fun ⟨lead, trail⟩ => ⟨lead, trail⟩, fun ⟨lead, trail⟩ => ⟨lead, trail⟩⟩

end

theorem closes_append (text : String) {fixed : String} (closed : closes fixed = true) :
    closes (text ++ fixed) = true := by
  obtain ⟨last, found, held⟩ := (Option.any_eq_true _ _).1 closed
  rw [closes, String.toList_append, List.mem_getLast?_append_of_mem_getLast? found]
  exact held

namespace Spells

variable {text other fixed : String} {tokens more marks : List Token}

theorem isPlain (spelled : Spells text tokens) : ∀ c ∈ text.toList, isPlain c = true :=
  List.all_eq_true.1 spelled.plain

theorem append (left : Spells text tokens) (right : Spells other more)
    (apart : Token.Apart text.toList other.toList) : Spells (text ++ other) (tokens ++ more) := by
  refine ⟨?_, ?_, List.forall_mem_append.2 ⟨left.fits, right.fits⟩⟩
  · have no_slash : '/' ∉ text.toList := fun inside =>
      absurd (left.isPlain '/' inside) (by decide)
    rw [String.toList_append, Token.scan_append left.scanned no_slash apart, right.scanned]
    rfl
  · rw [String.toList_append, List.all_append, left.plain, right.plain]
    rfl

theorem after (spelled : Spells text tokens) (lead : Lead fixed marks) :
    Spells (fixed ++ text) (marks ++ tokens) := by
  have closed := lead.closed
  refine lead.spells.append spelled fun _ _ _ last found => ?_
  rw [closes, Option.mem_def.1 found] at closed
  simpa using closed

theorem followed (spelled : Spells text tokens) (trail : Trail fixed marks) :
    Spells (text ++ fixed) (tokens ++ marks) := by
  have opened := trail.opened
  refine spelled.append trail.spells fun first found word => ?_
  rw [opens, Option.mem_def.1 found] at opened
  simp [word] at opened

theorem between (left : Spells text tokens) (right : Spells other more) (gap : Gap fixed marks) :
    Spells (text ++ fixed ++ other) (tokens ++ marks ++ more) :=
  right.after ⟨left.followed gap.trail, closes_append text gap.lead.closed⟩

theorem gap_comma : Gap ", " [.punct .comma] := by decide

theorem intercalate {α : Type} {text : α → String} {tokens : α → List Token} {items : List α}
    (each : ∀ item ∈ items, Spells (text item) (tokens item)) :
    Spells (", ".intercalate (items.map text))
      (List.intercalate [.punct .comma] (items.map tokens)) := by
  induction items with
  | nil => exact (by decide : Spells "" [])
  | cons item rest ih =>
    obtain ⟨first, later⟩ := List.forall_mem_cons.1 each
    cases rest with
    | nil =>
      simp only [List.map_cons, List.map_nil, String.intercalate_singleton,
        List.intercalate_singleton]
      exact first
    | cons next rest =>
      simp only [List.map_cons, String.intercalate_cons_cons, List.intercalate_cons_cons]
      exact first.between (ih later) gap_comma

end Spells

/-! ### Names and numbers -/

theorem isPlain_of_isWordChar {c : Char} (word : Token.isWordChar c = true) : isPlain c = true := by
  have not_slash : c ≠ '/' := Token.ne_of_class word '/' (by decide)
  have range := Token.toNat_of_isWordChar word
  have not_blank : isBlank c = false := by
    refine Bool.eq_false_iff.2 fun blank => ?_
    simp only [isBlank, Bool.or_eq_true, Bool.and_eq_true, decide_eq_true_eq] at blank
    omega
  simp [isPlain, not_slash, not_blank]

theorem spells_of_isIdentifier {name : String} (identifier : isIdentifier name) :
    Spells name [.ident name] := by
  obtain ⟨c, rest, same, start, words⟩ := (isIdentifier_iff name).1 identifier
  have taken : rest.takeWhile Token.isWordChar = rest := List.takeWhile_eq_self_iff.2 words
  have dropped : rest.dropWhile Token.isWordChar = [] := List.dropWhile_eq_nil_iff.2 words
  have first := Token.First.ident start rest
  rw [taken, dropped, ← same, String.ofList_toList] at first
  refine ⟨Token.scan_of_first first, ?_, by simp [Token.outOfRange?]⟩
  rw [same, List.all_eq_true]
  exact List.forall_mem_cons.2 ⟨isPlain_of_isWordChar (Token.isWordChar_of_isNameStart start),
    fun d member => isPlain_of_isWordChar (words d member)⟩

def Operand.token : Operand → Token
  | .const value => .number (value.toInt < 0) (Nat.toDigits 10 value.toInt.natAbs)
  | .var name => .ident name

theorem toList_toString_int (value : Int) :
    (toString value).toList =
      if value < 0 then '-' :: Nat.toDigits 10 value.natAbs else Nat.toDigits 10 value.natAbs := by
  change value.repr.toList = _
  cases value with
  | ofNat magnitude => exact Nat.toList_repr
  | negSucc magnitude =>
    rw [if_pos (Int.negSucc_lt_zero magnitude)]
    change ("-" ++ (magnitude + 1).repr).toList = '-' :: Nat.toDigits 10 (magnitude + 1)
    rw [String.toList_append, Nat.toList_repr]
    rfl

theorem numberValue_toDigits (value : Int) :
    Token.numberValue (value < 0) (Nat.toDigits 10 value.natAbs) = value := by
  rw [Token.numberValue, Nat.ofDigitChars_ten_toDigits]
  simp only [decide_eq_true_eq]
  omega

theorem outOfRange?_const (value : Int32) : (Operand.const value).token.outOfRange? = none := by
  have low := value.le_toInt
  have high := value.toInt_lt
  rw [Operand.token, Token.outOfRange?, numberValue_toDigits, Token.fitsWord]
  simp only [Bool.and_eq_true, decide_eq_true_eq, ite_eq_left_iff]
  omega

theorem Token.scan_digits {digits : List Char} (not_empty : digits ≠ [])
    (all : ∀ c ∈ digits, c.isDigit = true) :
    Token.scan digits = some [.number false digits] ∧
      Token.scan ('-' :: digits) = some [.number true digits] := by
  cases digits with
  | nil => exact absurd rfl not_empty
  | cons c rest =>
    obtain ⟨first, later⟩ := List.forall_mem_cons.1 all
    have taken : rest.takeWhile Char.isDigit = rest := List.takeWhile_eq_self_iff.2 later
    have dropped : rest.dropWhile Char.isDigit = [] := List.dropWhile_eq_nil_iff.2 later
    have positive := Token.First.number first rest
    have negative := Token.First.negative first rest
    rw [taken, dropped] at positive negative
    exact ⟨Token.scan_of_first positive, Token.scan_of_first negative⟩

theorem Operand.spells {value : Operand} (identifier : ∀ name ∈ value.name?, isIdentifier name) :
    Spells value.render [value.token] := by
  cases value with
  | var name => exact spells_of_isIdentifier (identifier name rfl)
  | const value =>
    have digits : ∀ c ∈ Nat.toDigits 10 value.toInt.natAbs, c.isDigit = true :=
      fun c member => Nat.isDigit_of_mem_toDigits (by decide) (by decide) member
    -- A minus sign before digits is part of the number, so both signs make one token.
    obtain ⟨positive, negative⟩ := Token.scan_digits Nat.toDigits_ne_nil digits
    have plain : ∀ c ∈ Nat.toDigits 10 value.toInt.natAbs, isPlain c = true :=
      fun c member => isPlain_of_isWordChar (Token.isWordChar_of_isDigit (digits c member))
    have same := toList_toString_int value.toInt
    refine ⟨?_, ?_, List.forall_mem_singleton.2 (outOfRange?_const value)⟩
    · rw [Operand.render, same, Operand.token]
      split
      next sign => rw [negative, decide_eq_true sign]
      next sign => rw [positive, decide_eq_false sign]
    · rw [Operand.render, same, List.all_eq_true]
      split
      · exact List.forall_mem_cons.2 ⟨by decide, plain⟩
      · exact plain

/-! ### Types -/

namespace Ty

mutual
def tokens : Ty → List Token
  | .int => [.ident "int"]
  | .record name => [.ident name]
  | .pointer pointee => .punct .ampersand :: pointee.tokens
  | .function params result =>
    .punct .openParen :: List.intercalate [.punct .comma] (tokensParams params) ++
      .punct .closeParen :: .punct .arrow :: tokensResult result

def tokensParams : List Ty → List (List Token)
  | [] => []
  | param :: rest => param.tokens :: tokensParams rest

def tokensResult : Option Ty → List Token
  | none => [.ident "_"]
  | some result => result.tokens
end

theorem renderParams_eq_map (params : List Ty) : renderParams params = params.map render := by
  induction params with
  | nil => rfl
  | cons param rest ih => rw [renderParams, ih, List.map_cons]

theorem tokensParams_eq_map (params : List Ty) : tokensParams params = params.map tokens := by
  induction params with
  | nil => rfl
  | cons param rest ih => rw [tokensParams, ih, List.map_cons]

theorem Writable.spells {ty : Ty} (writable : ty.Writable) : Spells ty.render ty.tokens := by
  -- Along the evidence: parameters and result are types that a source can spell, too.
  induction writable with
  | int => exact (by decide : Spells "int" [.ident "int"])
  | record identifier _ => exact spells_of_isIdentifier identifier
  | pointer _ ih =>
    exact ih.after (by decide : Lead "&" [.punct .ampersand])
  | @function params result _ _ _ params_ih result_ih =>
    have result_spells : Spells (renderResult result) (tokensResult result) := by
      cases result with
      | none => exact (by decide : Spells "_" [.ident "_"])
      | some type => exact result_ih type rfl
    rw [render, tokens, renderParams_eq_map, tokensParams_eq_map]
    have params_spell := (Spells.intercalate params_ih).after
      (by decide : Lead "(" [.punct .openParen])
    simpa using params_spell.between result_spells
      (by decide : Gap ") -> " [.punct .closeParen, .punct .arrow])

end Ty

def tokensTyped (name : String) (ty : Ty) : List Token :=
  .ident name :: .punct .colon :: ty.tokens

theorem WritableTyped.spells {name : String} {ty : Ty} (writable : WritableTyped name ty) :
    Spells (renderTyped name ty) (tokensTyped name ty) :=
  (spells_of_isIdentifier writable.identifier).between writable.writable.spells
    (by decide : Gap ": " [.punct .colon])

/-! ### Instructions -/

namespace Call

def tokensFromWord (site : Call) : List Token :=
  .opcode site.kind.word :: .ident site.callee :: .punct .openParen ::
    (List.intercalate [.punct .comma] (site.args.map fun arg => [arg.token]) ++
      .punct .closeParen ::
        match site.next with
        | some next => [.ident "then", .ident next]
        | none => [])

def tokens (site : Call) : List Token :=
  match site.dst with
  | some dst => .ident dst :: .punct .equals :: site.tokensFromWord
  | none => site.tokensFromWord

end Call

namespace Op

def tokens : Op → List Token
  | .copy dst src => [.ident dst, .punct .equals, .opcode "copy", src.token]
  | .arith dst op lhs rhs =>
    [.ident dst, .punct .equals, .opcode "arith", .ident op.name, lhs.token, rhs.token]
  | .cmp dst op lhs rhs =>
    [.ident dst, .punct .equals, .opcode "cmp", .ident op.name, lhs.token, rhs.token]
  | .gep dst base index => [.ident dst, .punct .equals, .opcode "gep", .ident base, index.token]
  | .gfp dst base field => [.ident dst, .punct .equals, .opcode "gfp", .ident base, .ident field]
  | .alloc dst size (some id) =>
    [.ident dst, .punct .equals, .opcode "alloc", size.token, .punct .openBracket, .ident id,
      .punct .closeBracket]
  | .alloc dst size none => [.ident dst, .punct .equals, .opcode "alloc", size.token]
  | .addrOf dst src => [.ident dst, .punct .equals, .opcode "addrof", .ident src]
  | .load dst src => [.ident dst, .punct .equals, .opcode "load", .ident src]
  | .store dst value => [.opcode "store", .ident dst, value.token]
  | .call site => site.tokens

end Op

namespace Terminator

def tokens : Terminator → List Token
  | .jump target => [.opcode "jump", .ident target]
  | .branch cond thenBlock elseBlock =>
    [.opcode "branch", cond.token, .ident thenBlock, .ident elseBlock]
  | .ret (some value) => [.opcode "ret", value.token]
  | .ret none => [.opcode "ret"]

end Terminator

def Instruction.tokens : Instruction → List Token
  | .op _ _ operation => operation.tokens
  | .term _ terminator => terminator.tokens

theorem Operand.token_ne_opcode (value : Operand) (word : String) :
    value.token ≠ .opcode word := by
  cases value <;> simp [token]

theorem opcode_notMem_args (word : String) (args : List Operand) :
    .opcode word ∉ List.intercalate [.punct .comma] (args.map fun arg => [arg.token]) := by
  induction args with
  | nil => simp
  | cons arg rest ih =>
    have other := (arg.token_ne_opcode word).symm
    cases rest with
    | nil => simp [other]
    | cons next rest =>
      rw [List.map_cons, List.map_cons, List.intercalate_cons_cons]
      simpa [other] using ih

theorem Call.opcode_mem_tokens (site : Call) (word : String) :
    .opcode word ∈ site.tokens ↔ word = site.kind.word := by
  obtain ⟨dst, kind, callee, args, next⟩ := site
  have no_arg := opcode_notMem_args word args
  cases dst <;> cases next <;> simp [Call.tokens, Call.tokensFromWord, no_arg]

/-- The word of an instruction is the one opcode of its line. -/
theorem Instruction.opcode_mem_tokens (inst : Instruction) (opcode : String) :
    .opcode opcode ∈ inst.tokens ↔ opcode = inst.word := by
  have no_operand := fun value : Operand => (value.token_ne_opcode opcode).symm
  cases inst with
  | op block index operation =>
    cases operation with
    | call site => exact site.opcode_mem_tokens opcode
    | alloc dst size id => cases id <;> simp [tokens, Op.tokens, word, Op.word, no_operand]
    | _ => simp [tokens, Op.tokens, word, Op.word, no_operand]
  | term block terminator =>
    cases terminator with
    | ret value =>
      cases value <;> simp [tokens, Terminator.tokens, word, Terminator.word, no_operand]
    | _ => simp [tokens, Terminator.tokens, word, Terminator.word, no_operand]

theorem gap_space : Gap " " [] := by decide

theorem ArithOp.spells (op : ArithOp) : Spells op.name [.ident op.name] := by
  cases op <;> decide

theorem CmpOp.spells (op : CmpOp) : Spells op.name [.ident op.name] := by
  cases op <;> decide

theorem Call.spells {site : Call} (identifiers : Identifiers (Op.call site).names) :
    Spells site.render site.tokens := by
  obtain ⟨dst, kind, callee, args, next⟩ := site
  simp only [Op.names, identifiers_append, identifiers_cons, identifiers_toList,
    identifiers_filterMap] at identifiers
  obtain ⟨dst_identifier, callee_identifier, arg_identifiers, next_identifier⟩ := identifiers
  have args_spell : Spells (", ".intercalate (args.map Operand.render))
      (List.intercalate [.punct .comma] (args.map fun arg => [arg.token])) :=
    Spells.intercalate fun arg member => Operand.spells (arg_identifiers arg member)
  -- The call word follows a dollar sign, so only a space after it ends it.
  have word : Lead ("$" ++ (kind.word ++ " ")) [.opcode kind.word] := by
    cases kind <;> decide
  have callee_spells := (spells_of_isIdentifier callee_identifier).after word
  have open_spells := callee_spells.between args_spell (by decide : Gap "(" [.punct .openParen])
  have call_spells := open_spells.followed (by decide : Trail ")" [.punct .closeParen])
  have assigned : Gap " = " [.punct .equals] := by decide
  have continued : Gap " then " [.ident "then"] := by decide
  rcases dst with _ | dst <;> rcases next with _ | next
  · simpa [Call.render, Call.tokens, Call.tokensFromWord,
      String.append_assoc] using call_spells
  · have next_spells := spells_of_isIdentifier (next_identifier next rfl)
    simpa [-String.reduceAppend, Call.render, Call.tokens, Call.tokensFromWord,
      String.append_assoc] using
      call_spells.between next_spells continued
  · have dst_spells := spells_of_isIdentifier (dst_identifier dst rfl)
    simpa [-String.reduceAppend, Call.render, Call.tokens, Call.tokensFromWord,
      String.append_assoc] using
      dst_spells.between call_spells assigned
  · have dst_spells := spells_of_isIdentifier (dst_identifier dst rfl)
    have next_spells := spells_of_isIdentifier (next_identifier next rfl)
    simpa [-String.reduceAppend, Call.render, Call.tokens, Call.tokensFromWord,
      String.append_assoc] using
      (dst_spells.between call_spells assigned).between next_spells continued

theorem Op.gap_assigns (operation : Op) :
    Gap operation.assigns [.punct .equals, .opcode operation.word] := by
  cases operation with
  | call site =>
    rw [assigns, word]
    cases site.kind <;> decide
  | _ => simp only [assigns, word]; decide

theorem Op.spells {operation : Op} (identifiers : Identifiers operation.names) :
    Spells operation.render operation.tokens := by
  have gap_assigns := operation.gap_assigns
  cases operation with
  | copy dst src =>
    simp only [Op.names, identifiers_cons, identifiers_toList] at identifiers
    obtain ⟨dst_identifier, src_identifier⟩ := identifiers
    exact (spells_of_isIdentifier dst_identifier).between (Operand.spells src_identifier)
      gap_assigns
  | arith dst op lhs rhs =>
    simp only [Op.names, identifiers_cons, identifiers_append, identifiers_toList] at identifiers
    obtain ⟨dst_identifier, lhs_identifier, rhs_identifier⟩ := identifiers
    have start := (spells_of_isIdentifier dst_identifier).between op.spells gap_assigns
    exact (start.between (Operand.spells lhs_identifier) gap_space).between
      (Operand.spells rhs_identifier) gap_space
  | cmp dst op lhs rhs =>
    simp only [Op.names, identifiers_cons, identifiers_append, identifiers_toList] at identifiers
    obtain ⟨dst_identifier, lhs_identifier, rhs_identifier⟩ := identifiers
    have start := (spells_of_isIdentifier dst_identifier).between op.spells gap_assigns
    exact (start.between (Operand.spells lhs_identifier) gap_space).between
      (Operand.spells rhs_identifier) gap_space
  | gep dst base index =>
    simp only [Op.names, identifiers_cons, identifiers_toList] at identifiers
    obtain ⟨dst_identifier, base_identifier, index_identifier⟩ := identifiers
    have start := (spells_of_isIdentifier dst_identifier).between
      (spells_of_isIdentifier base_identifier) gap_assigns
    exact start.between (Operand.spells index_identifier) gap_space
  | gfp dst base field =>
    simp only [Op.names, identifiers_cons, identifiers_nil, and_true] at identifiers
    obtain ⟨dst_identifier, base_identifier, field_identifier⟩ := identifiers
    have start := (spells_of_isIdentifier dst_identifier).between
      (spells_of_isIdentifier base_identifier) gap_assigns
    exact start.between (spells_of_isIdentifier field_identifier) gap_space
  | alloc dst size id =>
    simp only [Op.names, identifiers_cons, identifiers_append, identifiers_toList] at identifiers
    obtain ⟨dst_identifier, size_identifier, id_identifier⟩ := identifiers
    have start := (spells_of_isIdentifier dst_identifier).between (Operand.spells size_identifier)
      gap_assigns
    cases id with
    | none => exact start
    | some id =>
      have named := start.between (spells_of_isIdentifier (id_identifier id rfl))
        (by decide : Gap " [" [.punct .openBracket])
      exact named.followed (by decide : Trail "]" [.punct .closeBracket])
  | addrOf dst src =>
    simp only [Op.names, identifiers_cons, identifiers_nil, and_true] at identifiers
    obtain ⟨dst_identifier, src_identifier⟩ := identifiers
    exact (spells_of_isIdentifier dst_identifier).between (spells_of_isIdentifier src_identifier)
      gap_assigns
  | load dst src =>
    simp only [Op.names, identifiers_cons, identifiers_nil, and_true] at identifiers
    obtain ⟨dst_identifier, src_identifier⟩ := identifiers
    exact (spells_of_isIdentifier dst_identifier).between (spells_of_isIdentifier src_identifier)
      gap_assigns
  | store dst value =>
    simp only [Op.names, identifiers_cons, identifiers_toList] at identifiers
    obtain ⟨dst_identifier, value_identifier⟩ := identifiers
    have start := (spells_of_isIdentifier dst_identifier).after
      (by decide : Lead "$store " [.opcode "store"])
    exact start.between (Operand.spells value_identifier) gap_space
  | call site => exact Call.spells identifiers

theorem Terminator.lead_word (terminator : Terminator) :
    Lead ("$" ++ terminator.word ++ " ") [.opcode terminator.word] := by
  cases terminator <;> simp only [word] <;> decide

theorem Terminator.spells {terminator : Terminator} (identifiers : Identifiers terminator.names) :
    Spells terminator.render terminator.tokens := by
  have lead_word := terminator.lead_word
  cases terminator with
  | jump target =>
    simp only [Terminator.names, identifiers_cons, identifiers_nil, and_true] at identifiers
    exact (spells_of_isIdentifier identifiers).after lead_word
  | branch cond thenBlock elseBlock =>
    simp only [Terminator.names, identifiers_append, identifiers_cons, identifiers_toList,
      identifiers_nil, and_true] at identifiers
    obtain ⟨cond_identifier, then_identifier, else_identifier⟩ := identifiers
    have start := (Operand.spells cond_identifier).after lead_word
    exact (start.between (spells_of_isIdentifier then_identifier) gap_space).between
      (spells_of_isIdentifier else_identifier) gap_space
  | ret value =>
    simp only [Terminator.names, identifiers_filterMap, Option.mem_toList] at identifiers
    cases value with
    | none => exact (by decide : Spells "$ret" [.opcode "ret"])
    | some value =>
      exact (Operand.spells (identifiers value rfl)).after lead_word

theorem Instruction.spells {inst : Instruction} (identifiers : Identifiers inst.names) :
    Spells inst.render inst.tokens := by
  cases inst with
  | op block index operation => exact Op.spells identifiers
  | term block terminator => exact Terminator.spells identifiers

/-! ### Headers -/

def RecordDef.headerTokens (r : RecordDef) : List Token :=
  [.ident "struct", .ident r.name, .punct .openBrace]

theorem RecordDef.header_spells {r : RecordDef} (identifier : isIdentifier r.name) :
    Spells ("struct " ++ r.name ++ " \x7b") r.headerTokens := by
  have start := (spells_of_isIdentifier identifier).after
    (by decide : Lead "struct " [.ident "struct"])
  exact start.followed (by decide : Trail " \x7b" [.punct .openBrace])

/-- The tokens of a result in a header, which leaves out that there is none. -/
def Function.resultTokens : Option Ty → List Token
  | some result => .punct .arrow :: result.tokens
  | none => []

def Function.headerTokens (f : Function) : List Token :=
  .ident "fn" :: .ident f.name :: .punct .openParen ::
    (List.intercalate [.punct .comma] (f.params.map fun param => tokensTyped param.name param.ty) ++
      .punct .closeParen ::
        (resultTokens f.result ++ [.punct .openBrace]))

theorem Function.Writable.header_spells {f : Function} (writable : f.Writable) :
    Spells f.headerLine f.headerTokens := by
  have start := (spells_of_isIdentifier writable.identifier).after
    (by decide : Lead "fn " [.ident "fn"])
  have params_spell := Spells.intercalate fun param member => (writable.params param member).spells
  have opening : Trail " \x7b" [.punct .openBrace] := by decide
  have open_spells := start.between params_spell (by decide : Gap "(" [.punct .openParen])
  have callable := open_spells.followed (by decide : Trail ")" [.punct .closeParen])
  rw [Function.headerLine, Function.headerTokens]
  cases same : f.result with
  | none =>
    simpa [Function.resultTokens, String.append_assoc] using callable.followed opening
  | some result =>
    have result_spells := (writable.result.writable result same).spells
    have returning := callable.between result_spells
      (by decide : Gap " -> " [.punct .arrow])
    simpa [-String.reduceAppend, Function.resultTokens, String.append_assoc] using
      returning.followed opening

end Lir
