import Lir.Proofs.Source.Spelling

/-!
Printed tokens read back.

On the tokens of a printed form its reader takes exactly these and stops, whatever follows. The
kinds of line that are tried earlier take less than the whole line or nothing, also on lines whose
names are words of the language.
-/

set_option autoImplicit false

namespace Lir

def Line.ofInstruction : Instruction → Line
  | .op _ _ operation => .op operation
  | .term _ terminator => .term terminator

namespace Reader

variable {α : Type} {item : Reader α} {tokensOf : α → List Token}

/-! ### Lists -/

def Takes (item : Reader α) (tokens : List Token) (value : α) : Prop :=
  ∀ rest, item (tokens ++ rest) = some (value, rest)

theorem intercalate_cons (first : List Token) (later : List (List Token)) :
    List.intercalate [.punct .comma] (first :: later) =
      first ++ later.flatMap fun tokens => .punct .comma :: tokens := by
  induction later generalizing first with
  | nil => rw [List.intercalate_singleton, List.flatMap_nil, List.append_nil]
  | cons next later ih =>
    rw [List.intercalate_cons_cons, ih, List.flatMap_cons, List.append_assoc]
    rfl

theorem more_takes {values : List α}
    (takes : ∀ value ∈ values, Takes item (tokensOf value) value) {rest : List Token}
    (stops : ∀ token ∈ rest.head?, isComma token = false) {steps : Nat}
    (enough : values.length ≤ steps) :
    more isComma item steps
      ((values.flatMap fun value => .punct .comma :: tokensOf value) ++ rest) = (values, rest) := by
  induction values generalizing steps with
  | nil =>
    rw [List.flatMap_nil, List.nil_append]
    cases steps with
    | zero => rfl
    | succ steps =>
      cases rest with
      | nil => rfl
      | cons token rest => rw [more, stops token rfl]; rfl
  | cons value values ih =>
    obtain ⟨first, later⟩ := List.forall_mem_cons.1 takes
    have some_step : steps ≠ 0 := Nat.ne_of_gt (Nat.lt_of_lt_of_le (Nat.succ_pos _) enough)
    obtain ⟨steps, rfl⟩ := Nat.exists_eq_succ_of_ne_zero some_step
    have separated : isComma (.punct .comma) = true := rfl
    rw [List.flatMap_cons, List.append_assoc, List.cons_append, more, if_pos separated, first]
    simp only
    rw [ih later (Nat.le_of_succ_le_succ enough)]

theorem length_le_separated (values : List α) (rest : List Token) :
    values.length ≤
      ((values.flatMap fun value => .punct .comma :: tokensOf value) ++ rest).length := by
  induction values with
  | nil => exact Nat.zero_le _
  | cons value values ih =>
    simp only [List.flatMap_cons, List.length_append, List.length_cons] at ih ⊢
    omega

theorem list_takes {values : List α} (not_empty : values ≠ [])
    (takes : ∀ value ∈ values, Takes item (tokensOf value) value) {rest : List Token}
    (stops : ∀ token ∈ rest.head?, isComma token = false) :
    list isComma item (List.intercalate [.punct .comma] (values.map tokensOf) ++ rest) =
      some (values, rest) := by
  cases values with
  | nil => exact absurd rfl not_empty
  | cons value values =>
    obtain ⟨first, later⟩ := List.forall_mem_cons.1 takes
    rw [List.map_cons, intercalate_cons, List.flatMap_map, List.append_assoc, list, first]
    simp only [Option.bind_eq_bind, Option.bind_some]
    rw [more_takes later stops (length_le_separated _ _)]

theorem listOrNone_takes {values : List α}
    (takes : ∀ value ∈ values, Takes item (tokensOf value) value)
    (no_item : ∀ rest, item (.punct .closeParen :: rest) = none) (rest : List Token) :
    listOrNone isComma item
        (List.intercalate [.punct .comma] (values.map tokensOf) ++ .punct .closeParen :: rest) =
      (values, .punct .closeParen :: rest) := by
  by_cases empty : values = []
  · subst empty
    rw [List.map_nil, List.intercalate_nil, List.nil_append, listOrNone, list, no_item]
    rfl
  · have stops : ∀ token ∈ (Token.punct .closeParen :: rest).head?, isComma token = false := by
      rintro _ ⟨⟩
      rfl
    rw [listOrNone, list_takes empty takes stops]
    rfl

/-! ### Types -/

theorem length_le_intercalate {lists : List (List Token)} {tokens : List Token}
    (member : tokens ∈ lists) :
    tokens.length ≤ (List.intercalate [.punct .comma] lists).length := by
  cases lists with
  | nil => exact absurd member List.not_mem_nil
  | cons first later =>
    rw [intercalate_cons, List.length_append]
    rcases List.mem_cons.1 member with rfl | inside
    · exact Nat.le_add_right _ _
    · have listed : .punct .comma :: tokens ∈ later.map fun tokens => .punct .comma :: tokens :=
        List.mem_map.2 ⟨tokens, inside, rfl⟩
      have part := (List.sublist_flatten_of_mem listed).length_le
      rw [← List.flatMap_def, List.length_cons] at part
      omega

theorem tokens_ne_blank {type : Ty} (not_blank : type ≠ .record "_") (rest more : List Token) :
    type.tokens ++ rest ≠ .ident "_" :: more := by
  intro same
  cases type with
  | int => simp [Ty.tokens] at same
  | record name =>
    simp only [Ty.tokens, List.cons_append, List.nil_append, List.cons.injEq,
      Token.ident.injEq] at same
    exact not_blank (congrArg Ty.record same.1)
  | pointer pointee => simp [Ty.tokens] at same
  | function params result => simp [Ty.tokens] at same

theorem result_takes {ty : Reader Ty} {type? : Option Ty}
    (takes : ∀ type ∈ type?, Takes ty type.tokens type)
    (not_blank : ∀ type ∈ type?, type ≠ .record "_") :
    Takes (result ty) (Ty.tokensResult type?) type? := by
  intro rest
  cases type? with
  | none => rfl
  | some type =>
    rw [Ty.tokensResult, result.eq_2 _ _ fun more => tokens_ne_blank (not_blank type rfl) rest more,
      takes type rfl]
    rfl

theorem signatureTail_takes {ty : Reader Ty} {params : List Ty} {type? : Option Ty}
    (params_takes : ∀ param ∈ params, Takes ty param.tokens param)
    (result_takes : Takes (result ty) (Ty.tokensResult type?) type?)
    (no_param : ∀ rest, ty (.punct .closeParen :: rest) = none) :
    Takes (signatureTail ty)
      (List.intercalate [.punct .comma] (Ty.tokensParams params) ++
        .punct .closeParen :: .punct .arrow :: Ty.tokensResult type?) ⟨params, type?⟩ := by
  intro rest
  have listed := listOrNone_takes params_takes no_param
    (.punct .arrow :: (Ty.tokensResult type? ++ rest))
  rw [Ty.tokensParams_eq_map, List.append_assoc, List.cons_append, List.cons_append, signatureTail,
    listed]
  simp only
  rw [result_takes]
  rfl

theorem tyWithin_takes {type : Ty} (writable : type.Writable) {levels : Nat}
    (enough : type.tokens.length ≤ levels) : Takes (tyWithin levels) type.tokens type := by
  -- Each level of nesting takes a token of its own, which pays for one level of the reader.
  induction writable generalizing levels with
  | int =>
    obtain ⟨levels, rfl⟩ := Nat.exists_eq_add_of_le' enough
    exact fun rest => rfl
  | record _ not_int =>
    obtain ⟨levels, rfl⟩ := Nat.exists_eq_add_of_le' enough
    intro rest
    rw [Ty.tokens, List.cons_append]
    exact congrArg (fun type => some (type, rest)) (if_neg not_int)
  | @pointer pointee _ ih =>
    rw [Ty.tokens, List.length_cons] at enough
    obtain ⟨levels, rfl⟩ := Nat.exists_eq_add_of_le' (Nat.le_trans (Nat.le_add_left 1 _) enough)
    intro rest
    rw [Ty.tokens, List.cons_append, tyWithin, ih (Nat.le_of_succ_le_succ enough)]
    rfl
  | @function params type? _ _ not_blank params_ih result_ih =>
    rw [Ty.tokens, List.length_append, List.length_cons, List.length_cons,
      List.length_cons] at enough
    obtain ⟨levels, rfl⟩ := Nat.exists_eq_add_of_le' (Nat.le_trans (Nat.le_add_left 1 _) enough)
    intro rest
    have params_take : ∀ param ∈ params, Takes (tyWithin levels) param.tokens param := by
      intro param member
      refine params_ih param member ?_
      have part := length_le_intercalate
        (Ty.tokensParams_eq_map params ▸ List.mem_map_of_mem (f := Ty.tokens) member)
      omega
    have result_takes : Takes (result (tyWithin levels)) (Ty.tokensResult type?) type? := by
      refine result_takes (fun type same => result_ih type same ?_) not_blank
      cases same
      rw [Ty.tokensResult] at enough
      omega
    have read := signatureTail_takes params_take result_takes
      (fun rest => by cases levels <;> rfl) rest
    rw [Ty.tokens, List.cons_append, List.cons_append, tyWithin, read]
    rfl

theorem ty_takes {type : Ty} (writable : type.Writable) : Takes ty type.tokens type := fun rest =>
  tyWithin_takes writable (by rw [List.length_append]; exact Nat.le_add_right _ _) rest

theorem ty_closeParen (rest : List Token) : ty (.punct .closeParen :: rest) = none := rfl

theorem signature_takes {signature : Signature} (writable : signature.toTy.Writable) :
    Takes Reader.signature signature.toTy.tokens signature := by
  intro rest
  obtain ⟨params, type?⟩ := signature
  cases writable with
  | function params_writable result_writable not_blank =>
    have read := signatureTail_takes (fun param member => ty_takes (params_writable param member))
      (result_takes (fun type same => ty_takes (result_writable type same)) not_blank)
      ty_closeParen rest
    rw [Signature.toTy, Ty.tokens, List.cons_append, List.cons_append, Reader.signature, read]

theorem typedName_takes (name : String) {type : Ty} (writable : type.Writable) :
    Takes typedName (tokensTyped name type) (name, type) := by
  intro rest
  rw [tokensTyped, List.cons_append, List.cons_append, typedName, ty_takes writable]
  rfl

/-! ### Instructions -/

@[simp] theorem operand_token (value : Operand) (rest : List Token) :
    operand (value.token :: rest) = some (value, rest) := by
  cases value with
  | var name => rfl
  | const value => rw [Operand.token, operand, numberValue_toDigits, Int32.ofInt_toInt]

@[simp] theorem ofName?_arith (op : ArithOp) : ArithOp.ofName? op.name = some op := by
  cases op <;> decide

@[simp] theorem ofName?_cmp (op : CmpOp) : CmpOp.ofName? op.name = some op := by
  cases op <;> decide

@[simp] theorem ofWord?_word (kind : CallKind) : CallKind.ofWord? kind.word = some kind := by
  cases kind <;> decide

theorem call_tokens (site : Call) :
    call site.dst site.tokensFromWord = some (.call site, []) := by
  obtain ⟨dst, kind, callee, args, next⟩ := site
  have args_take : ∀ arg ∈ args, Takes operand [arg.token] arg := fun arg _ => operand_token arg
  have listed := listOrNone_takes args_take fun _ => rfl
  rw [Call.tokensFromWord, call, ofWord?_word, operands, listed]
  cases next <;> rfl

theorem assigned_tokensFromWord (site : Call) (dst : String) :
    assigned dst site.tokensFromWord = call (some dst) site.tokensFromWord := by
  obtain ⟨_, kind, _, _, _⟩ := site
  cases kind <;> rfl

theorem instruction_tokensFromWord (site : Call) :
    instruction site.tokensFromWord =
      (call none site.tokensFromWord).map fun read => (.op read.1, read.2) := by
  obtain ⟨dst, kind, callee, args, next⟩ := site
  have falls : instruction (Call.tokensFromWord ⟨dst, kind, callee, args, next⟩) =
      (call none (Call.tokensFromWord ⟨dst, kind, callee, args, next⟩)).bind fun read =>
        some (.op read.1, read.2) := by
    cases kind <;> rfl
  rw [falls, Option.map_eq_bind]
  rfl

theorem instruction_op (operation : Op) :
    instruction operation.tokens = some (.op operation, []) := by
  cases operation with
  | call site =>
    have read := call_tokens site
    rw [Op.tokens, Call.tokens]
    cases same : site.dst with
    | some dst =>
      rw [same] at read
      simp only [instruction, assigned_tokensFromWord, read, Option.bind_eq_bind,
        Option.bind_some]
    | none =>
      rw [same] at read
      simp only [instruction_tokensFromWord, read, Option.map_some]
  | alloc dst size id => cases id <;> simp [Op.tokens, instruction, assigned, allocId]
  | _ => simp [Op.tokens, instruction, assigned]

theorem instruction_term (terminator : Terminator) :
    instruction terminator.tokens = some (.term terminator, []) := by
  cases terminator with
  | ret value =>
    cases value with
    | none => rfl
    | some value => simp [Terminator.tokens, instruction, ret]
  | _ => simp [Terminator.tokens, instruction, ident]

/-! ### Kinds of line -/

theorem complete_of_eq {reader : Reader α} {tokens rest : List Token} {value : α}
    (read : reader tokens = some (value, rest)) :
    reader.complete tokens = if rest = [] then some value else none := by
  rw [complete, read]
  cases rest <;> rfl

theorem complete_of_none {reader : Reader α} {tokens : List Token}
    (unread : reader tokens = none) : reader.complete tokens = none := by
  rw [complete, unread]

theorem ofTokens?_eq_some (earlier : List (Reader Line)) {reader : Reader Line}
    {later : List (Reader Line)} (order : kinds = earlier ++ reader :: later)
    {tokens : List Token} {line : Line}
    (others : ∀ other ∈ earlier, other.complete tokens = none)
    (read : reader tokens = some (line, [])) : Line.ofTokens? tokens = some line := by
  rw [Line.ofTokens?, order, List.findSome?_append, List.findSome?_eq_none_iff.2 others,
    List.findSome?_cons, complete_of_eq read]
  rfl

theorem recordHeader_word {name : String} (other : name ≠ "struct") (rest : List Token) :
    recordHeader (.ident name :: rest) = none := by
  rw [recordHeader.eq_def]
  split
  next same => exact absurd (Token.ident.inj (List.cons.inj same).1) other
  next => rfl

theorem functionHeader_word {name : String} (other : name ≠ "fn") (rest : List Token) :
    functionHeader (.ident name :: rest) = none := by
  rw [functionHeader.eq_def]
  split
  next same => exact absurd (Token.ident.inj (List.cons.inj same).1) other
  next => rfl

theorem external_word {name : String} (other : name ≠ "extern") (rest : List Token) :
    external (.ident name :: rest) = none := by
  rw [external.eq_def]
  split
  next same => exact absurd (Token.ident.inj (List.cons.inj same).1) other
  next => rfl

/-- A mark after the first word makes the line none of those that start with a word, whatever the
first word is. -/
theorem complete_of_mark (name : String) (mark : Punct) (rest : List Token) :
    ∀ reader ∈ [recordHeader, functionHeader, external, locals, close],
      reader.complete (.ident name :: .punct mark :: rest) = none := by
  simp only [List.forall_mem_cons]
  -- After `struct`, `fn` and `extern` comes a name, and after `let` a name with its type.
  refine ⟨complete_of_none ?_, complete_of_none ?_, complete_of_none ?_, complete_of_none ?_, rfl,
    fun _ member => absurd member List.not_mem_nil⟩
  · rw [recordHeader.eq_def]
    split
    next same => simp at same
    next => rfl
  · rw [functionHeader.eq_def]
    split
    next same => simp at same
    next => rfl
  · rw [external.eq_def]
    split
    next same => simp at same
    next => rfl
  · rw [locals.eq_def]
    split
    next same =>
      obtain ⟨_, rfl⟩ := List.cons.inj same
      rfl
    next => rfl

theorem ofTokens?_assigned {name : String} {rest : List Token} {line : Line}
    (read : instruction (.ident name :: .punct .equals :: rest) = some (line, [])) :
    Line.ofTokens? (.ident name :: .punct .equals :: rest) = some line :=
  ofTokens?_eq_some _ rfl (complete_of_mark name .equals rest) read

theorem ofTokens?_opcode {word : String} {rest : List Token} {line : Line}
    (read : instruction (.opcode word :: rest) = some (line, [])) :
    Line.ofTokens? (.opcode word :: rest) = some line := by
  refine ofTokens?_eq_some [recordHeader, functionHeader, external, locals, close] rfl ?_ read
  simp only [List.forall_mem_cons]
  exact ⟨rfl, rfl, rfl, rfl, rfl, fun _ member => absurd member List.not_mem_nil⟩

theorem ofTokens?_op (operation : Op) : Line.ofTokens? operation.tokens = some (.op operation) := by
  have read := instruction_op operation
  cases operation with
  | call site =>
    obtain ⟨dst, kind, callee, args, next⟩ := site
    cases dst with
    | none => exact ofTokens?_opcode read
    | some dst => exact ofTokens?_assigned read
  | alloc dst size id =>
    cases id with
    | none => exact ofTokens?_assigned read
    | some id => exact ofTokens?_assigned read
  | store dst value => exact ofTokens?_opcode read
  | _ => exact ofTokens?_assigned read

theorem ofTokens?_term (terminator : Terminator) :
    Line.ofTokens? terminator.tokens = some (.term terminator) := by
  have read := instruction_term terminator
  cases terminator with
  | jump target => exact ofTokens?_opcode read
  | branch cond thenBlock elseBlock => exact ofTokens?_opcode read
  | ret value =>
    cases value with
    | none => exact ofTokens?_opcode read
    | some value => exact ofTokens?_opcode read

theorem ofTokens?_instruction (inst : Instruction) :
    Line.ofTokens? inst.tokens = some (.ofInstruction inst) := by
  cases inst with
  | op block index operation => exact ofTokens?_op operation
  | term block terminator => exact ofTokens?_term terminator

/-- A name before a colon is no instruction: even `ret` would leave the colon behind. -/
theorem complete_instruction_colon (name : String) (rest : List Token) :
    instruction.complete (.ident name :: .punct .colon :: rest) = none := by
  by_cases same : name = "ret"
  · subst same
    rfl
  · refine complete_of_none ?_
    rw [instruction.eq_def]
    split
    case h_6 again => exact absurd (Token.ident.inj (List.cons.inj again).1) same
    case h_7 => rfl
    all_goals rename_i again; simp at again

theorem ofTokens?_label (name : String) :
    Line.ofTokens? [.ident name, .punct .colon] = some (.label name) := by
  refine ofTokens?_eq_some [recordHeader, functionHeader, external, locals, close, instruction] rfl
    ?_ rfl
  exact List.forall_mem_append.2 ⟨complete_of_mark name .colon [],
    List.forall_mem_singleton.2 (complete_instruction_colon name [])⟩

-- A label is tried before a declaration, and would leave the type behind.
theorem ofTokens?_declaration {name : String} {type : Ty} (writable : type.Writable) :
    Line.ofTokens? (tokensTyped name type) = some (.declaration name type) := by
  have read : declaration (tokensTyped name type) = some (.declaration name type, []) := by
    have taken := typedName_takes name writable []
    rw [List.append_nil] at taken
    rw [declaration, taken]
    rfl
  have no_label : label.complete (tokensTyped name type) = none := by
    have some_token : type.tokens ≠ [] := by cases type <;> exact List.cons_ne_nil _ _
    have read : label (tokensTyped name type) = some (.label name, type.tokens) := rfl
    exact (complete_of_eq read).trans (if_neg some_token)
  refine ofTokens?_eq_some
    [recordHeader, functionHeader, external, locals, close, instruction, label] rfl ?_ read
  exact List.forall_mem_append.2 ⟨complete_of_mark name .colon type.tokens,
    List.forall_mem_cons.2 ⟨complete_instruction_colon name type.tokens,
      List.forall_mem_singleton.2 no_label⟩⟩

theorem ofTokens?_recordHeader (r : RecordDef) :
    Line.ofTokens? r.headerTokens = some (.recordHeader r.name [] false) :=
  ofTokens?_eq_some [] rfl (fun _ member => absurd member List.not_mem_nil) rfl

theorem headerResult_takes {type? : Option Ty} (writable : WritableResult type?)
    (rest : List Token) :
    headerResult (Function.resultTokens type? ++ .punct .openBrace :: rest) =
      (type?, .punct .openBrace :: rest) := by
  have taken := result_takes (fun type same => ty_takes (writable.writable type same))
    writable.not_blank (.punct .openBrace :: rest)
  cases type? with
  | none => rfl
  | some type => exact congrArg (Option.getD · _) taken

theorem ofTokens?_functionHeader {f : Function} (writable : f.Writable) :
    Line.ofTokens? f.headerTokens = some (.functionHeader f.name
      (f.params.map fun param => (param.name, param.ty)) f.result) := by
  have params_take : ∀ entry ∈ f.params.map fun param => (param.name, param.ty),
      Takes typedName (tokensTyped entry.1 entry.2) entry := by
    intro entry member
    obtain ⟨param, listed, rfl⟩ := List.mem_map.1 member
    exact typedName_takes param.name (writable.params param listed).writable
  have listed := listOrNone_takes params_take fun _ => rfl
  have read : functionHeader f.headerTokens = some (.functionHeader f.name
      (f.params.map fun param => (param.name, param.ty)) f.result, []) := by
    simp only [List.map_map, Function.comp_def] at listed
    simp only [Function.headerTokens, functionHeader, listed, headerResult_takes writable.result]
  exact ofTokens?_eq_some [recordHeader] rfl
    (List.forall_mem_singleton.2 (complete_of_none (recordHeader_word (by decide) _))) read

theorem ofTokens?_external {name : String} {signature : Signature}
    (writable : signature.toTy.Writable) :
    Line.ofTokens? (.ident "extern" :: tokensTyped name signature.toTy) =
      some (.external name signature) := by
  have taken := signature_takes writable []
  rw [List.append_nil] at taken
  have read : external (.ident "extern" :: tokensTyped name signature.toTy) =
      some (.external name signature, []) := by
    rw [tokensTyped, external, taken]
    rfl
  refine ofTokens?_eq_some [recordHeader, functionHeader] rfl ?_ read
  exact List.forall_mem_cons.2 ⟨complete_of_none (recordHeader_word (by decide) _),
    List.forall_mem_singleton.2 (complete_of_none (functionHeader_word (by decide) _))⟩

theorem ofTokens?_locals {names : List (String × Ty)} (not_empty : names ≠ [])
    (writable : ∀ entry ∈ names, entry.2.Writable) :
    Line.ofTokens? (.ident "let" :: List.intercalate [.punct .comma]
        (names.map fun entry => tokensTyped entry.1 entry.2)) = some (.locals names) := by
  have names_take : ∀ entry ∈ names, Takes typedName (tokensTyped entry.1 entry.2) entry :=
    fun entry member => typedName_takes entry.1 (writable entry member)
  have nothing_left : ∀ token ∈ ([] : List Token).head?, isComma token = false :=
    fun _ absent => by simp at absent
  have listed := list_takes not_empty names_take nothing_left
  rw [List.append_nil] at listed
  have read : locals (.ident "let" :: List.intercalate [.punct .comma]
      (names.map fun entry => tokensTyped entry.1 entry.2)) = some (.locals names, []) := by
    rw [locals, listed]
    rfl
  refine ofTokens?_eq_some [recordHeader, functionHeader, external] rfl ?_ read
  exact List.forall_mem_cons.2 ⟨complete_of_none (recordHeader_word (by decide) _),
    List.forall_mem_cons.2 ⟨complete_of_none (functionHeader_word (by decide) _),
      List.forall_mem_singleton.2 (complete_of_none (external_word (by decide) _))⟩⟩

theorem ofTokens?_close : Line.ofTokens? [.punct .closeBrace] = some .close := rfl

theorem ofTokens?_nil : Line.ofTokens? [] = some .blank := rfl

end Reader

end Lir
