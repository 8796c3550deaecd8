import Lir.Proofs.Source.Scan
import Lir.Proofs.Source.Writable

/-!
What a source line holds is spelled in it.

Every name that scanning finds is an identifier, and a reader makes up no name. So a line that
reads well holds only what can be written again.
-/

set_option autoImplicit false

namespace Lir

/-! ### Names of a text -/

namespace Token

def Legible (tokens : List Token) : Prop := ∀ name, .ident name ∈ tokens → isIdentifier name

@[simp] theorem legible_nil : Legible [] := fun _ member => absurd member List.not_mem_nil

@[simp] theorem legible_ident (name : String) (rest : List Token) :
    Legible (.ident name :: rest) ↔ isIdentifier name ∧ Legible rest := by
  simp [Legible, or_imp, forall_and]

@[simp] theorem legible_number (negative : Bool) (digits : List Char) (rest : List Token) :
    Legible (.number negative digits :: rest) ↔ Legible rest := by
  simp [Legible]

@[simp] theorem legible_opcode (word : String) (rest : List Token) :
    Legible (.opcode word :: rest) ↔ Legible rest := by
  simp [Legible]

@[simp] theorem legible_punct (mark : Punct) (rest : List Token) :
    Legible (.punct mark :: rest) ↔ Legible rest := by
  simp [Legible]

theorem Legible.tail {token : Token} {rest : List Token} (legible : Legible (token :: rest)) :
    Legible rest :=
  fun name member => legible name (List.mem_cons_of_mem token member)

theorem First.legible {text rest : List Char} {token : Token} (first : First text token rest)
    {tokens : List Token} (legible : Legible tokens) : Legible (token :: tokens) := by
  cases first with
  | opcode => exact (legible_opcode _ _).2 legible
  | arrow => exact (legible_punct _ _).2 legible
  | negative => exact (legible_number _ _ _).2 legible
  | number => exact (legible_number _ _ _).2 legible
  | @ident c start tail =>
    have spelled : isIdentifier (.ofList (c :: tail.takeWhile isWordChar)) :=
      (isIdentifier_iff _).2
        ⟨c, _, String.toList_ofList, start, fun _ member => List.mem_takeWhile_imp member⟩
    exact (legible_ident _ _).2 ⟨spelled, legible⟩
  | punct => exact (legible_punct _ _).2 legible

theorem legible_of_scan {text : List Char} {tokens : List Token}
    (scanned : scan text = some tokens) : Legible tokens := by
  obtain ⟨length, same⟩ : ∃ length, text.length = length := ⟨_, rfl⟩
  induction length using Nat.strong_induction_on generalizing text tokens with
  | _ length ih =>
    subst same
    by_cases nothing : skipBlanks text = []
    · rw [scan_of_nothing nothing] at scanned
      exact Option.some.inj scanned ▸ legible_nil
    · rw [scan_of_something nothing] at scanned
      obtain ⟨⟨token, rest⟩, found, scanned_on⟩ := Option.bind_eq_some_iff.1 scanned
      dsimp only at scanned_on
      obtain ⟨later, scanned_rest, rfl⟩ := Option.map_eq_some_iff.1 scanned_on
      have first := (first?_eq_some_iff _ _ _).1 found
      have shorter := Nat.lt_of_lt_of_le first.length_lt (length_skipBlanks_le text)
      exact first.legible (ih rest.length shorter scanned_rest rfl)

end Token

open Token (Legible)

/-! ### Readers of lists -/

namespace Reader

variable {α : Type} {P : α → Prop} {item : Reader α}

/-- From legible tokens a reader gives only values with a property, and leaves legible tokens. -/
def Gives (reader : Reader α) (P : α → Prop) : Prop :=
  ∀ tokens value rest, Legible tokens → reader tokens = some (value, rest) → P value ∧ Legible rest

theorem Gives.more (gives : Gives item P) (separates : Token → Bool) (steps : Nat)
    {tokens : List Token} (legible : Legible tokens) :
    (∀ value ∈ (more separates item steps tokens).1, P value) ∧
      Legible (more separates item steps tokens).2 := by
  induction steps generalizing tokens with
  | zero => simp [Reader.more, legible]
  | succ steps ih =>
    cases tokens with
    | nil => simp [Reader.more]
    | cons token rest =>
      rw [Reader.more]
      split
      · cases read : item rest with
        | none => exact ⟨fun _ member => absurd member List.not_mem_nil, legible⟩
        | some first =>
          obtain ⟨value, after⟩ := first
          obtain ⟨held, legible_after⟩ := gives _ _ _ legible.tail read
          obtain ⟨later, legible_rest⟩ := ih legible_after
          exact ⟨List.forall_mem_cons.2 ⟨held, later⟩, legible_rest⟩
      · exact ⟨fun _ member => absurd member List.not_mem_nil, legible⟩

theorem Gives.list (gives : Gives item P) (separates : Token → Bool) :
    Gives (list separates item) fun values => ∀ value ∈ values, P value := by
  intro tokens values rest legible read
  obtain ⟨⟨value, after⟩, read_first, same⟩ := Option.bind_eq_some_iff.1 read
  obtain ⟨rfl, rfl⟩ := Prod.mk.inj (Option.some.inj same)
  obtain ⟨held, legible_after⟩ := gives _ _ _ legible read_first
  obtain ⟨later, legible_rest⟩ := gives.more separates after.length legible_after
  exact ⟨List.forall_mem_cons.2 ⟨held, later⟩, legible_rest⟩

theorem Gives.listOrNone (gives : Gives item P) (separates : Token → Bool) {tokens : List Token}
    (legible : Legible tokens) :
    (∀ value ∈ (listOrNone separates item tokens).1, P value) ∧
      Legible (listOrNone separates item tokens).2 := by
  rw [Reader.listOrNone]
  cases read : Reader.list separates item tokens with
  | none => exact ⟨fun _ member => absurd member List.not_mem_nil, legible⟩
  | some found => exact gives.list separates _ _ _ legible read

theorem legible_dropSeparator {tokens : List Token} (legible : Legible tokens) :
    Legible (dropSeparator tokens) := by
  cases tokens with
  | nil => exact legible
  | cons token rest =>
    rw [dropSeparator]
    split
    · exact legible.tail
    · exact legible

/-! ### Readers of types -/

/-- A reader of types that a source spells, where only a name spells a record. -/
structure ReadsTypes (ty : Reader Ty) : Prop where
  gives : Gives ty Ty.Writable
  record : ∀ tokens name rest, ty tokens = some (.record name, rest) → tokens = .ident name :: rest

theorem ReadsTypes.result {ty : Reader Ty} (reads : ReadsTypes ty) :
    Gives (result ty) WritableResult := by
  intro tokens value rest legible read
  rw [Reader.result.eq_def] at read
  split at read
  next rest' =>
    obtain ⟨rfl, rfl⟩ := Prod.mk.inj (Option.some.inj read)
    exact ⟨⟨by simp, by simp⟩, legible.tail⟩
  next not_blank =>
    obtain ⟨⟨type, after⟩, read_type, same⟩ := Option.bind_eq_some_iff.1 read
    obtain ⟨rfl, rfl⟩ := Prod.mk.inj (Option.some.inj same)
    obtain ⟨writable, legible_after⟩ := reads.gives _ _ _ legible read_type
    refine ⟨⟨?_, ?_⟩, legible_after⟩
    · rintro _ ⟨⟩
      exact writable
    · -- The record `_` is spelled by its name alone, which was taken for no result before.
      rintro _ ⟨⟩ rfl
      exact not_blank _ (reads.record _ _ _ read_type)

theorem ReadsTypes.signatureTail {ty : Reader Ty} (reads : ReadsTypes ty) :
    Gives (signatureTail ty) fun signature => signature.toTy.Writable := by
  intro tokens value rest legible read
  have params_read := reads.gives.listOrNone isComma legible
  rw [Reader.signatureTail.eq_def] at read
  split at read
  next params rest' listed =>
    rw [listed] at params_read
    obtain ⟨params_writable, legible_params⟩ := params_read
    obtain ⟨⟨result, after⟩, read_result, same⟩ := Option.bind_eq_some_iff.1 read
    obtain ⟨rfl, rfl⟩ := Prod.mk.inj (Option.some.inj same)
    obtain ⟨⟨writable, not_blank⟩, legible_after⟩ :=
      reads.result _ _ _ legible_params.tail.tail read_result
    exact ⟨.function params_writable writable not_blank, legible_after⟩
  next => simp at read

theorem tyWithin_eq_some {levels : Nat} {tokens rest : List Token} {ty : Ty}
    (read : tyWithin levels tokens = some (ty, rest)) :
    ∃ less, levels = less + 1 ∧
      ((∃ after pointee, tokens = .punct .ampersand :: after ∧
          tyWithin less after = some (pointee, rest) ∧ ty = .pointer pointee) ∨
        (∃ after signature, tokens = .punct .openParen :: after ∧
          signatureTail (tyWithin less) after = some (signature, rest) ∧ ty = signature.toTy) ∨
        ∃ name, tokens = .ident name :: rest ∧
          ty = if name = "int" then .int else .record name) := by
  rw [tyWithin.eq_def] at read
  split at read
  next => simp at read
  next levels after =>
    obtain ⟨⟨pointee, left⟩, read_pointee, same⟩ := Option.bind_eq_some_iff.1 read
    obtain ⟨rfl, rfl⟩ := Prod.mk.inj (Option.some.inj same)
    exact ⟨levels, rfl, .inl ⟨after, pointee, rfl, read_pointee, rfl⟩⟩
  next levels after =>
    obtain ⟨⟨signature, left⟩, read_signature, same⟩ := Option.bind_eq_some_iff.1 read
    obtain ⟨rfl, rfl⟩ := Prod.mk.inj (Option.some.inj same)
    exact ⟨levels, rfl, .inr (.inl ⟨after, signature, rfl, read_signature, rfl⟩)⟩
  next levels name after =>
    obtain ⟨rfl, rfl⟩ := Prod.mk.inj (Option.some.inj read)
    exact ⟨levels, rfl, .inr (.inr ⟨name, rfl, rfl⟩)⟩
  next => simp at read

theorem readsTypes_tyWithin (levels : Nat) : ReadsTypes (tyWithin levels) := by
  induction levels with
  | zero =>
    exact ⟨fun _ _ _ _ read => by simp [tyWithin] at read,
      fun _ _ _ read => by simp [tyWithin] at read⟩
  | succ levels ih =>
    constructor
    · intro tokens ty rest legible read
      obtain ⟨_, same, kinds⟩ := tyWithin_eq_some read
      obtain rfl := Nat.succ.inj same
      rcases kinds with ⟨after, pointee, rfl, read_pointee, rfl⟩ |
        ⟨after, signature, rfl, read_signature, rfl⟩ | ⟨name, rfl, rfl⟩
      · obtain ⟨writable, legible_rest⟩ := ih.gives _ _ _ legible.tail read_pointee
        exact ⟨.pointer writable, legible_rest⟩
      · exact ih.signatureTail _ _ _ legible.tail read_signature
      · refine ⟨?_, legible.tail⟩
        split
        next => exact .int
        next not_int => exact .record ((Token.legible_ident _ _).1 legible).1 not_int
    · intro tokens record rest read
      obtain ⟨_, _, kinds⟩ := tyWithin_eq_some read
      rcases kinds with ⟨_, _, _, _, same⟩ | ⟨_, _, _, _, same⟩ | ⟨name, rfl, same⟩
      · simp at same
      · simp [Signature.toTy] at same
      · split at same
        · simp at same
        · rw [Ty.record.inj same]

theorem readsTypes_ty : ReadsTypes ty :=
  ⟨fun tokens => (readsTypes_tyWithin tokens.length).gives tokens,
    fun tokens => (readsTypes_tyWithin tokens.length).record tokens⟩

theorem gives_signature : Gives signature fun signature => signature.toTy.Writable := by
  intro tokens value rest legible read
  rw [signature.eq_def] at read
  split at read
  next => exact readsTypes_ty.signatureTail _ _ _ legible.tail read
  next => simp at read

theorem gives_typedName : Gives typedName fun entry => WritableTyped entry.1 entry.2 := by
  intro tokens value rest legible read
  rw [typedName.eq_def] at read
  split at read
  next =>
    simp only [Token.legible_ident, Token.legible_punct] at legible
    obtain ⟨identifier, legible⟩ := legible
    obtain ⟨⟨type, after⟩, read_type, same⟩ := Option.bind_eq_some_iff.1 read
    obtain ⟨rfl, rfl⟩ := Prod.mk.inj (Option.some.inj same)
    obtain ⟨writable, legible_after⟩ := readsTypes_ty.gives _ _ _ legible read_type
    exact ⟨⟨identifier, writable⟩, legible_after⟩
  next => simp at read

/-! ### Readers of instructions -/

theorem gives_operand :
    Gives operand fun value => ∀ name ∈ value.name?, isIdentifier name := by
  intro tokens value rest legible read
  rw [operand.eq_def] at read
  split at read
  next =>
    obtain ⟨rfl, rfl⟩ := Prod.mk.inj (Option.some.inj read)
    simpa [Operand.name?] using legible
  next =>
    obtain ⟨rfl, rfl⟩ := Prod.mk.inj (Option.some.inj read)
    simpa [Operand.name?] using legible
  next => simp at read

theorem legible_allocId {tokens : List Token} (legible : Legible tokens) :
    (∀ id ∈ (allocId tokens).1, isIdentifier id) ∧ Legible (allocId tokens).2 := by
  rw [allocId.eq_def]
  split <;> simpa using legible

theorem legible_continuation {tokens : List Token} (legible : Legible tokens) :
    (∀ block ∈ (continuation tokens).1, isIdentifier block) ∧ Legible (continuation tokens).2 := by
  rw [continuation.eq_def]
  split
  next => simpa using legible.tail
  next => simpa using legible

theorem gives_call {dst : Option String} (dst_identifier : ∀ name ∈ dst, isIdentifier name) :
    Gives (call dst) fun operation => Identifiers operation.names := by
  intro tokens value rest legible read
  rw [call.eq_def] at read
  split at read
  next word callee after =>
    simp only [Token.legible_opcode, Token.legible_ident, Token.legible_punct] at legible
    obtain ⟨callee_identifier, legible⟩ := legible
    obtain ⟨kind, _, read⟩ := Option.bind_eq_some_iff.1 read
    have args_read := gives_operand.listOrNone isComma legible
    split at read
    next args left listed =>
      rw [operands] at listed
      rw [listed] at args_read
      obtain ⟨args_identifiers, legible_args⟩ := args_read
      obtain ⟨next_identifier, legible_rest⟩ := legible_continuation legible_args.tail
      obtain ⟨rfl, rfl⟩ := Prod.mk.inj (Option.some.inj read)
      refine ⟨?_, legible_rest⟩
      simp only [Op.names, identifiers_append, identifiers_cons, identifiers_toList,
        identifiers_filterMap]
      exact ⟨dst_identifier, callee_identifier, args_identifiers, next_identifier⟩
    next => simp at read
  next => simp at read

theorem gives_assigned {dst : String} (dst_identifier : isIdentifier dst) :
    Gives (assigned dst) fun operation => Identifiers operation.names := by
  intro tokens value rest legible read
  rw [assigned.eq_def] at read
  split at read
  case h_1 =>
    obtain ⟨⟨src, left⟩, read_src, same⟩ := Option.bind_eq_some_iff.1 read
    obtain ⟨rfl, rfl⟩ := Prod.mk.inj (Option.some.inj same)
    obtain ⟨src_identifier, legible_rest⟩ := gives_operand _ _ _ legible.tail read_src
    simp only [Op.names, identifiers_cons, identifiers_toList]
    exact ⟨⟨dst_identifier, src_identifier⟩, legible_rest⟩
  case h_2 | h_3 =>
    obtain ⟨op, _, read⟩ := Option.bind_eq_some_iff.1 read
    obtain ⟨⟨lhs, left⟩, read_lhs, read⟩ := Option.bind_eq_some_iff.1 read
    obtain ⟨⟨rhs, left'⟩, read_rhs, same⟩ := Option.bind_eq_some_iff.1 read
    obtain ⟨rfl, rfl⟩ := Prod.mk.inj (Option.some.inj same)
    obtain ⟨lhs_identifier, legible_left⟩ := gives_operand _ _ _ legible.tail.tail read_lhs
    obtain ⟨rhs_identifier, legible_rest⟩ := gives_operand _ _ _ legible_left read_rhs
    simp only [Op.names, identifiers_cons, identifiers_append, identifiers_toList]
    exact ⟨⟨dst_identifier, lhs_identifier, rhs_identifier⟩, legible_rest⟩
  case h_4 =>
    obtain ⟨⟨index, left⟩, read_index, same⟩ := Option.bind_eq_some_iff.1 read
    obtain ⟨rfl, rfl⟩ := Prod.mk.inj (Option.some.inj same)
    simp only [Token.legible_opcode, Token.legible_ident] at legible
    obtain ⟨index_identifier, legible_rest⟩ := gives_operand _ _ _ legible.2 read_index
    simp only [Op.names, identifiers_cons, identifiers_toList]
    exact ⟨⟨dst_identifier, legible.1, index_identifier⟩, legible_rest⟩
  case h_5 =>
    obtain ⟨rfl, rfl⟩ := Prod.mk.inj (Option.some.inj read)
    simp only [Token.legible_opcode, Token.legible_ident] at legible
    simp only [Op.names, identifiers_cons, identifiers_nil, and_true]
    exact ⟨⟨dst_identifier, legible.1, legible.2.1⟩, legible.2.2⟩
  case h_6 =>
    obtain ⟨⟨size, left⟩, read_size, same⟩ := Option.bind_eq_some_iff.1 read
    obtain ⟨size_identifier, legible_left⟩ := gives_operand _ _ _ legible.tail read_size
    obtain ⟨id_identifier, legible_rest⟩ := legible_allocId legible_left
    obtain ⟨rfl, rfl⟩ := Prod.mk.inj (Option.some.inj same)
    simp only [Op.names, identifiers_cons, identifiers_append, identifiers_toList]
    exact ⟨⟨dst_identifier, size_identifier, id_identifier⟩, legible_rest⟩
  case h_7 | h_8 =>
    obtain ⟨rfl, rfl⟩ := Prod.mk.inj (Option.some.inj read)
    simp only [Token.legible_opcode, Token.legible_ident] at legible
    simp only [Op.names, identifiers_cons, identifiers_nil, and_true]
    exact ⟨⟨dst_identifier, legible.1⟩, legible.2⟩
  case h_9 =>
    refine gives_call ?_ _ _ _ legible read
    rintro _ ⟨⟩
    exact dst_identifier

end Reader

/-! ### Lines -/

def Line.Writable : Line → Prop
  | .blank | .close => True
  | .recordHeader name fields _ =>
    isIdentifier name ∧ ∀ field ∈ fields, WritableTyped field.1 field.2
  | .functionHeader name params result =>
    isIdentifier name ∧ (∀ param ∈ params, WritableTyped param.1 param.2) ∧ WritableResult result
  | .external name signature => WritableTyped name signature.toTy
  | .locals names => ∀ entry ∈ names, WritableTyped entry.1 entry.2
  | .declaration name ty => WritableTyped name ty
  | .label name => isIdentifier name
  | .op operation => Identifiers operation.names
  | .term terminator => Identifiers terminator.names

namespace Reader

theorem writable_ret {tokens : List Token} (legible : Legible tokens) :
    (ret tokens).1.Writable ∧ Legible (ret tokens).2 := by
  rw [ret]
  cases read : operand tokens with
  | none => exact ⟨identifiers_nil, legible⟩
  | some found =>
    obtain ⟨identifier, legible_rest⟩ := gives_operand _ _ _ legible read
    refine ⟨?_, legible_rest⟩
    simpa [Line.Writable, Terminator.names] using identifier

theorem gives_ident : Gives ident fun name => isIdentifier name := by
  intro tokens value rest legible read
  rw [ident.eq_def] at read
  split at read
  next =>
    obtain ⟨rfl, rfl⟩ := Prod.mk.inj (Option.some.inj read)
    exact (Token.legible_ident _ _).1 legible
  next => simp at read

theorem gives_instruction : Gives instruction Line.Writable := by
  intro tokens value rest legible read
  rw [instruction.eq_def] at read
  split at read
  case h_1 =>
    obtain ⟨⟨operation, left⟩, read_operation, same⟩ := Option.bind_eq_some_iff.1 read
    obtain ⟨rfl, rfl⟩ := Prod.mk.inj (Option.some.inj same)
    simp only [Token.legible_ident, Token.legible_punct] at legible
    exact gives_assigned legible.1 _ _ _ legible.2 read_operation
  case h_2 =>
    obtain ⟨⟨stored, left⟩, read_stored, same⟩ := Option.bind_eq_some_iff.1 read
    obtain ⟨rfl, rfl⟩ := Prod.mk.inj (Option.some.inj same)
    simp only [Token.legible_opcode, Token.legible_ident] at legible
    obtain ⟨stored_identifier, legible_rest⟩ := gives_operand _ _ _ legible.2 read_stored
    simp only [Line.Writable, Op.names, identifiers_cons, identifiers_toList]
    exact ⟨⟨legible.1, stored_identifier⟩, legible_rest⟩
  case h_3 =>
    obtain ⟨rfl, rfl⟩ := Prod.mk.inj (Option.some.inj read)
    simp only [Token.legible_opcode, Token.legible_ident] at legible
    simp only [Line.Writable, Terminator.names, identifiers_cons, identifiers_nil, and_true]
    exact legible
  case h_4 =>
    obtain ⟨⟨cond, left⟩, read_cond, read⟩ := Option.bind_eq_some_iff.1 read
    obtain ⟨⟨thenBlock, left'⟩, read_then, read⟩ := Option.bind_eq_some_iff.1 read
    obtain ⟨⟨elseBlock, left''⟩, read_else, same⟩ := Option.bind_eq_some_iff.1 read
    obtain ⟨rfl, rfl⟩ := Prod.mk.inj (Option.some.inj same)
    obtain ⟨cond_identifier, legible_left⟩ := gives_operand _ _ _ legible.tail read_cond
    obtain ⟨then_identifier, legible_left'⟩ := gives_ident _ _ _ legible_left read_then
    obtain ⟨else_identifier, legible_rest⟩ := gives_ident _ _ _ legible_left' read_else
    simp only [Line.Writable, Terminator.names, identifiers_append, identifiers_cons,
      identifiers_toList, identifiers_nil, and_true]
    exact ⟨⟨cond_identifier, then_identifier, else_identifier⟩, legible_rest⟩
  case h_5 | h_6 =>
    have written := writable_ret legible.tail
    rwa [Option.some.inj read] at written
  case h_7 =>
    obtain ⟨⟨operation, left⟩, read_operation, same⟩ := Option.bind_eq_some_iff.1 read
    obtain ⟨rfl, rfl⟩ := Prod.mk.inj (Option.some.inj same)
    exact gives_call (fun _ absent => by simp at absent) _ _ _ legible read_operation

theorem gives_recordHeader : Gives recordHeader Line.Writable := by
  intro tokens value rest legible read
  rw [recordHeader.eq_def] at read
  split at read
  next name after =>
    simp only [Token.legible_ident, Token.legible_punct] at legible
    obtain ⟨_, identifier, legible⟩ := legible
    obtain ⟨fields_writable, legible_after⟩ := gives_typedName.listOrNone isSeparator legible
    dsimp only at read
    split at read
    next left closed =>
      obtain ⟨rfl, rfl⟩ := Prod.mk.inj (Option.some.inj read)
      have legible_left : Legible (.punct .closeBrace :: left) := by
        rw [← closed]
        split
        · exact legible_after
        · exact legible_dropSeparator legible_after
      exact ⟨⟨identifier, fields_writable⟩, legible_left.tail⟩
    next =>
      -- An open header gives back the fields it may have tried.
      obtain ⟨rfl, rfl⟩ := Prod.mk.inj (Option.some.inj read)
      exact ⟨⟨identifier, fun _ member => absurd member List.not_mem_nil⟩, legible⟩
  next => simp at read

theorem legible_headerResult {tokens : List Token} (legible : Legible tokens) :
    WritableResult (headerResult tokens).1 ∧ Legible (headerResult tokens).2 := by
  have no_result : WritableResult none := ⟨by simp, by simp⟩
  rw [headerResult.eq_def]
  split
  next after =>
    cases read : result ty after with
    | none => exact ⟨no_result, legible⟩
    | some found => exact readsTypes_ty.result _ _ _ legible.tail read
  next => exact ⟨no_result, legible⟩

theorem gives_functionHeader : Gives functionHeader Line.Writable := by
  intro tokens value rest legible read
  rw [functionHeader.eq_def] at read
  split at read
  next name after =>
    simp only [Token.legible_ident, Token.legible_punct] at legible
    obtain ⟨_, identifier, legible⟩ := legible
    have params_read := gives_typedName.listOrNone isComma legible
    split at read
    next params left listed =>
      rw [listed] at params_read
      obtain ⟨params_writable, legible_params⟩ := params_read
      have result_read := legible_headerResult legible_params.tail
      split at read
      next result left' headed =>
        rw [headed] at result_read
        obtain ⟨result_writable, legible_result⟩ := result_read
        obtain ⟨rfl, rfl⟩ := Prod.mk.inj (Option.some.inj read)
        exact ⟨⟨identifier, params_writable, result_writable⟩, legible_result.tail⟩
      next => simp at read
    next => simp at read
  next => simp at read

theorem gives_external : Gives external Line.Writable := by
  intro tokens value rest legible read
  rw [external.eq_def] at read
  split at read
  next name after =>
    simp only [Token.legible_ident, Token.legible_punct] at legible
    obtain ⟨_, identifier, legible⟩ := legible
    obtain ⟨⟨signature, left⟩, read_signature, same⟩ := Option.bind_eq_some_iff.1 read
    obtain ⟨rfl, rfl⟩ := Prod.mk.inj (Option.some.inj same)
    obtain ⟨writable, legible_rest⟩ := gives_signature _ _ _ legible read_signature
    exact ⟨⟨identifier, writable⟩, legible_rest⟩
  next => simp at read

theorem gives_locals : Gives locals Line.Writable := by
  intro tokens value rest legible read
  rw [locals.eq_def] at read
  split at read
  next after =>
    obtain ⟨⟨names, left⟩, read_names, same⟩ := Option.bind_eq_some_iff.1 read
    obtain ⟨rfl, rfl⟩ := Prod.mk.inj (Option.some.inj same)
    obtain ⟨writable, legible_left⟩ := gives_typedName.list isComma _ _ _ legible.tail read_names
    exact ⟨writable, legible_dropSeparator legible_left⟩
  next => simp at read

theorem gives_close : Gives close Line.Writable := by
  intro tokens value rest legible read
  rw [close.eq_def] at read
  split at read
  next =>
    obtain ⟨rfl, rfl⟩ := Prod.mk.inj (Option.some.inj read)
    exact ⟨trivial, legible.tail⟩
  next => simp at read

theorem gives_label : Gives label Line.Writable := by
  intro tokens value rest legible read
  rw [label.eq_def] at read
  split at read
  next =>
    obtain ⟨rfl, rfl⟩ := Prod.mk.inj (Option.some.inj read)
    simp only [Token.legible_ident, Token.legible_punct] at legible
    exact legible
  next => simp at read

theorem gives_declaration : Gives declaration Line.Writable := by
  intro tokens value rest legible read
  obtain ⟨⟨⟨name, type⟩, left⟩, read_typed, same⟩ := Option.bind_eq_some_iff.1 read
  obtain ⟨rfl, rfl⟩ := Prod.mk.inj (Option.some.inj same)
  obtain ⟨writable, legible_left⟩ := gives_typedName _ _ _ legible read_typed
  exact ⟨writable, legible_dropSeparator legible_left⟩

theorem gives_blank : Gives blank Line.Writable := by
  intro tokens value rest legible read
  obtain ⟨rfl, rfl⟩ := Prod.mk.inj (Option.some.inj read)
  exact ⟨trivial, legible⟩

theorem gives_of_mem_kinds {reader : Reader Line} (kind : reader ∈ kinds) :
    Gives reader Line.Writable := by
  simp only [kinds, List.mem_cons, List.not_mem_nil, or_false] at kind
  rcases kind with rfl | rfl | rfl | rfl | rfl | rfl | rfl | rfl | rfl
  · exact gives_recordHeader
  · exact gives_functionHeader
  · exact gives_external
  · exact gives_locals
  · exact gives_close
  · exact gives_instruction
  · exact gives_label
  · exact gives_declaration
  · exact gives_blank

theorem complete_eq_some_iff {α : Type} (reader : Reader α) (tokens : List Token) (value : α) :
    reader.complete tokens = some value ↔ reader tokens = some (value, []) := by
  rw [complete]
  split
  next found same =>
    rw [same]
    exact ⟨fun given => by rw [Option.some.inj given],
      fun given => by rw [(Prod.mk.inj (Option.some.inj given)).1]⟩
  next other => exact ⟨fun given => by simp at given, fun given => absurd given (other value)⟩

end Reader

namespace Line

theorem writable_of_read {text : String} {line : Line} (read : Line.read text = .ok line) :
    line.Writable := by
  rw [Line.read] at read
  split at read
  next => simp at read
  next tokens scanned =>
    split at read
    next => simp at read
    next found classified =>
      split at read
      next => simp at read
      next =>
        obtain rfl := Except.ok.inj read
        obtain ⟨reader, kind, complete⟩ := List.exists_of_findSome?_eq_some classified
        exact (Reader.gives_of_mem_kinds kind _ _ _ (Token.legible_of_scan scanned)
          ((Reader.complete_eq_some_iff _ _ _).1 complete)).1

end Line

end Lir
