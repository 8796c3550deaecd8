import Lir.Proofs.Grammar.Leaves

/-!
Types of the grammar agree with the readers of types.
-/

set_option autoImplicit false

namespace Lir

namespace Grammar

open Token (First isWordChar)

variable {α : Type} {whole : List Char} (input : String)

/-! ### Kinds of type -/

theorem trimBlanks_of_isWordChar {text : List Char} (words : ∀ c ∈ text, isWordChar c = true) :
    trimBlanks text = text := by
  have not_blank : ∀ c ∈ text, isBlank c = false := by
    intro c member
    have range := Token.toNat_of_isWordChar (words c member)
    refine Bool.eq_false_iff.2 fun blank => ?_
    simp only [isBlank, Bool.or_eq_true, Bool.and_eq_true, decide_eq_true_eq] at blank
    omega
  have kept : ∀ text : List Char, (∀ c ∈ text, isBlank c = false) →
      text.dropWhile isBlank = text := by
    intro text none_blank
    cases text with
    | nil => rfl
    | cons c rest =>
      exact List.dropWhile_cons_of_neg (by simp [none_blank c List.mem_cons_self])
  rw [trimBlanks, kept text not_blank, kept text.reverse fun c member =>
    not_blank c (List.mem_reverse.1 member), List.reverse_reverse]

theorem isWordChar_of_first {text rest : List Char} {name : String}
    (first : First text (.ident name) rest) : ∀ c ∈ name.toList, isWordChar c = true := by
  cases first with
  | ident start tail =>
    rw [String.toList_ofList]
    exact List.forall_mem_cons.2 ⟨Token.isWordChar_of_isNameStart start,
      fun _ member => List.mem_takeWhile_imp member⟩

theorem agrees_recordTy (bound : Nat) :
    Agrees whole bound (.rule .recordTy)
      (fun tokens => (Reader.ident tokens).map fun read => (Ty.record read.1, read.2))
      (WalksTo (Walk.bareType input)) := by
  have single_name : Agrees whole bound (.rule .recordTy) (single nameOf) fun trees name =>
      WalksTo (Walk.bareType input) trees (.record name) := by
    refine Agrees.token (fun {text rest token name} first found => ?_) (fun {text} other => ?_)
      bound
    · cases token with
      | ident name =>
        obtain rfl := Option.some.inj found
        have inner : Parses whole .free (.rule .ident) text
            (some ([.node .ident text rest []], rest)) := .rule (ident_takes first)
        have text_eq := between_of_nameOf first rfl
        have trimmed := trimBlanks_of_isWordChar (isWordChar_of_first first)
        refine ⟨[.node .recordTy text rest [.node .ident text rest []]], .rule inner, rfl,
          _, rfl, ?_⟩
        simp [Walk.bareType, text_eq, trimmed, Tree.integersOf, Tree.integers, inRange_nil]
      | _ => simp [nameOf] at found
    · refine .rule_fails (.rule_fails (ident_fails fun name rest first => ?_))
      simpa [nameOf] using other _ rest first
  refine single_name.map Ty.record (fun tokens => ?_) fun _ _ held => held
  rcases tokens with _ | ⟨⟨name⟩ | _ | _ | _, rest⟩ <;> rfl

theorem agrees_intTy (bound : Nat) :
    Agrees whole bound (.rule .intTy)
      (fun tokens => (single (wordAmong ["int"]) tokens).map fun read => (Ty.int, read.2))
      (WalksTo (Walk.bareType input)) := by
  have word : Agrees whole bound (.rule .intTy) (single (wordAmong ["int"]))
      (Leaf .intTy (wordAmong ["int"])) :=
    agrees_word rfl (by decide) rfl rfl (by decide) bound
  refine word.map (fun _ => Ty.int) (fun _ => rfl) ?_
  rintro trees word ⟨start, stop, token, rfl, first, found⟩
  exact ⟨_, rfl, by simp [Walk.bareType, Tree.integers, Tree.integersOf, inRange_nil]⟩

section

variable {bound : Nat} {types : Reader Ty}

/-! ### Results and signatures -/

theorem agrees_resultTy
    (agrees : Agrees whole bound (.rule .ty) types (Walks .ty (Walk.type input))) :
    Agrees whole bound (.rule .resultTy) (Reader.result types)
      (Walks .resultTy (Walk.result input)) := by
  refine Agrees.node .resultTy ?_ rfl rfl
  have void : Agrees whole bound (.rule .voidTy)
      (fun tokens => (single (wordAmong ["_"]) tokens).map fun read => (none, read.2))
      (WalksWithin .resultTy (Walk.result input)) := by
    have word : Agrees whole bound (.rule .voidTy) (single (wordAmong ["_"]))
        (Leaf .voidTy (wordAmong ["_"])) :=
      agrees_word rfl (by decide) rfl rfl (by decide) bound
    refine word.map (fun _ => none) (fun _ => rfl) ?_
    rintro trees word ⟨start, stop, token, rfl, first, found⟩ before behind
    simp [Walk.result, Tree.integers, Tree.integersOf, inRange_nil]
  have some_type : Agrees whole bound (.rule .ty)
      (fun tokens => (types tokens).map fun read => (some read.1, read.2))
      (WalksWithin .resultTy (Walk.result input)) := by
    refine agrees.map some (fun _ => rfl) ?_
    rintro trees type ⟨tree, rfl, kind, walked⟩ before behind
    simp [Walk.result, kind, walked, Tree.integersOf]
  refine (void.or some_type).map id (fun tokens => ?_) fun _ _ held => held
  rw [Reader.result.eq_def]
  split
  next rest => rfl
  next not_blank =>
    have no_word : single (wordAmong ["_"]) tokens = none := by
      cases tokens with
      | nil => rfl
      | cons token rest =>
        have other : token ≠ .ident "_" := fun same => not_blank rest (by rw [same])
        have blank : wordToken? "_" = some (.ident "_") := by decide
        simp [single, wordAmong_singleton blank, other.symm]
    cases found : types tokens <;> simp [either, no_word, found]

def WalksSignature (trees : List Tree) (found : Signature) : Prop :=
  Walk.signature input ⟨[], none⟩ trees = (do inRange (Tree.integersOf trees); return found)

theorem signature_append {trees : List Tree} {params : List Ty}
    (held : Each (Walks .ty (Walk.type input)) trees params) (found : Signature)
    (rest : List Tree) :
    Walk.signature input found (trees ++ rest) = (do
      inRange (Tree.integersOf trees)
      Walk.signature input { found with params := found.params ++ params } rest) := by
  induction params generalizing trees found with
  | nil =>
    obtain rfl := held
    simp [Tree.integersOf, inRange_nil]
  | cons param params ih =>
    obtain ⟨front, back, rfl, ⟨tree, rfl, kind, walked⟩, later⟩ := held
    simp only [List.cons_append, List.nil_append, Walk.signature, kind, walked, ih later,
      Tree.integersOf, inRange_append, bind_assoc, pure_bind, List.append_assoc]

theorem agrees_signatureTail
    (agrees : Agrees whole bound (.rule .ty) types (Walks .ty (Walk.type input))) :
    Agrees whole bound
      (Peg.sequence [.optional (.separated "," Rule.ty), ")", "->", Rule.resultTy])
      (Reader.signatureTail types) (WalksSignature input) := by
  refine (((agrees_comma bound).listOrNone agrees).then
    ((agrees_mark ")" (.punct rfl []) bound).then
      ((agrees_mark "->" (.arrow []) bound).then (agrees_resultTy input agrees)))).map
      (fun parts => ⟨parts.1, parts.2.2.2⟩) (fun tokens => ?_) ?_
  · rw [Reader.signatureTail.eq_def]
    split
    next params rest listed =>
      cases found : Reader.result types rest <;> simp [both, mark, single, listed, found]
    next other =>
      obtain ⟨⟨params, left⟩, listed⟩ : ∃ read,
          Reader.listOrNone Reader.isComma types tokens = read := ⟨_, rfl⟩
      rcases left with _ | ⟨token, _ | ⟨second, rest⟩⟩
      · simp [both, mark, single, listed]
      · by_cases close : token = .punct .closeParen <;> simp [both, mark, single, listed, close]
      · by_cases close : token = .punct .closeParen
        · by_cases arrow : second = .punct .arrow
          · exact absurd (by rw [listed, close, arrow]) (other params rest)
          · simp [both, mark, single, listed, close, arrow]
        · simp [both, mark, single, listed, close]
  · rintro trees ⟨params, _, _, result⟩ ⟨front, back, rfl, params_held, _, _, rfl, rfl, _, _, rfl,
      rfl, tree, rfl, kind, walked⟩
    simp only [WalksSignature, signature_append input params_held, integersOf_append,
      Walk.signature, kind, walked, Tree.integersOf, inRange_append, bind_assoc, pure_bind,
      List.nil_append, inRange_nil]

def functionType (types : Reader Ty) : Reader Signature
  | .punct .openParen :: rest => Reader.signatureTail types rest
  | _ => none

theorem agrees_functionTy
    (agrees : Agrees whole bound (.rule .ty) types (Walks .ty (Walk.type input))) :
    Agrees whole (bound + 1) (.rule .functionTy) (functionType types)
      (Node .functionTy (WalksSignature input)) := by
  refine Agrees.rule .functionTy ?_ rfl rfl
  refine ((agrees_mark "(" (.punct rfl []) (bound + 1)).token_then
    (agrees_signatureTail input agrees)).map Prod.snd (fun tokens => ?_) ?_
  · rw [functionType.eq_def]
    split
    next rest => cases found : Reader.signatureTail types rest <;> simp [both, single, found]
    next other =>
      cases tokens with
      | nil => rfl
      | cons token rest =>
        by_cases opening : token = .punct .openParen
        · exact absurd (by rw [opening]) (other rest)
        · simp [both, single, opening]
  · rintro trees ⟨_, found⟩ ⟨_, back, rfl, rfl, walked⟩
    exact walked

theorem agrees_pointerTy
    (agrees : Agrees whole bound (.rule .ty) types (Walks .ty (Walk.type input))) :
    Agrees whole (bound + 1) (.rule .pointerTy)
      (fun tokens => (both (mark fun token => token = .punct .ampersand) types tokens).map
        fun read => (Ty.pointer read.1.2, read.2)) (WalksTo (Walk.bareType input)) := by
  have node := Agrees.rule .pointerTy
    ((agrees_mark "&" (.punct rfl []) (bound + 1)).token_then agrees) rfl rfl
  refine node.map (fun read => .pointer read.2) (fun _ => rfl) ?_
  rintro trees ⟨_, pointee⟩ ⟨start, stop, _, rfl, _, back, rfl, rfl, tree, rfl, kind, walked⟩
  refine ⟨_, rfl, ?_⟩
  simp [Walk.bareType, walked, Tree.integers, Tree.integersOf]

def typeKinds (types : Reader Ty) : Reader Ty :=
  either (fun tokens => (both (mark fun token => token = .punct .ampersand) types tokens).map
      fun read => (.pointer read.1.2, read.2))
    (either (fun tokens => (functionType types tokens).map fun read => (read.1.toTy, read.2))
      (either (fun tokens => (single (wordAmong ["int"]) tokens).map fun read => (.int, read.2))
        (fun tokens => (Reader.ident tokens).map fun read => (.record read.1, read.2))))

theorem agrees_typeKinds
    (agrees : Agrees whole bound (.rule .ty) types (Walks .ty (Walk.type input))) :
    Agrees whole (bound + 1)
      (Peg.oneOf [Rule.pointerTy, Rule.functionTy, Rule.intTy, Rule.recordTy]) (typeKinds types)
      (WalksTo (Walk.bareType input)) := by
  have function : Agrees whole (bound + 1) (.rule .functionTy)
      (fun tokens => (functionType types tokens).map fun read => (read.1.toTy, read.2))
      (WalksTo (Walk.bareType input)) := by
    refine (agrees_functionTy input agrees).map Signature.toTy (fun _ => rfl) ?_
    rintro trees found ⟨start, stop, children, rfl, walked⟩
    refine ⟨_, rfl, ?_⟩
    rw [Walk.bareType, walked]
    simp [Tree.integers]
  exact (agrees_pointerTy input agrees).or (function.or
    ((agrees_intTy input (bound + 1)).or (agrees_recordTy input (bound + 1))))

end

/-! ### Types -/

/-- No two kinds of type start with the same token. -/
theorem tyWithin_succ (levels : Nat) (tokens : List Token) :
    Reader.tyWithin (levels + 1) tokens = typeKinds (Reader.tyWithin levels) tokens := by
  have int_word : wordToken? "int" = some (.ident "int") := by decide
  rcases tokens with _ | ⟨⟨name⟩ | _ | _ | mark, rest⟩
  case cons.ident =>
    by_cases int : name = "int" <;>
      simp [typeKinds, either, both, mark, single, functionType, Reader.tyWithin, Reader.ident,
        wordAmong_singleton int_word, int, Ne.symm]
  case cons.punct =>
    cases mark with
    | ampersand =>
      cases found : Reader.tyWithin levels rest <;>
        simp [typeKinds, either, both, Grammar.mark, single, functionType, Reader.tyWithin,
          Reader.ident, wordAmong_singleton int_word, found]
    | openParen =>
      cases found : Reader.signatureTail (Reader.tyWithin levels) rest <;>
        simp [typeKinds, either, both, Grammar.mark, single, functionType, Reader.tyWithin,
          Reader.ident, wordAmong_singleton int_word, found]
    | _ => rfl
  all_goals rfl

theorem agrees_tyWithin (bound : Nat) :
    Agrees whole bound (.rule .ty) (Reader.tyWithin bound) (Walks .ty (Walk.type input)) := by
  induction bound with
  | zero =>
    -- Without a token every kind of type fails.
    constructor
    · intro text rest tokens within skipped ahead unread
      obtain rfl := List.length_eq_zero_iff.1 (Nat.le_zero.1 within)
      refine .rule_fails (.choice_second (.rule_fails (.seq_first_fails ?_)) (.choice_second
        (.rule_fails (.seq_first_fails ?_)) (.choice_second ?_ ?_)))
      · exact (agrees_mark "&" (.punct rfl []) 0).fails within skipped ahead rfl
      · exact (agrees_mark "(" (.punct rfl []) 0).fails within skipped ahead rfl
      · exact (agrees_intTy input 0).fails within skipped ahead rfl
      · exact (agrees_recordTy input 0).fails within skipped ahead rfl
    · intro text rest tokens left type within skipped ahead read
      simp [Reader.tyWithin] at read
  | succ bound ih =>
    refine Agrees.node .ty ?_ rfl rfl
    refine (agrees_typeKinds input ih).map id (fun tokens => ?_) ?_
    · rw [tyWithin_succ]
      cases typeKinds (Reader.tyWithin bound) tokens <;> rfl
    · rintro trees type ⟨tree, rfl, walked⟩ start stop
      rw [Walk.type, walked, Tree.integersOf, Tree.integersOf, List.append_nil, id]

theorem agrees_ty (bound : Nat) :
    Agrees whole bound (.rule .ty) Reader.ty (Walks .ty (Walk.type input)) :=
  ⟨fun _ => (agrees_tyWithin input _).fails (Nat.le_refl _),
    fun _ => (agrees_tyWithin input _).takes (Nat.le_refl _)⟩

theorem agrees_signature (bound : Nat) :
    Agrees whole bound (.rule .functionTy) Reader.signature
      (Node .functionTy (WalksSignature input)) := by
  refine ((agrees_functionTy input (agrees_ty input bound)).mono (Nat.le_succ bound)).map id
    (fun tokens => ?_) fun _ _ held => held
  have same : Reader.signature tokens = functionType Reader.ty tokens := by
    rcases tokens with _ | ⟨_ | _ | _ | mark, rest⟩
    case cons.punct => cases mark <;> rfl
    all_goals rfl
  rw [same]
  cases functionType Reader.ty tokens <;> rfl

/-! ### Names with their types -/

theorem agrees_typedName (bound : Nat) :
    Agrees whole bound (.rule .typedName) Reader.typedName
      (Walks .typedName (Walk.typedName input)) := by
  refine Agrees.node .typedName ?_ rfl rfl
  refine ((agrees_name bound).then ((agrees_mark ":" (.punct rfl []) bound).then
    (agrees_ty input bound))).map (fun parts => (parts.1, parts.2.2)) (fun tokens => ?_) ?_
  · rcases tokens with _ | ⟨⟨name⟩ | _ | _ | _, _ | ⟨second, rest⟩⟩
    case cons.ident.cons =>
      by_cases colon : second = .punct .colon
      · subst colon
        cases found : Reader.ty rest <;>
          simp [Reader.typedName, both, mark, single, Reader.ident, found]
      · simp [Reader.typedName, both, mark, single, Reader.ident, colon]
    all_goals rfl
  · rintro trees ⟨name, _, type⟩ ⟨_, _, rfl, ⟨word, rfl, _, text, no_integer⟩, _, _, rfl, rfl, tree,
      rfl, _, walked⟩ start stop
    simp [Walk.typedName, text, walked, Tree.integersOf, no_integer]

end Grammar

end Lir
