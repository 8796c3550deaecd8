import Lir.Proofs.Grammar.Types

/-!
Headers, declarations and labels of the grammar agree with their readers.
-/

set_option autoImplicit false

namespace Lir

namespace Grammar

open Token (First)

variable {α β : Type} {whole : List Char} (input : String)

/-! ### Headers -/

theorem agrees_header {bound : Nat} {rule : Rule} (keyword : Keyword) {written : Punct}
    {letters : String} {parts : Peg} {reader : Reader α} {read_parts : Reader β}
    {Y : List Tree → β → Prop} {walk : Tree → Walk α}
    (body : rule.body =
      .seq (.rule (.keyword keyword)) (.seq (.rule .ident) (.seq (.text letters) parts)))
    (spelled : First letters.toList (.punct written) []) (loud : rule.silent = false)
    (free : rule.spacing .free = .free) (agrees : Agrees whole bound parts read_parts Y)
    (make : String → β → α)
    (same : ∀ name rest, reader (.ident keyword.text :: .ident name :: .punct written :: rest) =
      (read_parts rest).map fun read => (make name read.1, read.2))
    (other : ∀ tokens, (∀ name rest,
      tokens ≠ .ident keyword.text :: .ident name :: .punct written :: rest) → reader tokens = none)
    (walked : ∀ start stop mark name trees value, mark.rule = .keyword keyword →
      name.rule = .ident → Y trees value → walk (.node rule start stop (mark :: name :: trees)) =
        (do inRange (Tree.integersOf trees); return make name.text value)) :
    Agrees whole bound (.rule rule) reader (Walks rule walk) := by
  refine Agrees.node rule ?_ loud free
  rw [body]
  refine ((agrees_keyword keyword bound).then ((agrees_name bound).then
    ((agrees_mark letters spelled bound).then agrees))).map
      (fun values => make values.2.1 values.2.2.2) (fun tokens => ?_) ?_
  · by_cases header : ∃ name rest,
      tokens = .ident keyword.text :: .ident name :: .punct written :: rest
    · obtain ⟨name, rest, rfl⟩ := header
      cases found : read_parts rest <;> simp [both, mark, single, Reader.ident, same, found]
    · rw [other tokens fun name rest here => header ⟨name, rest, here⟩]
      refine (Option.map_eq_none_iff.2 (Option.eq_none_iff_forall_ne_some.2 ?_)).symm
      intro values read
      -- The three parts are read only if they are the header.
      obtain ⟨_, read_word, read⟩ := exists_of_both read
      obtain ⟨_, read_name, read⟩ := exists_of_both read
      obtain ⟨_, read_mark, _⟩ := exists_of_both read
      obtain ⟨word, rfl, is_word⟩ := exists_of_mark read_word
      obtain rfl := eq_of_ident read_name
      obtain ⟨behind, rfl, is_mark⟩ := exists_of_mark read_mark
      exact header ⟨_, _, by rw [of_decide_eq_true is_word, of_decide_eq_true is_mark]⟩
  · rintro trees ⟨_, name, _, value⟩ ⟨_, _, rfl, ⟨mark, rfl, kind, no_integer⟩, _, _, rfl,
      ⟨tree, rfl, tree_kind, text, tree_no_integer⟩, _, back, rfl, rfl, held⟩ start stop
    have walked := walked start stop mark tree back value kind tree_kind held
    simp only [List.nil_append, List.singleton_append, walked, text, Tree.integersOf, no_integer,
      tree_no_integer]

section

variable (bound : Nat)

/-! ### Lists of names with their types -/

def endedList (separates : Token → Bool) : Reader (List (String × Ty)) := fun tokens =>
  (Reader.list separates Reader.typedName tokens).map fun read =>
    (read.1, Reader.dropSeparator read.2)

theorem maybe_separator (tokens : List Token) :
    ∃ found, maybe (mark Reader.isSeparator) tokens =
      some (found, Reader.dropSeparator tokens) := by
  cases tokens with
  | nil => exact ⟨none, rfl⟩
  | cons token rest =>
    by_cases separator : Reader.isSeparator token = true
    · exact ⟨some (), by simp [maybe, mark, single, Reader.dropSeparator, separator]⟩
    · exact ⟨none, by simp [maybe, mark, single, Reader.dropSeparator, separator]⟩

theorem nil_of_maybe {trees : List Tree} {found : Option Unit} (held : Maybe NoNode trees found) :
    trees = [] := by
  cases found with
  | none => exact held
  | some => exact held

theorem agrees_endedList {separator : Peg} {separates : Token → Bool}
    (between : Agrees whole bound separator (mark separates) NoNode) :
    Agrees whole bound
      (Peg.sequence [Rule.typedName, .star (Peg.sequence [separator, Rule.typedName]),
        .optional Rule.separator])
      (endedList separates) (Each (Walks .typedName (Walk.typedName input))) := by
  refine ((agrees_typedName input bound).then
    ((between.rounds (agrees_typedName input bound)).then (agrees_separator bound).optional)).map
      (fun parts => parts.1 :: parts.2.1) (fun tokens => ?_) ?_
  · cases first : Reader.typedName tokens with
    | none => simp [endedList, Reader.list, both, first]
    | some read =>
      obtain ⟨found, ended⟩ :=
        maybe_separator (Reader.more separates Reader.typedName read.2.length read.2).2
      simp [endedList, Reader.list, both, rounds, first, ended]
  · rintro trees ⟨_, names, found⟩ ⟨front, _, rfl, walked, more, last, rfl, held, ended⟩
    exact ⟨front, more, by rw [nil_of_maybe ended, List.append_nil], walked, held⟩

theorem agrees_close :
    Agrees whole bound (.rule .close) (mark fun token => token = .punct .closeBrace)
      (Node .close NoNode) :=
  Agrees.rule .close (agrees_mark "\x7d" (.punct rfl []) bound) rfl rfl

/-! ### Records -/

theorem exists_of_list {separates : Token → Bool} {item : Reader α} {tokens left : List Token}
    {values : List α} (read : Reader.list separates item tokens = some (values, left)) :
    values ≠ [] := by
  obtain ⟨_, _, same⟩ := Option.bind_eq_some_iff.1 read
  rw [← (Prod.mk.inj (Option.some.inj same)).1]
  exact List.cons_ne_nil _ _

theorem maybe_list (separates : Token → Bool) (item : Reader α) (tokens : List Token) :
    ∃ found, maybe (Reader.list separates item) tokens =
      some (found, (Reader.listOrNone separates item tokens).2) ∧
        found.getD [] = (Reader.listOrNone separates item tokens).1 := by
  cases found : Reader.list separates item tokens with
  | none =>
    exact ⟨none, by simp [maybe, Reader.listOrNone, found], by simp [Reader.listOrNone, found]⟩
  | some read =>
    exact ⟨some read.1, by simp [maybe, Reader.listOrNone, found],
      by simp [Reader.listOrNone, found]⟩

theorem maybe_endedList (separates : Token → Bool) (tokens : List Token) :
    maybe (endedList separates) tokens =
      match Reader.listOrNone separates Reader.typedName tokens with
      | ([], after) => some (none, after)
      | (field :: fields, after) => some (some (field :: fields), Reader.dropSeparator after) := by
  cases found : Reader.list separates Reader.typedName tokens with
  | none => simp [maybe, endedList, Reader.listOrNone, found]
  | some read =>
    obtain ⟨_ | ⟨field, fields⟩, after⟩ := read
    · exact absurd rfl (exists_of_list found)
    · simp [maybe, endedList, Reader.listOrNone, found]

theorem recordHeader_eq (name : String) (rest : List Token) :
    Reader.recordHeader (.ident "struct" :: .ident name :: .punct .openBrace :: rest) =
      (maybe (both (maybe (endedList Reader.isSeparator))
        (mark fun token => token = .punct .closeBrace)) rest).map fun read =>
          (.recordHeader name ((read.1.bind Prod.fst).getD []) read.1.isSome, read.2) := by
  obtain ⟨fields, after, listed⟩ : ∃ fields after,
    Reader.listOrNone Reader.isSeparator Reader.typedName rest = (fields, after) := ⟨_, _, rfl⟩
  have ended := maybe_endedList Reader.isSeparator rest
  rw [listed] at ended
  rw [Reader.recordHeader, maybe, both, ended, listed]
  -- Behind the fields and their end the brace is there, or the list is given up.
  cases fields with
  | nil =>
    rcases after with _ | ⟨token, after⟩
    · rfl
    · by_cases close : token = .punct .closeBrace
      · subst close
        rfl
      · simp [mark, single, close]
  | cons field fields =>
    rcases closing : Reader.dropSeparator after with _ | ⟨token, behind⟩
    · simp [mark, single, closing]
    · by_cases close : token = .punct .closeBrace
      · subst close
        simp [mark, single, closing]
      · simp [mark, single, closing, close]

theorem agrees_recordHeader :
    Agrees whole bound (.rule .recordHeader) Reader.recordHeader
      (Walks .recordHeader (Walk.item input)) := by
  have fields : Agrees whole bound (.rule .fieldList) (endedList Reader.isSeparator)
      (Node .fieldList (Each (Walks .typedName (Walk.typedName input)))) :=
    Agrees.rule .fieldList (agrees_endedList input bound (agrees_separator bound)) rfl rfl
  refine agrees_header .record rfl (.punct rfl []) rfl rfl
    (fields.optional.then (agrees_close bound)).optional
      (fun name parts => .recordHeader name ((parts.bind Prod.fst).getD []) parts.isSome)
      recordHeader_eq (fun tokens other => ?_) ?_
  · rw [Reader.recordHeader.eq_def]
    split
    next => exact absurd rfl (other _ _)
    next => rfl
  · rintro start stop mark name trees (_ | ⟨_ | fields, _⟩) kind name_kind held
    · obtain rfl := held
      simp [Walk.item, Tree.significant, kind, name_kind, Rule.marks, Tree.integersOf, inRange_nil]
    · obtain ⟨_, _, rfl, rfl, _, _, _, rfl, rfl⟩ := held
      simp [Walk.item, Tree.significant, kind, name_kind, Rule.marks, Walk.recordPart,
        Tree.integersOf, Tree.integers, inRange_nil]
    · obtain ⟨_, _, rfl, ⟨_, _, children, rfl, held⟩, _, _, _, rfl, rfl⟩ := held
      simp [Walk.item, Tree.significant, kind, name_kind, Rule.marks, Walk.recordPart,
        mapM_each held, Tree.integersOf, Tree.integers]

/-! ### Functions -/

def arrowResult : Reader (Option Ty) := fun tokens =>
  (both (mark fun token => token = .punct .arrow) (Reader.result Reader.ty) tokens).map fun read =>
    (read.1.2, read.2)

theorem maybe_arrowResult (tokens : List Token) :
    ∃ found, maybe arrowResult tokens = some (found, (Reader.headerResult tokens).2) ∧
      found.join = (Reader.headerResult tokens).1 := by
  rcases tokens with _ | ⟨token, rest⟩
  · exact ⟨none, rfl, rfl⟩
  · by_cases arrow : token = .punct .arrow
    · subst arrow
      cases found : Reader.result Reader.ty rest with
      | none =>
        exact ⟨none, by simp [maybe, arrowResult, both, mark, single, Reader.headerResult, found],
          by simp [Reader.headerResult, found]⟩
      | some read =>
        exact ⟨some read.1,
          by simp [maybe, arrowResult, both, mark, single, Reader.headerResult, found],
          by simp [Reader.headerResult, found]⟩
    · have none_there : Reader.headerResult (token :: rest) = (none, token :: rest) := by
        rw [Reader.headerResult.eq_def]
        split
        next same => exact absurd (List.cons.inj same).1 arrow
        next => rfl
      exact ⟨none, by simp [maybe, arrowResult, both, mark, single, none_there, arrow],
        by rw [none_there]; rfl⟩

theorem functionHeader_eq (name : String) (rest : List Token) :
    Reader.functionHeader (.ident "fn" :: .ident name :: .punct .openParen :: rest) =
      (both (maybe (Reader.list Reader.isComma Reader.typedName))
        (both (mark fun token => token = .punct .closeParen)
          (both (maybe arrowResult) (mark fun token => token = .punct .openBrace))) rest).map
            fun read => (.functionHeader name (read.1.1.getD []) read.1.2.2.1.join, read.2) := by
  obtain ⟨params, listed, params_eq⟩ := maybe_list Reader.isComma Reader.typedName rest
  rw [Reader.functionHeader, both, listed]
  obtain ⟨found, after, split⟩ : ∃ found after,
    Reader.listOrNone Reader.isComma Reader.typedName rest = (found, after) := ⟨_, _, rfl⟩
  rw [split] at params_eq ⊢
  rcases after with _ | ⟨token, after⟩
  · rfl
  by_cases close : token = .punct .closeParen
  · subst close
    obtain ⟨result, resulted, result_eq⟩ := maybe_arrowResult after
    obtain ⟨type, behind, typed⟩ : ∃ type behind, Reader.headerResult after = (type, behind) :=
      ⟨_, _, rfl⟩
    rw [typed] at resulted result_eq
    rcases behind with _ | ⟨token, behind⟩
    · simp [both, mark, single, typed, resulted]
    · by_cases brace : token = .punct .openBrace
      · subst brace
        simp [both, mark, single, typed, resulted, result_eq, params_eq]
      · simp [both, mark, single, typed, resulted, brace]
  · simp [both, mark, single, close]

theorem foldlM_params {trees : List Tree} {params : Option (List (String × Ty))}
    (held : Maybe (Node .paramList (Each (Walks .typedName (Walk.typedName input)))) trees params) :
    (trees.filter fun tree => !tree.rule.marks).foldlM (Walk.functionPart input) ([], none) =
      (do inRange (Tree.integersOf trees); return (params.getD [], none)) := by
  cases params with
  | none =>
    obtain rfl := held
    rfl
  | some params =>
    obtain ⟨_, _, _, rfl, held⟩ := held
    simp [Rule.marks, Walk.functionPart, mapM_each held, Tree.integersOf, Tree.integers]

theorem foldlM_result {trees : List Tree} {result : Option (Option Ty)}
    (held : Maybe (Walks .resultTy (Walk.result input)) trees result)
    (params : List (String × Ty)) :
    (trees.filter fun tree => !tree.rule.marks).foldlM (Walk.functionPart input) (params, none) =
      (do inRange (Tree.integersOf trees); return (params, result.join)) := by
  cases result with
  | none =>
    obtain rfl := held
    rfl
  | some result =>
    obtain ⟨tree, rfl, kind, walked⟩ := held
    simp [Rule.marks, Walk.functionPart, kind, walked, Tree.integersOf]

theorem agrees_functionHeader :
    Agrees whole bound (.rule .functionHeader) Reader.functionHeader
      (Walks .functionHeader (Walk.item input)) := by
  have params : Agrees whole bound (.rule .paramList) (Reader.list Reader.isComma Reader.typedName)
      (Node .paramList (Each (Walks .typedName (Walk.typedName input)))) :=
    Agrees.rule .paramList ((agrees_comma bound).list (agrees_typedName input bound)) rfl rfl
  have result : Agrees whole bound (Peg.sequence ["->", Rule.resultTy]) arrowResult
      (Walks .resultTy (Walk.result input)) := by
    refine ((agrees_mark "->" (.arrow []) bound).then
      (agrees_resultTy input (agrees_ty input bound))).map Prod.snd (fun _ => rfl) ?_
    rintro trees _ ⟨_, back, rfl, rfl, held⟩
    exact held
  refine agrees_header .function rfl (.punct rfl []) rfl rfl
    (params.optional.then ((agrees_mark ")" (.punct rfl []) bound).then
      (result.optional.then (agrees_mark "\x7b" (.punct rfl []) bound))))
      (fun name parts => .functionHeader name (parts.1.getD []) parts.2.2.1.join)
      functionHeader_eq (fun tokens other => ?_) ?_
  · rw [Reader.functionHeader.eq_def]
    split
    next => exact absurd rfl (other _ _)
    next => rfl
  · rintro start stop mark name trees ⟨params, _, result, _⟩ kind name_kind ⟨param_trees, _, rfl,
      params_held, _, _, rfl, rfl, result_trees, _, rfl, result_held, rfl⟩
    have params_walked := foldlM_params input params_held
    have result_walked := foldlM_result input result_held
    have mark_marks : mark.rule.marks = true := by rw [kind]; rfl
    have name_plain : name.rule.marks = false := by rw [name_kind]; rfl
    simp [Walk.item, Tree.significant, mark_marks, name_plain, List.foldlM_append, params_walked,
      result_walked, integersOf_append, inRange_append]

theorem agrees_external :
    Agrees whole bound (.rule .external) Reader.external
      (Walks .external (Walk.item input)) := by
  refine agrees_header .external rfl (.punct rfl []) rfl rfl (agrees_signature input bound)
    .external (fun name rest => ?_) (fun tokens other => ?_) ?_
  · cases found : Reader.signature rest <;> simp [Reader.external, Keyword.text, found]
  · rw [Reader.external.eq_def]
    split
    next => exact absurd rfl (other _ _)
    next => rfl
  · rintro start stop mark name trees signature kind name_kind ⟨_, _, children, rfl, walked⟩
    rw [WalksSignature] at walked
    simp [Walk.item, Tree.significant, kind, name_kind, Rule.marks, walked, Tree.integersOf,
      Tree.integers]

/-! ### Names -/

theorem agrees_locals :
    Agrees whole bound (.rule .locals) Reader.locals (Walks .locals (Walk.item input)) := by
  refine Agrees.node .locals ?_ rfl rfl
  refine ((agrees_keyword .locals bound).then
    (agrees_endedList input bound (agrees_comma bound))).map (fun parts => .locals parts.2)
      (fun tokens => ?_) ?_
  · rcases tokens with _ | ⟨⟨name⟩ | _ | _ | _, rest⟩
    case cons.ident =>
      by_cases word : name = "let"
      · subst word
        cases found : Reader.list Reader.isComma Reader.typedName rest <;>
          simp [Reader.locals, both, mark, single, Keyword.text, endedList, found]
      · simp [Reader.locals, both, mark, single, Keyword.text, word]
    all_goals rfl
  · rintro trees ⟨_, names⟩ ⟨_, back, rfl, ⟨mark, rfl, kind, no_integer⟩, held⟩ start stop
    have mark_marks : mark.rule.marks = true := by rw [kind]; rfl
    have kept : back.filter (fun tree => !tree.rule.marks) = back := by
      refine List.filter_eq_self.2 fun tree member => ?_
      rw [rule_of_each held tree member]
      rfl
    simp [Walk.item, Tree.significant, mark_marks, kept, mapM_each held, Tree.integersOf,
      no_integer]

theorem agrees_declaration :
    Agrees whole bound (.rule .declaration) Reader.declaration
      (Walks .declaration (Walk.item input)) := by
  refine Agrees.node .declaration ?_ rfl rfl
  refine ((agrees_typedName input bound).then (agrees_separator bound).optional).map
    (fun parts => .declaration parts.1.1 parts.1.2) (fun tokens => ?_) ?_
  · cases first : Reader.typedName tokens with
    | none => simp [Reader.declaration, both, first]
    | some read =>
      obtain ⟨found, ended⟩ := maybe_separator read.2
      simp [Reader.declaration, both, first, ended]
  · rintro trees ⟨⟨name, type⟩, found⟩ ⟨_, _, rfl, ⟨tree, rfl, kind, walked⟩, ended⟩ start stop
    obtain rfl := nil_of_maybe ended
    simp [Walk.item, walked, Tree.integersOf]

theorem agrees_label :
    Agrees whole bound (.rule .label) Reader.label (Walks .label (Walk.item input)) := by
  refine Agrees.node .label ?_ rfl rfl
  refine ((agrees_name bound).then (agrees_mark ":" (.punct rfl []) bound)).map
    (fun parts => .label parts.1) (fun tokens => ?_) ?_
  · rcases tokens with _ | ⟨⟨name⟩ | _ | _ | _, _ | ⟨token, rest⟩⟩
    case cons.ident.cons =>
      by_cases colon : token = .punct .colon
      · subst colon
        rfl
      · simp [Reader.label, both, mark, single, Reader.ident, colon]
    all_goals rfl
  · rintro trees ⟨name, _⟩ ⟨_, _, rfl, ⟨tree, rfl, _, text, no_integer⟩, rfl⟩ start stop
    simp [Walk.item, text, Tree.integersOf, no_integer, inRange_nil]

theorem agrees_closeLine :
    Agrees whole bound (.rule .close) Reader.close (Walks .close (Walk.item input)) := by
  refine (agrees_close bound).map (fun _ => .close) (fun tokens => ?_) ?_
  · rcases tokens with _ | ⟨token, rest⟩
    · rfl
    · by_cases close : token = .punct .closeBrace
      · subst close
        rfl
      · simp [Reader.close, mark, single, close]
  · rintro trees _ ⟨start, stop, _, rfl, rfl⟩
    exact ⟨_, rfl, rfl, rfl⟩

end

end Grammar

end Lir
