import Lir.Proofs.Grammar.Types

/-!
What may be assigned to a name, in the grammar, agrees with the readers of it.
-/

set_option autoImplicit false

namespace Lir

namespace Grammar

variable {α : Type} {whole : List Char} (input : String)

/-! ### Words with a meaning -/

def Meaning (name : Rule) (ofText? : String → Option α) (trees : List Tree) (value : α) : Prop :=
  ∃ tree, trees = [tree] ∧ tree.rule = name ∧ ofText? tree.text = some value ∧ tree.integers = []

theorem agrees_meaning {name : Rule} {words : List String} {accept : Token → Option α}
    {ofText? : String → Option α} (body : name.body = Peg.word words)
    (alternatives : Alternatives words) (tight : name.spacing .free = .tight)
    (loud : name.silent = false) (not_int : name ≠ .int)
    (known : ∀ word ∈ words, (ofText? word).isSome = true)
    (meant : ∀ word ∈ words, (wordToken? word).bind accept = ofText? word)
    (only : ∀ token value, accept token = some value →
      ∃ word ∈ words, wordToken? word = some token) (bound : Nat) :
    Agrees whole bound (.rule name) (single accept) (Meaning name ofText?) := by
  have leaf : Agrees whole bound (.rule name) (single accept) (Leaf name accept) := by
    refine Agrees.leaf tight loud (fun {text rest token value} first accepted => ?_)
      (fun {text} other => ?_) (fun {start stop token value} first accepted => ?_) bound
    · obtain ⟨word, member, named⟩ := only token value accepted
      rw [body]
      exact alternatives.takes member named first
    · rw [body]
      refine alternatives.fails fun word member token rest first named => ?_
      have meaningless : ofText? word = none := by
        rw [← meant word member, named, Option.bind_some, other token rest first]
      simpa [meaningless] using known word member
    · obtain ⟨word, _, named⟩ := only token value accepted
      rw [integers_node not_int]
      rcases (first_of_wordToken? named).2 with ⟨_, rfl⟩ | ⟨_, rfl⟩ <;> rfl
  refine leaf.map id (fun tokens => ?_) ?_
  · cases single accept tokens <;> rfl
  · rintro trees value ⟨start, stop, token, rfl, first, accepted⟩
    obtain ⟨word, member, named⟩ := only token value accepted
    have meaning := meant word member
    rw [named, Option.bind_some, accepted] at meaning
    have text := between_of_wordToken? first named
    exact ⟨_, rfl, rfl, by rw [Tree.text_node, text, ← meaning, id], integers_node not_int _ _ _⟩

def meaningOf (ofName? : String → Option α) (token : Token) : Option α :=
  (nameOf token).bind ofName?

def kindOf : Token → Option CallKind
  | .opcode word => CallKind.ofWord? word
  | _ => none

def kindOfText? : String → Option CallKind
  | "$call_ext" => some .external
  | "$call_dir" => some .direct
  | "$call_idr" => some .indirect
  | _ => none

theorem agrees_meaningOf {name : Rule} {words : List String} {ofName? : String → Option α}
    (body : name.body = Peg.word words) (alternatives : Alternatives words)
    (tight : name.spacing .free = .tight) (loud : name.silent = false) (not_int : name ≠ .int)
    (known : ∀ word ∈ words, (ofName? word).isSome = true)
    (names : ∀ word ∈ words, wordToken? word = some (.ident word))
    (only : ∀ word value, ofName? word = some value → word ∈ words) (bound : Nat) :
    Agrees whole bound (.rule name) (single (meaningOf ofName?)) (Meaning name ofName?) := by
  refine agrees_meaning body alternatives tight loud not_int known (fun word member => ?_)
    (fun token value accepted => ?_) bound
  · rw [names word member]
    rfl
  · cases token with
    | ident word =>
      have member := only word value accepted
      exact ⟨word, member, names word member⟩
    | _ => simp [meaningOf, nameOf] at accepted

theorem agrees_arithOp (bound : Nat) :
    Agrees whole bound (.rule .arithOp) (single (meaningOf ArithOp.ofName?))
      (Meaning .arithOp ArithOp.ofName?) := by
  refine agrees_meaningOf rfl (by decide) rfl rfl (by decide) (by decide) (by decide)
    (fun word op found => ?_) bound
  obtain rfl : op.name = word := by simpa using List.find?_some found
  cases op <;> decide

theorem agrees_cmpOp (bound : Nat) :
    Agrees whole bound (.rule .cmpOp) (single (meaningOf CmpOp.ofName?))
      (Meaning .cmpOp CmpOp.ofName?) := by
  refine agrees_meaningOf rfl (by decide) rfl rfl (by decide) (by decide) (by decide)
    (fun word op found => ?_) bound
  obtain rfl : op.name = word := by simpa using List.find?_some found
  cases op <;> decide

theorem agrees_callOp (bound : Nat) :
    Agrees whole bound (.rule .callOp) (single kindOf) (Meaning .callOp kindOfText?) := by
  refine agrees_meaning rfl (by decide) rfl rfl (by decide) (by decide) (by decide)
    (fun token kind accepted => ?_) bound
  cases token with
  | opcode word =>
    obtain rfl : kind.word = word := by simpa using List.find?_some accepted
    exact ⟨"$" ++ kind.word, by cases kind <;> decide, by cases kind <;> decide⟩
  | _ => simp [kindOf] at accepted

/-! ### Calls -/

theorem agrees_args (bound : Nat) :
    Agrees whole bound (.rule .args) (fun tokens => some (Reader.operands tokens))
      (Walks .args fun tree => tree.children.mapM (Walk.operand input)) := by
  refine Agrees.node .args ?_ rfl rfl
  refine ((agrees_comma bound).listOrNone (agrees_operand input bound)).map id (fun tokens => ?_) ?_
  · rfl
  · intro trees values held start stop
    exact mapM_each held

theorem agrees_continuation (bound : Nat) :
    Agrees whole bound (.optional (Peg.sequence [Rule.keyword .next, Rule.ident]))
      (fun tokens => some (Reader.continuation tokens)) fun trees found =>
        (trees.find? fun tree => tree.rule = .ident).map Tree.text = found ∧
          Tree.integersOf trees = [] := by
  refine ((agrees_keyword .next bound).then (agrees_name bound)).optional.map
    (fun found => found.map Prod.snd) (fun tokens => ?_) ?_
  · rcases tokens with _ | ⟨token, rest⟩
    · rfl
    by_cases word : token = .ident "then"
    · subst word
      rcases rest with _ | ⟨_ | _ | _ | _, rest⟩ <;>
        simp [Reader.continuation, maybe, both, mark, single, Reader.ident, Keyword.text]
    · simp [Reader.continuation, maybe, both, mark, single, Keyword.text, word]
  · rintro trees (_ | ⟨_, name⟩) held
    · obtain rfl := held
      exact ⟨rfl, rfl⟩
    · obtain ⟨_, _, rfl, ⟨word, rfl, kind, no_integer⟩, next, rfl, next_kind, text,
        next_no_integer⟩ := held
      simp [kind, next_kind, text, Tree.integersOf, no_integer, next_no_integer]

theorem callKind_of_text {word : String} {kind : CallKind}
    (known : kindOfText? word = some kind) : Walk.callKind word = pure kind := by
  rw [kindOfText?.eq_def] at known
  split at known
  case h_4 => simp at known
  all_goals rw [← Option.some.inj known]; rfl

theorem agrees_call (dst : Option String) (bound : Nat) :
    Agrees whole bound (.rule .call) (Reader.call dst) (Walks .call (Walk.call input dst)) := by
  refine Agrees.node .call ?_ rfl rfl
  refine ((agrees_callOp bound).then ((agrees_name bound).then
    ((agrees_mark "(" (.punct rfl []) bound).then ((agrees_args input bound).then
      ((agrees_mark ")" (.punct rfl []) bound).then (agrees_continuation bound)))))).map
    (fun parts => .call ⟨dst, parts.1, parts.2.1, parts.2.2.2.1, parts.2.2.2.2.2⟩)
    (fun tokens => ?_) ?_
  · rw [Reader.call.eq_def]
    split
    next word callee rest =>
      cases known : CallKind.ofWord? word with
      | none => simp [both, single, kindOf, known]
      | some kind =>
        obtain ⟨⟨args, left⟩, listed⟩ : ∃ read, Reader.operands rest = read := ⟨_, rfl⟩
        rcases left with _ | ⟨token, left⟩
        · simp [both, mark, single, kindOf, known, Reader.ident, listed]
        · by_cases close : token = .punct .closeParen
          · subst close
            simp [both, mark, single, kindOf, known, Reader.ident, listed]
          · simp [both, mark, single, kindOf, known, Reader.ident, listed, close]
    next other =>
      refine (Option.map_eq_none_iff.2 (Option.eq_none_iff_forall_ne_some.2 ?_)).symm
      intro values read
      obtain ⟨_, read_kind, read⟩ := exists_of_both read
      obtain ⟨_, read_callee, read⟩ := exists_of_both read
      obtain ⟨_, read_mark, _⟩ := exists_of_both read
      obtain ⟨token, rfl, accepted⟩ := exists_of_single read_kind
      obtain rfl := eq_of_ident read_callee
      obtain ⟨opening, rfl, same⟩ := exists_of_mark read_mark
      cases token with
      | opcode word => exact other word _ _ (by rw [of_decide_eq_true same])
      | _ => simp [kindOf] at accepted
  · rintro trees ⟨kind, callee, _, args, _, next⟩ ⟨_, _, rfl, ⟨op, rfl, _, known, op_integers⟩,
      _, _, rfl, ⟨name, rfl, _, text, name_integers⟩, _, _, rfl, rfl, _, _, rfl, ⟨list, rfl,
      list_kind, walked⟩, _, _, rfl, rfl, continued, next_integers⟩ start stop
    simp [Walk.call, callKind_of_text known, text, walked, continued, Tree.integersOf, op_integers,
      name_integers, next_integers]

/-! ### What starts with an opcode -/

def whenOpcode (word : String) (reader : Reader α) : Reader α
  | .opcode other :: rest => if other = word then reader (.opcode other :: rest) else none
  | _ => none

variable {β : Type}

theorem agrees_whenOpcode {bound : Nat} {rule : Rule} (opcode : Opcode) {word : String}
    {parts : Peg} {reader : Reader α} {read_parts : Reader β} {Y : List Tree → β → Prop}
    {walk : Tree → Walk α} (body : rule.body = .seq (.rule (.opcode opcode)) parts)
    (named : wordToken? opcode.text = some (.opcode word)) (loud : rule.silent = false)
    (free : rule.spacing .free = .free) (agrees : Agrees whole bound parts read_parts Y)
    (make : β → α)
    (same : ∀ rest, reader (.opcode word :: rest) =
      (read_parts rest).map fun read => (make read.1, read.2))
    (walked : ∀ start stop mark trees value, mark.rule = .opcode opcode → Y trees value →
      walk (.node rule start stop (mark :: trees)) =
        (do inRange (Tree.integersOf trees); return make value)) :
    Agrees whole bound (.rule rule) (whenOpcode word reader) (Walks rule walk) := by
  refine Agrees.node rule ?_ loud free
  rw [body]
  refine ((agrees_opcode opcode named bound).then agrees).map (fun values => make values.2)
    (fun tokens => ?_) ?_
  · rcases tokens with _ | ⟨_ | _ | other | _, rest⟩
    case cons.opcode =>
      by_cases here : other = word
      · subst here
        cases found : read_parts rest <;> simp [whenOpcode, both, mark, single, same, found]
      · simp [whenOpcode, both, mark, single, here]
    all_goals rfl
  · rintro trees ⟨_, value⟩ ⟨_, back, rfl, ⟨mark, rfl, kind, no_integer⟩, held⟩ start stop
    rw [List.singleton_append, walked start stop mark back value kind held, Tree.integersOf,
      no_integer, List.nil_append]

theorem agrees_whenName {bound : Nat} {rule : Rule} (opcode : Opcode) {word : String}
    {reader : Reader α} {walk : Tree → Walk α}
    (body : rule.body = .seq (.rule (.opcode opcode)) (.rule .ident))
    (named : wordToken? opcode.text = some (.opcode word)) (loud : rule.silent = false)
    (free : rule.spacing .free = .free) (make : String → α)
    (reads : ∀ name rest, reader (.opcode word :: .ident name :: rest) = some (make name, rest))
    (others : ∀ rest, Reader.ident rest = none → reader (.opcode word :: rest) = none)
    (walked : ∀ tree, tree.rule = rule → walk tree =
      (do let (name, _) ← Walk.nextText input tree.significant; return make name)) :
    Agrees whole bound (.rule rule) (whenOpcode word reader) (Walks rule walk) := by
  refine agrees_whenOpcode opcode body named loud free (agrees_name bound) make (fun rest => ?_) ?_
  · rcases rest with _ | ⟨⟨name⟩ | _ | _ | _, rest⟩
    case cons.ident => exact reads name rest
    all_goals exact others _ rfl
  · rintro start stop mark trees _ kind ⟨name, rfl, name_kind, text, no_integer⟩
    rw [walked _ rfl]
    simp [Tree.significant, kind, name_kind, Rule.marks, text, Tree.integersOf, no_integer,
      inRange_nil]

def binary (ofName? : String → Option β) (make : β → Operand → Operand → Op) : Reader Op
  | .ident name :: rest => do
    let op ← ofName? name
    let (lhs, rest) ← Reader.operand rest
    let (rhs, rest) ← Reader.operand rest
    some (make op lhs rhs, rest)
  | _ => none

theorem binary_eq (ofName? : String → Option β) (make : β → Operand → Operand → Op)
    (tokens : List Token) :
    binary ofName? make tokens =
      (both (single (meaningOf ofName?)) (both Reader.operand Reader.operand) tokens).map
        fun read => (make read.1.1 read.1.2.1 read.1.2.2, read.2) := by
  rcases tokens with _ | ⟨⟨name⟩ | _ | _ | _, rest⟩
  case cons.ident =>
    cases known : ofName? name with
    | none => simp [binary, both, single, meaningOf, nameOf, known]
    | some op =>
      cases left : Reader.operand rest with
      | none => simp [binary, both, single, meaningOf, nameOf, known, left]
      | some read =>
        cases right : Reader.operand read.2 <;>
          simp [binary, both, single, meaningOf, nameOf, known, left, right]
  all_goals rfl

theorem agrees_whenBinary {bound : Nat} {rule name : Rule} (opcode : Opcode) {word : String}
    {reader : Reader Op} {walk : Tree → Walk Op} {ofName? : String → Option β}
    (body : rule.body = .seq (.rule (.opcode opcode))
      (.seq (.rule name) (.seq (.rule .operand) (.rule .operand))))
    (named : wordToken? opcode.text = some (.opcode word)) (loud : rule.silent = false)
    (free : rule.spacing .free = .free) (plain : name.marks = false)
    (agrees : Agrees whole bound (.rule name) (single (meaningOf ofName?)) (Meaning name ofName?))
    (make : β → Operand → Operand → Op)
    (reads : ∀ name rest, reader (.opcode word :: .ident name :: rest) =
      binary ofName? make (.ident name :: rest))
    (others : ∀ rest, Reader.ident rest = none → reader (.opcode word :: rest) = none)
    (walked : ∀ tree, tree.rule = rule → walk tree = Walk.binary input ofName? make tree) :
    Agrees whole bound (.rule rule) (whenOpcode word reader) (Walks rule walk) := by
  refine agrees_whenOpcode opcode body named loud free
    (agrees.then ((agrees_operand input bound).then (agrees_operand input bound)))
      (fun parts => make parts.1 parts.2.1 parts.2.2) (fun rest => ?_) ?_
  · rw [← binary_eq]
    rcases rest with _ | ⟨⟨name⟩ | _ | _ | _, rest⟩
    case cons.ident => exact reads name rest
    all_goals exact others _ rfl
  · rintro start stop mark trees ⟨op, lhs, rhs⟩ kind ⟨_, _, rfl, ⟨word, rfl, word_kind, known,
      no_integer⟩, _, _, rfl, ⟨left, rfl, left_kind, left_walked⟩, right, rfl, right_kind,
      right_walked⟩
    have mark_marks : mark.rule.marks = true := by rw [kind]; rfl
    have word_plain : word.rule.marks = false := by rw [word_kind, plain]
    have left_plain : left.rule.marks = false := by rw [left_kind]; rfl
    have right_plain : right.rule.marks = false := by rw [right_kind]; rfl
    rw [walked _ rfl]
    simp [Walk.binary, Tree.significant, mark_marks, word_plain, left_plain, right_plain,
      known, left_walked, right_walked, Tree.integersOf, no_integer, inRange_append]

/-! ### Assignments -/

theorem call_of_unknown (dst : Option String) (word : String)
    (unknown : CallKind.ofWord? word = none) (rest : List Token) :
    Reader.call dst (.opcode word :: rest) = none := by
  rw [Reader.call.eq_def]
  split
  next same =>
    obtain rfl := Token.opcode.inj (List.cons.inj same).1
    rw [unknown]
    rfl
  next => rfl

section

variable (dst : String) (bound : Nat)

/-- The operations whose word stands before a name are not read without it. -/
theorem assigned_eq_none {word : String} {rest : List Token}
    (named : word ∈ ["arith", "cmp", "gep", "gfp", "addrof", "load"])
    (other : Reader.ident rest = none) : Reader.assigned dst (.opcode word :: rest) = none := by
  have unknown : ∀ word ∈ ["arith", "cmp", "gep", "gfp", "addrof", "load"],
      CallKind.ofWord? word = none := by decide
  have no_call := call_of_unknown (some dst) word (unknown word named) rest
  simp only [List.mem_cons, List.not_mem_nil, or_false] at named
  rcases rest with _ | ⟨_ | _ | _ | _, rest⟩
  case cons.ident => cases other
  all_goals
    rcases named with rfl | rfl | rfl | rfl | rfl | rfl <;> simp [Reader.assigned, no_call]

theorem agrees_copy :
    Agrees whole bound (.rule .copy) (whenOpcode "copy" (Reader.assigned dst))
      (Walks .copy (Walk.assigned input dst)) := by
  refine agrees_whenOpcode .copy rfl (by decide) rfl rfl (agrees_operand input bound) (.copy dst)
    (fun rest => ?_) ?_
  · cases found : Reader.operand rest <;> simp [Reader.assigned, found]
  · rintro start stop mark trees src kind ⟨tree, rfl, tree_kind, walked⟩
    simp [Walk.assigned, Tree.significant, kind, tree_kind, Rule.marks, walked, Tree.integersOf]

theorem agrees_arith :
    Agrees whole bound (.rule .arith) (whenOpcode "arith" (Reader.assigned dst))
      (Walks .arith (Walk.assigned input dst)) := by
  refine agrees_whenBinary input .arith rfl (by decide) rfl rfl rfl (agrees_arithOp bound)
    (.arith dst) (fun _ _ => rfl) (fun _ => assigned_eq_none dst (by decide))
    fun tree kind => ?_
  simp [Walk.assigned, kind]

theorem agrees_cmp :
    Agrees whole bound (.rule .cmp) (whenOpcode "cmp" (Reader.assigned dst))
      (Walks .cmp (Walk.assigned input dst)) := by
  refine agrees_whenBinary input .cmp rfl (by decide) rfl rfl rfl (agrees_cmpOp bound)
    (.cmp dst) (fun _ _ => rfl) (fun _ => assigned_eq_none dst (by decide))
    fun tree kind => ?_
  simp [Walk.assigned, kind]

theorem agrees_gep :
    Agrees whole bound (.rule .gep) (whenOpcode "gep" (Reader.assigned dst))
      (Walks .gep (Walk.assigned input dst)) := by
  refine agrees_whenOpcode .gep rfl (by decide) rfl rfl
    ((agrees_name bound).then (agrees_operand input bound))
      (fun parts => .gep dst parts.1 parts.2) (fun rest => ?_) ?_
  · rcases rest with _ | ⟨⟨base⟩ | _ | _ | _, rest⟩
    case cons.ident =>
      cases found : Reader.operand rest <;> simp [Reader.assigned, both, Reader.ident, found]
    all_goals exact assigned_eq_none dst (by decide) rfl
  · rintro start stop mark trees ⟨base, index⟩ kind ⟨_, _, rfl, ⟨name, rfl, name_kind, text,
      no_integer⟩, tree, rfl, tree_kind, walked⟩
    simp [Walk.assigned, Tree.significant, kind, name_kind, tree_kind, Rule.marks, text, walked,
      Tree.integersOf, no_integer]

theorem agrees_gfp :
    Agrees whole bound (.rule .gfp) (whenOpcode "gfp" (Reader.assigned dst))
      (Walks .gfp (Walk.assigned input dst)) := by
  refine agrees_whenOpcode .gfp rfl (by decide) rfl rfl
    ((agrees_name bound).then (agrees_name bound)) (fun parts => .gfp dst parts.1 parts.2)
      (fun rest => ?_) ?_
  · have unknown := call_of_unknown (some dst) "gfp" (by decide)
    rcases rest with _ | ⟨⟨base⟩ | _ | _ | _, _ | ⟨⟨field⟩ | _ | _ | _, rest⟩⟩
    case cons.ident.cons.ident => rfl
    all_goals simp [Reader.assigned, unknown, both, Reader.ident]
  · rintro start stop mark trees ⟨base, field⟩ kind ⟨_, _, rfl, ⟨name, rfl, name_kind, text,
      no_integer⟩, next, rfl, next_kind, next_text, next_no_integer⟩
    simp [Walk.assigned, Tree.significant, kind, name_kind, next_kind, Rule.marks, text, next_text,
      Tree.integersOf, no_integer, next_no_integer, inRange_nil]

/-- What names an allocation: a name, bare or in brackets. -/
def NamesAllocation (trees : List Tree) (name : String) : Prop :=
  ∃ tree, trees = [tree] ∧ tree.rule.marks = false ∧ Walk.allocId tree = name ∧ tree.integers = []

theorem agrees_allocId :
    Agrees whole bound (.optional (Peg.oneOf [Rule.allocId, Rule.ident]))
      (fun tokens => some (Reader.allocId tokens)) (Maybe NamesAllocation) := by
  have bracketed : Agrees whole bound (.rule .allocId)
      (fun tokens => (both (mark fun token => token = .punct .openBracket)
        (both Reader.ident (mark fun token => token = .punct .closeBracket)) tokens).map fun read =>
          (read.1.2.1, read.2)) NamesAllocation := by
    refine (Agrees.rule .allocId ((agrees_mark "[" (.punct rfl []) bound).then
      ((agrees_name bound).then (agrees_mark "]" (.punct rfl []) bound))) rfl rfl).map
      (fun parts => parts.2.1) (fun _ => rfl) ?_
    rintro trees ⟨_, name, _⟩ ⟨start, stop, _, rfl, _, _, rfl, rfl, _, _, rfl, ⟨tree, rfl, _, text,
      no_integer⟩, rfl⟩
    exact ⟨_, rfl, rfl, by simpa [Walk.allocId] using text,
      by simp [Tree.integers, Tree.integersOf, no_integer]⟩
  have bare : Agrees whole bound (.rule .ident) Reader.ident NamesAllocation := by
    refine (agrees_name bound).imp ?_
    rintro trees name ⟨tree, rfl, kind, text, no_integer⟩
    exact ⟨tree, rfl, by rw [kind]; rfl, by simp [Walk.allocId, kind, text], no_integer⟩
  refine (bracketed.or bare).optional.map id (fun tokens => ?_) fun _ _ held => held
  rcases tokens with _ | ⟨⟨id⟩ | _ | _ | mark, rest⟩
  case cons.punct =>
    by_cases opening : mark = .openBracket
    · subst opening
      rcases rest with _ | ⟨⟨id⟩ | _ | _ | _, _ | ⟨token, rest⟩⟩
      case cons.ident.cons =>
        by_cases closing : token = .punct .closeBracket
        · rw [closing]
          rfl
        · simp [Reader.allocId, maybe, either, both, Grammar.mark, single, Reader.ident, closing]
      all_goals rfl
    · simp [Reader.allocId, maybe, either, both, Grammar.mark, single, Reader.ident, opening]
  all_goals rfl

theorem agrees_alloc :
    Agrees whole bound (.rule .alloc) (whenOpcode "alloc" (Reader.assigned dst))
      (Walks .alloc (Walk.assigned input dst)) := by
  refine agrees_whenOpcode .alloc rfl (by decide) rfl rfl
    ((agrees_operand input bound).then (agrees_allocId bound))
      (fun parts => .alloc dst parts.1 parts.2) (fun rest => ?_) ?_
  · cases found : Reader.operand rest <;> simp [Reader.assigned, both, found]
  · rintro start stop mark trees ⟨size, _ | id⟩ kind ⟨_, _, rfl, ⟨tree, rfl, tree_kind, walked⟩,
      named⟩
    · obtain rfl := named
      simp [Walk.assigned, Tree.significant, kind, tree_kind, Rule.marks, walked, Tree.integersOf]
    · obtain ⟨name, rfl, plain, text, no_integer⟩ := named
      have mark_marks : mark.rule.marks = true := by rw [kind]; rfl
      have tree_plain : tree.rule.marks = false := by rw [tree_kind]; rfl
      simp [Walk.assigned, Tree.significant, mark_marks, tree_plain, plain, walked, text,
        Tree.integersOf, no_integer]

theorem agrees_addrOf :
    Agrees whole bound (.rule .addrOf) (whenOpcode "addrof" (Reader.assigned dst))
      (Walks .addrOf (Walk.assigned input dst)) := by
  refine agrees_whenName input .addrOf rfl (by decide) rfl rfl (.addrOf dst) (fun _ _ => rfl)
    (fun _ => assigned_eq_none dst (by decide)) fun tree kind => ?_
  simp [Walk.assigned, kind]

theorem agrees_load :
    Agrees whole bound (.rule .load) (whenOpcode "load" (Reader.assigned dst))
      (Walks .load (Walk.assigned input dst)) := by
  refine agrees_whenName input .load rfl (by decide) rfl rfl (.load dst) (fun _ _ => rfl)
    (fun _ => assigned_eq_none dst (by decide)) fun tree kind => ?_
  simp [Walk.assigned, kind]

def assignedWords : List String :=
  ["copy", "arith", "cmp", "gep", "gfp", "alloc", "addrof", "load"]

theorem assigned_eq_call {word : String} (other : word ∉ assignedWords) (rest : List Token) :
    Reader.assigned dst (.opcode word :: rest) = Reader.call (some dst) (.opcode word :: rest) := by
  rw [Reader.assigned.eq_def]
  split
  case h_9 => rfl
  all_goals
    next same =>
      rw [Token.opcode.inj (List.cons.inj same).1] at other
      exact absurd (by decide) other

theorem agrees_assigned :
    Agrees whole bound
      (Peg.oneOf [Rule.copy, Rule.arith, Rule.cmp, Rule.gep, Rule.gfp, Rule.alloc, Rule.addrOf,
        Rule.load, Rule.call])
      (Reader.assigned dst) (WalksTo (Walk.assigned input dst)) := by
  have call : Agrees whole bound (.rule .call) (Reader.call (some dst))
      (WalksTo (Walk.assigned input dst)) := by
    refine (agrees_call input (some dst) bound).imp ?_
    rintro trees op ⟨tree, rfl, kind, walked⟩
    exact ⟨tree, rfl, by rw [Walk.assigned.eq_def, kind]; exact walked⟩
  refine ((agrees_copy input dst bound).walksTo.or ((agrees_arith input dst bound).walksTo.or
    ((agrees_cmp input dst bound).walksTo.or ((agrees_gep input dst bound).walksTo.or
      ((agrees_gfp input dst bound).walksTo.or ((agrees_alloc input dst bound).walksTo.or
        ((agrees_addrOf input dst bound).walksTo.or ((agrees_load input dst bound).walksTo.or
          call)))))))).map id (fun tokens => ?_) fun _ _ held => held
  -- Each alternative has its own word, and calls have the words that are left.
  rcases tokens with _ | ⟨_ | _ | word | _, rest⟩
  case cons.opcode =>
    by_cases known : word ∈ assignedWords
    · have unknown : ∀ word ∈ assignedWords, CallKind.ofWord? word = none := by decide
      have no_call := call_of_unknown (some dst) word (unknown word known) rest
      simp only [assignedWords, List.mem_cons, List.not_mem_nil, or_false] at known
      rcases known with rfl | rfl | rfl | rfl | rfl | rfl | rfl | rfl <;>
        simp [either, whenOpcode, no_call]
    · have others := known
      simp only [assignedWords, List.mem_cons, List.not_mem_nil, or_false, not_or] at others
      simp [either, whenOpcode, others, assigned_eq_call dst known]
  all_goals rfl

end

end Grammar

end Lir
