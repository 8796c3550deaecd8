import Lir.Proofs.Grammar.Assignments

/-!
Instructions of the grammar agree with the reader of instructions.

They differ in one place: before an equals sign with nothing behind it that can be assigned, the
grammar still takes the word `ret`. What it leaves then is never the end of a line.
-/

set_option autoImplicit false

namespace Lir

namespace Grammar

variable {whole : List Char} (input : String) (bound : Nat)

def assignment : Reader Line := fun tokens =>
  (depending Reader.ident (fun dst =>
    both (mark fun token => token = .punct .equals) (Reader.assigned dst)) tokens).map
      fun read => (.op read.1.2.2, read.2)

theorem agrees_assign :
    Agrees whole bound (.rule .assign) assignment (Walks .assign (Walk.instruction input)) := by
  refine Agrees.node .assign ?_ rfl rfl
  refine ((agrees_name bound).then_depending fun dst =>
    (agrees_mark "=" (.punct rfl []) bound).then (agrees_assigned input dst bound)).map
      (fun parts => .op parts.2.2) (fun _ => rfl) ?_
  rintro trees ⟨dst, _, op⟩ ⟨_, _, rfl, ⟨name, rfl, _, text, no_integer⟩, _, _, rfl, rfl, tree, rfl,
    walked⟩ start stop
  simp [Walk.instruction, text, walked, Tree.integersOf, no_integer]

theorem agrees_store :
    Agrees whole bound (.rule .store) (whenOpcode "store" Reader.instruction)
      (Walks .store (Walk.instruction input)) := by
  refine agrees_whenOpcode .store rfl (by decide) rfl rfl
    ((agrees_name bound).then (agrees_operand input bound))
      (fun parts => .op (.store parts.1 parts.2)) (fun rest => ?_) ?_
  · have unknown := call_of_unknown none "store" (by decide)
    rcases rest with _ | ⟨⟨dst⟩ | _ | _ | _, rest⟩
    case cons.ident =>
      cases found : Reader.operand rest <;> simp [Reader.instruction, both, Reader.ident, found]
    all_goals simp [Reader.instruction, unknown, both, Reader.ident]
  · rintro start stop mark trees ⟨dst, value⟩ kind ⟨_, _, rfl, ⟨name, rfl, name_kind, text,
      no_integer⟩, tree, rfl, tree_kind, walked⟩
    simp [Walk.instruction, Tree.significant, kind, name_kind, tree_kind, Rule.marks, text, walked,
      Tree.integersOf, no_integer]

theorem agrees_callInstruction :
    Agrees whole bound (.rule .call)
      (fun tokens => (Reader.call none tokens).map fun read => (.op read.1, read.2))
      (Walks .call (Walk.instruction input)) := by
  refine (agrees_call input none bound).map .op (fun _ => rfl) ?_
  rintro trees op ⟨tree, rfl, kind, walked⟩
  exact ⟨tree, rfl, kind, by simp [Walk.instruction, kind, walked]⟩

theorem agrees_jump :
    Agrees whole bound (.rule .jump) (whenOpcode "jump" Reader.instruction)
      (Walks .jump (Walk.instruction input)) := by
  have unknown := call_of_unknown none "jump" (by decide)
  refine agrees_whenName input .jump rfl (by decide) rfl rfl (fun target => .term (.jump target))
    (fun _ _ => rfl) (fun rest other => ?_) fun tree kind => ?_
  · rcases rest with _ | ⟨_ | _ | _ | _, rest⟩
    case cons.ident => cases other
    all_goals simp [Reader.instruction, unknown]
  · simp [Walk.instruction, kind]

theorem agrees_branch :
    Agrees whole bound (.rule .branch) (whenOpcode "branch" Reader.instruction)
      (Walks .branch (Walk.instruction input)) := by
  refine agrees_whenOpcode .branch rfl (by decide) rfl rfl
    ((agrees_operand input bound).then ((agrees_name bound).then (agrees_name bound)))
      (fun parts => .term (.branch parts.1 parts.2.1 parts.2.2)) (fun rest => ?_) ?_
  · cases cond : Reader.operand rest with
    | none => simp [Reader.instruction, both, cond]
    | some read =>
      cases target : Reader.ident read.2 with
      | none => simp [Reader.instruction, both, cond, target]
      | some next =>
        cases other : Reader.ident next.2 <;>
          simp [Reader.instruction, both, cond, target, other]
  · rintro start stop mark trees ⟨cond, target, other⟩ kind ⟨_, _, rfl, ⟨tree, rfl, tree_kind,
      walked⟩, _, _, rfl, ⟨name, rfl, name_kind, text, no_integer⟩, next, rfl, next_kind, next_text,
      next_no_integer⟩
    simp [Walk.instruction, Tree.significant, kind, tree_kind, name_kind, next_kind, Rule.marks,
      walked, text, next_text, Tree.integersOf, no_integer, next_no_integer]

/-- Reads the word `ret`, as a name or as an opcode, and the value that is returned. -/
def returning : Reader Line
  | .opcode "ret" :: rest => some (Reader.ret rest)
  | .ident "ret" :: rest => some (Reader.ret rest)
  | _ => none

theorem agrees_ret :
    Agrees whole bound (.rule .ret) returning (Walks .ret (Walk.instruction input)) := by
  refine Agrees.node .ret ?_ rfl rfl
  have word : Agrees whole bound (Peg.oneOf [Rule.opcode .ret, Rule.keyword .ret])
      (either (mark fun token => token = .opcode "ret") (mark fun token => token = .ident "ret"))
      (fun trees _ => ∃ tree, trees = [tree] ∧ tree.rule ≠ .operand ∧ tree.integers = []) := by
    refine ((agrees_opcode .ret (by decide) bound).imp ?_).or
      ((agrees_keyword .ret bound).imp ?_)
    all_goals
      rintro trees _ ⟨tree, rfl, kind, no_integer⟩
      exact ⟨tree, rfl, by simp [kind], no_integer⟩
  refine (word.then (agrees_operand input bound).optional).map
    (fun parts => .term (.ret parts.2)) (fun tokens => ?_) ?_
  · have ret_eq : ∀ rest, some (Reader.ret rest) = (maybe Reader.operand rest).map fun read =>
        (.term (.ret read.1), read.2) := by
      intro rest
      cases found : Reader.operand rest <;> simp [Reader.ret, maybe, found]
    rcases tokens with _ | ⟨⟨name⟩ | _ | name | _, rest⟩
    case cons.ident =>
      by_cases word : name = "ret"
      · simp [returning, ret_eq, both, either, mark, single, word, Function.comp_def]
      · simp [returning, both, either, mark, single, word]
    case cons.opcode =>
      by_cases word : name = "ret"
      · simp [returning, ret_eq, both, either, mark, single, word, Function.comp_def]
      · simp [returning, both, either, mark, single, word]
    all_goals rfl
  · rintro trees ⟨_, _ | value⟩ ⟨_, _, rfl, ⟨mark, rfl, kind, no_integer⟩, held⟩ start stop
    · obtain rfl := held
      simp [Walk.instruction, kind, Tree.integersOf, no_integer, inRange_nil]
    · obtain ⟨tree, rfl, tree_kind, walked⟩ := held
      simp [Walk.instruction, kind, tree_kind, walked, Tree.integersOf, no_integer]

/-! ### Instructions -/

theorem instruction_of_equals (dst : String) (rest : List Token) :
    Reader.instruction (.ident dst :: .punct .equals :: rest) =
      assignment (.ident dst :: .punct .equals :: rest) := by
  cases found : Reader.assigned dst rest <;>
    simp [Reader.instruction, assignment, depending, both, mark, single, Reader.ident, found]

/-- A name before anything else is no instruction but for the word `ret`. -/
theorem instruction_of_ident (name : String) {rest : List Token}
    (other : rest.head? ≠ some (.punct .equals)) :
    Reader.instruction (.ident name :: rest) = returning (.ident name :: rest) := by
  rw [Reader.instruction.eq_def]
  split
  next same =>
    obtain ⟨_, rfl⟩ := List.cons.inj same
    exact absurd rfl other
  next same => cases same
  next same => cases same
  next same => cases same
  next same => cases same
  next same =>
    obtain ⟨word, rfl⟩ := List.cons.inj same
    rw [Token.ident.inj word]
    rfl
  next not_ret =>
    have word : name ≠ "ret" := fun same => not_ret rest (by rw [same])
    rw [returning.eq_def]
    split
    next same => cases same
    next same => exact absurd (Token.ident.inj (List.cons.inj same).1) word
    next => rfl

def instructionWords : List String := ["store", "jump", "branch", "ret"]

theorem instruction_eq_call {word : String} (other : word ∉ instructionWords) (rest : List Token) :
    Reader.instruction (.opcode word :: rest) =
      (Reader.call none (.opcode word :: rest)).map fun read => (.op read.1, read.2) := by
  rw [Reader.instruction.eq_def]
  split
  case h_1 same => cases same
  case h_6 same => cases same
  case h_7 => cases Reader.call none (.opcode word :: rest) <;> rfl
  all_goals
    next same =>
      rw [Token.opcode.inj (List.cons.inj same).1] at other
      exact absurd (by decide) other

/-- Where the word `ret` stands before an equals sign it is still taken alone. -/
def instructionOrRet : Reader Line := either Reader.instruction returning

theorem agrees_instruction :
    Agrees whole bound (.rule .instruction) instructionOrRet
      (Walks .instruction (Walk.item input)) := by
  refine Agrees.node .instruction ?_ rfl rfl
  refine ((agrees_assign input bound).walksTo.or ((agrees_store input bound).walksTo.or
    ((agrees_callInstruction input bound).walksTo.or ((agrees_jump input bound).walksTo.or
      ((agrees_branch input bound).walksTo.or (agrees_ret input bound).walksTo))))).map id
        (fun tokens => ?_) ?_
  · -- What starts with a name is an assignment or `ret`; all else starts with its own word.
    rcases tokens with _ | ⟨⟨name⟩ | _ | word | _, rest⟩
    case cons.ident =>
      have no_call : Reader.call none (.ident name :: rest) = none := rfl
      by_cases equals : rest.head? = some (.punct .equals)
      · obtain ⟨rest, rfl⟩ := List.head?_eq_some_iff.1 equals
        simp [instructionOrRet, either, instruction_of_equals, whenOpcode, no_call]
      · have no_assignment : assignment (.ident name :: rest) = none := by
          rcases rest with _ | ⟨token, rest⟩
          · rfl
          · have other : token ≠ .punct .equals := fun same => equals (by rw [same]; rfl)
            simp [assignment, depending, both, mark, single, Reader.ident, other]
        simp [instructionOrRet, either, instruction_of_ident name equals, no_assignment, whenOpcode,
          no_call]
    case cons.opcode =>
      by_cases known : word ∈ instructionWords
      · have unknown : ∀ word ∈ instructionWords, CallKind.ofWord? word = none := by decide
        have no_call := call_of_unknown none word (unknown word known) rest
        simp only [instructionWords, List.mem_cons, List.not_mem_nil, or_false] at known
        rcases known with rfl | rfl | rfl | rfl <;>
          simp [instructionOrRet, either, assignment, depending, Reader.ident, whenOpcode, no_call,
            returning, Reader.instruction]
      · have others := known
        simp only [instructionWords, List.mem_cons, List.not_mem_nil, or_false, not_or] at others
        simp [instructionOrRet, either, assignment, depending, Reader.ident, whenOpcode, returning,
          others, instruction_eq_call known, Function.comp_def]
    all_goals rfl
  · rintro trees line ⟨tree, rfl, walked⟩ start stop
    simp [Walk.item, walked, Tree.integersOf]

theorem complete_instructionOrRet (tokens : List Token) :
    Reader.complete instructionOrRet tokens = Reader.complete Reader.instruction tokens := by
  rw [Reader.complete, Reader.complete, instructionOrRet, either]
  cases read : Reader.instruction tokens with
  | some found => rfl
  | none =>
    rw [Option.none_or]
    rcases tokens with _ | ⟨⟨name⟩ | _ | word | _, rest⟩
    case cons.ident =>
      by_cases equals : rest.head? = some (.punct .equals)
      · obtain ⟨rest, rfl⟩ := List.head?_eq_some_iff.1 equals
        by_cases ret : name = "ret"
        · -- The equals sign is left, so this is no whole line.
          subst ret
          rfl
        · simp [returning, ret]
      · rw [← instruction_of_ident name equals, read]
    case cons.opcode =>
      by_cases ret : word = "ret"
      · subst ret
        cases read
      · simp [returning, ret]
    all_goals rfl

end Grammar

end Lir
