import Lir.Proofs.Grammar.Parsing
import Lir.Source.Blank

/-!
Lines from parse trees.

The walk takes the parts of a node in order, and passes over the words that only mark what the node
is. Besides integers that are too large it has an error for every tree of a shape that it does not
expect.
-/

set_option autoImplicit false

namespace Lir

namespace Grammar

inductive Unsupported where
  | integer (literal : String)
  /-- A node that the walk does not expect, or one without a part that it does. -/
  | construct (text : String)
  deriving DecidableEq

abbrev Walk (α : Type) := Except Unsupported α

def splitSign : List Char → Bool × List Char
  | '-' :: digits => (true, digits)
  | '+' :: digits => (false, digits)
  | digits => (false, digits)

def parseWord? (text : String) : Option Int32 :=
  let (negative, digits) := splitSign text.toList
  let value := Token.numberValue negative digits
  if digits ≠ [] ∧ digits.all Char.isDigit ∧ Token.fitsWord value then some (.ofInt value) else none

namespace Rule

def marks : Rule → Bool
  | keyword _ | opcode _ => true
  | _ => false

end Rule

namespace Tree

@[simp] theorem rule_node (rule : Rule) (start stop : List Char) (children : List Tree) :
    (node rule start stop children).rule = rule := rfl

@[simp] theorem children_node (rule : Rule) (start stop : List Char) (children : List Tree) :
    (node rule start stop children).children = children := rfl

/-- What of a text stands before the rest that is left of it. -/
def between (start stop : List Char) : String := .ofList (start.take (start.length - stop.length))

def text (tree : Tree) : String := between tree.start tree.stop

@[simp] theorem text_node (rule : Rule) (start stop : List Char) (children : List Tree) :
    (node rule start stop children).text = between start stop := rfl

def spanned : List Tree → String
  | [] => ""
  | first :: rest => between first.start ((first :: rest).getLast (List.cons_ne_nil _ _)).stop

@[simp] theorem spanned_singleton (tree : Tree) : spanned [tree] = tree.text := rfl

def significant (tree : Tree) : List Tree := tree.children.filter fun child => !child.rule.marks

mutual
def integers : Tree → List String
  | node .int start stop _ => [between start stop]
  | node _ _ _ children => integersOf children

def integersOf : List Tree → List String
  | [] => []
  | tree :: rest => tree.integers ++ integersOf rest
end

end Tree

namespace Walk

-- The text of the whole line stands in the errors for parts that are missing.
variable (input : String)

def next : List Tree → Walk (Tree × List Tree)
  | [] => .error (.construct input)
  | tree :: rest => .ok (tree, rest)

@[simp] theorem next_cons (tree : Tree) (rest : List Tree) :
    next input (tree :: rest) = pure (tree, rest) := rfl

def nextText (trees : List Tree) : Walk (String × List Tree) := do
  let (tree, rest) ← next input trees
  return (tree.text, rest)

@[simp] theorem nextText_cons (tree : Tree) (rest : List Tree) :
    nextText input (tree :: rest) = pure (tree.text, rest) := rfl

def operand (tree : Tree) : Walk Operand := do
  let (inner, _) ← next input tree.children
  match inner.rule with
  | .int =>
    match parseWord? inner.text with
    | some value => return .const value
    | none => throw (.integer inner.text)
  | _ => return .var inner.text

def nextOperand (trees : List Tree) : Walk (Operand × List Tree) := do
  let (tree, rest) ← next input trees
  return (← operand input tree, rest)

@[simp] theorem nextOperand_cons (tree : Tree) (rest : List Tree) :
    nextOperand input (tree :: rest) = (do return (← operand input tree, rest)) := rfl

mutual
def type (tree : Tree) : Walk Ty :=
  match tree with
  | .node .ty _ _ [] => throw (.construct input)
  | .node .ty _ _ (inner :: _) => bareType inner
  | tree => bareType tree
  termination_by (sizeOf tree, 1)

def bareType (tree : Tree) : Walk Ty :=
  match tree with
  | .node .intTy _ _ _ => return .int
  | .node .recordTy start stop _ =>
    return .record (.ofList (trimBlanks (Tree.between start stop).toList))
  | .node .pointerTy _ _ [] => throw (.construct input)
  | .node .pointerTy _ _ (inner :: _) => do return .pointer (← type inner)
  | .node .functionTy _ _ children => do return (← signature ⟨[], none⟩ children).toTy
  | .node _ start stop _ => throw (.construct (Tree.between start stop))
  termination_by (sizeOf tree, 0)

def signature (found : Signature) (trees : List Tree) : Walk Signature :=
  match trees with
  | [] => return found
  | tree :: rest => do
    match tree.rule with
    | .ty => signature { found with params := found.params ++ [← type tree] } rest
    | .resultTy => signature { found with result := ← result tree } rest
    | _ => signature found rest
  termination_by (sizeOf trees, 0)

def result (tree : Tree) : Walk (Option Ty) :=
  match tree with
  | .node _ _ _ [] => throw (.construct input)
  | .node _ _ _ (inner :: _) =>
    match inner.rule with
    | .voidTy => return none
    | _ => do return some (← type inner)
  termination_by (sizeOf tree, 0)
end

def typedName (tree : Tree) : Walk (String × Ty) := do
  let (name, rest) ← nextText input tree.children
  let (ty, _) ← next input rest
  return (name, ← type input ty)

def allocId (tree : Tree) : String :=
  match tree.rule with
  | .allocId => Tree.spanned tree.children
  | _ => tree.text

def callKind (word : String) : Walk CallKind :=
  match word with
  | "$call_ext" => return .external
  | "$call_dir" => return .direct
  | "$call_idr" => return .indirect
  | other => throw (.construct other)

def call (dst : Option String) (tree : Tree) : Walk Op := do
  let (word, rest) ← nextText input tree.children
  let kind ← callKind word
  let (callee, rest) ← nextText input rest
  let (args, rest) ← next input rest
  let args ← args.children.mapM (operand input)
  let continuation := rest.find? fun tree => tree.rule = .ident
  return .call ⟨dst, kind, callee, args, continuation.map Tree.text⟩

def binary {α : Type} (ofName? : String → Option α) (make : α → Operand → Operand → Op)
    (tree : Tree) : Walk Op := do
  let (word, rest) ← nextText input tree.significant
  let some op := ofName? word | throw (.construct word)
  let (lhs, rest) ← nextOperand input rest
  let (rhs, _) ← nextOperand input rest
  return make op lhs rhs

def assigned (dst : String) (tree : Tree) : Walk Op := do
  match tree.rule with
  | .call => call input (some dst) tree
  | .copy =>
    let (src, _) ← nextOperand input tree.significant
    return .copy dst src
  | .arith => binary input ArithOp.ofName? (.arith dst) tree
  | .cmp => binary input CmpOp.ofName? (.cmp dst) tree
  | .gep =>
    let (base, rest) ← nextText input tree.significant
    let (index, _) ← nextOperand input rest
    return .gep dst base index
  | .gfp =>
    let (base, rest) ← nextText input tree.significant
    let (field, _) ← nextText input rest
    return .gfp dst base field
  | .alloc =>
    let (size, rest) ← nextOperand input tree.significant
    return .alloc dst size (rest.head?.map allocId)
  | .addrOf =>
    let (src, _) ← nextText input tree.significant
    return .addrOf dst src
  | .load =>
    let (src, _) ← nextText input tree.significant
    return .load dst src
  | _ => throw (.construct input)

def instruction (tree : Tree) : Walk Line := do
  match tree.rule with
  | .assign =>
    let (dst, rest) ← nextText input tree.children
    let (inner, _) ← next input rest
    return .op (← assigned input dst inner)
  | .store =>
    let (dst, rest) ← nextText input tree.significant
    let (value, _) ← nextOperand input rest
    return .op (.store dst value)
  | .call => return .op (← call input none tree)
  | .jump =>
    let (target, _) ← nextText input tree.significant
    return .term (.jump target)
  | .branch =>
    let (cond, rest) ← nextOperand input tree.significant
    let (thenBlock, rest) ← nextText input rest
    let (elseBlock, _) ← nextText input rest
    return .term (.branch cond thenBlock elseBlock)
  | .ret =>
    match tree.children.find? fun child => child.rule = .operand with
    | some value => return .term (.ret (some (← operand input value)))
    | none => return .term (.ret none)
  | _ => throw (.construct input)

/-- Fields, and whether the brace that closes the record is there, with the part of a record header
that comes next. -/
def recordPart (found : List (String × Ty) × Bool) (tree : Tree) :
    Walk (List (String × Ty) × Bool) := do
  match tree.rule with
  | .fieldList => return (found.1 ++ (← tree.children.mapM (typedName input)), found.2)
  | .close => return (found.1, true)
  | _ => return found

def functionPart (found : List (String × Ty) × Option Ty) (tree : Tree) :
    Walk (List (String × Ty) × Option Ty) := do
  match tree.rule with
  | .paramList => return (found.1 ++ (← tree.children.mapM (typedName input)), found.2)
  | .resultTy => return (found.1, ← result input tree)
  | _ => return found

def item (tree : Tree) : Walk Line := do
  match tree.rule with
  | .recordHeader =>
    let (name, rest) ← nextText input tree.significant
    let (fields, closed) ← rest.foldlM (recordPart input) ([], false)
    return .recordHeader name fields closed
  | .functionHeader =>
    let (name, rest) ← nextText input tree.significant
    let (params, result) ← rest.foldlM (functionPart input) ([], none)
    return .functionHeader name params result
  | .external =>
    let (name, rest) ← nextText input tree.significant
    let (sig, _) ← next input rest
    return .external name (← signature input ⟨[], none⟩ sig.children)
  | .locals => return .locals (← tree.significant.mapM (typedName input))
  | .declaration =>
    let (inner, _) ← next input tree.children
    let (name, ty) ← typedName input inner
    return .declaration name ty
  | .label =>
    let (name, _) ← nextText input tree.children
    return .label name
  | .close => return .close
  | .instruction =>
    let (inner, _) ← next input tree.children
    instruction input inner
  | _ => throw (.construct input)

def line (trees : List Tree) : Walk Line := do
  let (tree, _) ← next input trees
  match tree.children.find? fun child => child.rule ≠ .endOfText with
  | none => return .blank
  | some inner => item input inner

end Walk

end Grammar

end Lir
