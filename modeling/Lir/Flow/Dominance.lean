import Lir.Flow.Graph

/-!
Dominators, immediate dominators and dominance frontiers of a flow graph.

A block that the entry does not reach dominates itself alone, has an empty frontier, and does not
count as a predecessor.
-/

set_option autoImplicit false

namespace Lir

structure Dominance where
  dominators : NameMap NameSet
  /-- The closest strict dominator, for every reachable block but the entry. -/
  idom : NameMap String
  /-- The blocks with a given immediate dominator, sorted. -/
  children : NameMap (List String)
  frontiers : NameMap NameSet

namespace Dominance

/-- What all given sets share; nothing if there are none. -/
def meet : List NameSet → NameSet
  | [] => ∅
  | first :: rest => rest.foldl (· ∩ ·) first

def refineBlock (g : FlowGraph) (sets : NameMap NameSet) (block : String) : NameSet :=
  (meet ((g.predecessors block).filterMap fun pred => sets[pred]?)).insert block

def refineInto (g : FlowGraph) (state : NameMap NameSet × Bool) (block : String) :
    NameMap NameSet × Bool :=
  let refined := refineBlock g state.1 block
  if state.1[block]? = some refined then state else (state.1.insert block refined, true)

def refineRound (g : FlowGraph) (order : List String) (sets : NameMap NameSet) :
    NameMap NameSet × Bool :=
  order.foldl (refineInto g) (sets, false)

def refineSteps (g : FlowGraph) (order : List String) : Nat → NameMap NameSet → NameMap NameSet
  | 0, sets => sets
  | steps + 1, sets =>
    match refineRound g order sets with
    | (sets, true) => refineSteps g order steps sets
    | (sets, false) => sets

/-- Before refinement the entry has itself and every other reachable block has all of them. -/
def initialSets : List String → NameMap NameSet
  | [] => ∅
  | entry :: rest =>
    rest.foldl (fun sets block => sets.insert block (.ofNames (entry :: rest)))
      ((∅ : NameMap NameSet).insert entry {entry})

/-- Dominators of the reachable blocks, given in reverse postorder. A round that changes anything
makes a set smaller, so there are at most as many such rounds as set members. -/
def reachableSets (g : FlowGraph) (order : List String) : NameMap NameSet :=
  refineSteps g order.tail (order.length * order.length + 1) (initialSets order)

def completeSets (g : FlowGraph) (sets : NameMap NameSet) : NameMap NameSet :=
  g.blocks.foldl (fun sets block => sets.insertIfNew block {block}) sets

def depth (sets : NameMap NameSet) (block : String) : Nat :=
  (sets[block]?.map (·.size)).getD 0

def deepest? (sets : NameMap NameSet) : List String → Option String
  | [] => none
  | first :: rest =>
    some (rest.foldl
      (fun best block => if depth sets best ≤ depth sets block then block else best) first)

/-- The strict dominator that all others dominate has the most dominators itself. -/
def immediate? (sets : NameMap NameSet) (block : String) : Option String :=
  deepest? sets (((sets[block]?.getD ∅).toList).filter fun other => other ≠ block)

def immediates (sets : NameMap NameSet) (reachable : List String) : NameMap String :=
  reachable.foldl
    (fun idom block =>
      match immediate? sets block with
      | some parent => idom.insert block parent
      | none => idom)
    ∅

def childLists (idom : NameMap String) : NameMap (List String) :=
  idom.toList.foldl
    (fun children entry =>
      children.insert entry.2 ((children[entry.2]?.getD []) ++ [entry.1]))
    ∅

/-- Put `join` on the frontier of every block that dominates `pred` without strictly dominating
`join`. -/
def addJoin (sets : NameMap NameSet) (join pred : String) (frontiers : NameMap NameSet) :
    NameMap NameSet :=
  ((sets[pred]?.getD ∅).toList).foldl
    -- A runner dominates the predecessor; where it no longer strictly dominates, its reach ends.
    (fun frontiers runner =>
      if runner = join ∨ runner ∉ sets[join]?.getD ∅ then
        frontiers.modify runner (·.insert join)
      else frontiers)
    frontiers

def frontierSets (g : FlowGraph) (order : List String) (sets : NameMap NameSet) :
    NameMap NameSet :=
  let none := g.blocks.foldl (fun frontiers block => frontiers.insert block ∅)
    (∅ : NameMap NameSet)
  order.foldl
    (fun frontiers join =>
      ((g.predecessors join).filter fun pred => pred ∈ order).foldl
        (fun frontiers pred => addJoin sets join pred frontiers) frontiers)
    none

def build (g : FlowGraph) : Dominance :=
  let order := g.reversePostorder
  let sets := completeSets g (reachableSets g order)
  let idom := immediates sets (NameSet.ofNames order).toList
  { dominators := sets
    idom := idom
    children := childLists idom
    frontiers := frontierSets g order sets }

def dominates (d : Dominance) (a b : String) : Bool :=
  match d.dominators[b]? with
  | some set => a ∈ set
  | none => false

def strictlyDominates (d : Dominance) (a b : String) : Bool := a ≠ b && d.dominates a b

def childrenOf (d : Dominance) (block : String) : List String := d.children[block]?.getD []

end Dominance

end Lir
