import Lir.Function
import Lir.Sorted

/-!
The flow graph of a function: its blocks and the edges between them.

An edge to a block that the function does not have is left out of the graph and reported apart.
-/

set_option autoImplicit false

namespace Lir

/-- For every block, in the order of the function, its successors in edge order. -/
structure FlowGraph where
  edges : Table (List String)

structure DanglingEdge where
  function : String
  block : String
  target : String
  deriving DecidableEq

namespace DanglingEdge

def message : String := "edge to undefined block ignored"

def render (edge : DanglingEdge) : String :=
  "WARN " ++ message ++ " function=" ++ edge.function ++ " block=" ++ edge.block ++
    " target=" ++ edge.target

end DanglingEdge

namespace Function

def danglingEdges (f : Function) : List DanglingEdge :=
  f.blocks.entries.flatMap fun entry =>
    (entry.2.successors.filter fun target => !f.blocks.contains target).map fun target =>
      ⟨f.name, entry.1, target⟩

def graph (f : Function) : FlowGraph :=
  ⟨f.blocks.mapValues fun _ block =>
    block.successors.filter fun target => f.blocks.contains target⟩

end Function

/-- A depth-first walk. A frame is a block and the successors it has yet to follow; a block joins
the front of the order when it has none left. -/
structure Walk where
  stack : List (String × List String)
  seen : NameSet
  order : List String

namespace FlowGraph

def blocks (g : FlowGraph) : List String := g.edges.keys

def contains (g : FlowGraph) (block : String) : Bool := g.edges.contains block

def successors (g : FlowGraph) (block : String) : List String := (g.edges.get? block).getD []

def predecessors (g : FlowGraph) (block : String) : List String :=
  (g.edges.entries.filter fun entry => block ∈ entry.2).map Prod.fst

def edgeCount (g : FlowGraph) : Nat := g.edges.values.flatten.length

def visitSteps (g : FlowGraph) : Nat → List String → NameSet → NameSet
  | 0, _, seen => seen
  | _ + 1, [], seen => seen
  | steps + 1, block :: queue, seen =>
    if block ∈ seen then g.visitSteps steps queue seen
    else g.visitSteps steps (queue ++ g.successors block) (seen.insert block)

/-- Blocks that a path from the entry leads to. A block is queued once for the start and once for
each edge into it, which bounds the visits. -/
def reachable (g : FlowGraph) : NameSet :=
  if g.contains entryName then g.visitSteps (g.edgeCount + 1) [entryName] ∅ else ∅

/-- One step of a walk: follow the next edge of the block on top, or finish that block. -/
def walkStep (g : FlowGraph) (w : Walk) : Walk :=
  match w.stack with
  | [] => w
  | (block, []) :: stack => { w with stack := stack, order := block :: w.order }
  | (block, next :: later) :: stack =>
    if next ∈ w.seen then { w with stack := (block, later) :: stack }
    else
      { w with
        stack := (next, g.successors next) :: (block, later) :: stack
        seen := w.seen.insert next }

def walkSteps (g : FlowGraph) : Nat → Walk → Walk
  | 0, w => w
  | steps + 1, w => if w.stack.isEmpty then w else g.walkSteps steps (g.walkStep w)

def walk (g : FlowGraph) : Walk :=
  if g.contains entryName then
    g.walkSteps (g.edgeCount + g.blocks.length)
      ⟨[(entryName, g.successors entryName)], {entryName}, []⟩
  else ⟨[], ∅, []⟩

def reversePostorder (g : FlowGraph) : List String := g.walk.order

/-! ### Edges from both ends -/

theorem mem_blocks (g : FlowGraph) (block : String) :
    block ∈ g.blocks ↔ g.contains block = true :=
  (g.edges.contains_iff_mem_keys block).symm

theorem nodup_blocks (g : FlowGraph) : g.blocks.Nodup := g.edges.nodup

theorem mem_predecessors (g : FlowGraph) (source target : String) :
    source ∈ g.predecessors target ↔ target ∈ g.successors source := by
  simp only [predecessors, successors, List.mem_map, List.mem_filter, decide_eq_true_eq]
  constructor
  · rintro ⟨entry, ⟨member, edge⟩, rfl⟩
    rw [(g.edges.get?_eq_some_iff entry.1 entry.2).2 member]
    exact edge
  · intro edge
    cases found : g.edges.get? source with
    | none => simp [found] at edge
    | some targets =>
      refine ⟨(source, targets), ⟨(g.edges.get?_eq_some_iff _ _).1 found, ?_⟩, rfl⟩
      simpa [found] using edge

end FlowGraph

namespace Function

@[simp] theorem blocks_graph (f : Function) : f.graph.blocks = f.blocks.keys :=
  f.blocks.keys_mapValues _

@[simp] theorem contains_graph (f : Function) (block : String) :
    f.graph.contains block = f.blocks.contains block := by
  rw [FlowGraph.contains, ← Table.isSome_get?, ← Table.isSome_get?, graph, Table.get?_mapValues,
    Option.isSome_map]

theorem mem_successors_graph (f : Function) (source target : String) :
    target ∈ f.graph.successors source ↔
      ∃ block, f.blocks.get? source = some block ∧ target ∈ block.successors ∧
        f.blocks.contains target = true := by
  simp only [FlowGraph.successors, graph, Table.get?_mapValues]
  cases f.blocks.get? source <;> simp

end Function

end Lir
