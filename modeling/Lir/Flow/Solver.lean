import Lir.Flow.Graph
import Lir.Flow.Join

/-!
Forward analyses over a flow graph, solved with a worklist of block names.

Of the waiting blocks the one with the smallest name is visited next, which fixes the order and
the number of visits.
-/

set_option autoImplicit false

namespace Lir

/-- A forward analysis: the state at the start of the entry block, and the effect of an
instruction. -/
structure Analysis (σ : Type) where
  start : σ
  transfer : Instruction → σ → σ

structure Fixpoint (σ : Type) where
  pre : NameMap σ
  post : NameMap σ
  visits : Nat

structure Search (σ : Type) where
  found : Fixpoint σ
  waiting : NameSet

namespace Analysis

variable {σ : Type}

def transferAll (a : Analysis σ) (instructions : List Instruction) (state : σ) : σ :=
  instructions.foldl (fun state inst => a.transfer inst state) state

def transferBlock (a : Analysis σ) (block : Block) (state : σ) : σ :=
  a.transferAll block.instructions state

/-- Add a block's final state to the start of a successor; the successor waits if that grew. -/
def propagate [Join σ] (state : σ) (s : NameMap σ × NameSet) (target : String) :
    NameMap σ × NameSet :=
  match s.1[target]? with
  | some old =>
    let (grown, grew) := absorb old state
    (s.1.insert target grown, if grew then s.2.insert target else s.2)
  | none => (s.1.insert target state, s.2.insert target)

def visit [Join σ] (a : Analysis σ) (g : FlowGraph) (s : Search σ) (name : String)
    (block : Block) (state : σ) : Search σ :=
  let state := a.transferBlock block state
  let (pre, waiting) := (g.successors name).foldl (propagate state) (s.found.pre, s.waiting)
  ⟨⟨pre, s.found.post.insert name state, s.found.visits + 1⟩, waiting⟩

/-- Take the smallest waiting block and visit it. Without a waiting block nothing changes. -/
def step [Join σ] (a : Analysis σ) (f : Function) (s : Search σ) : Search σ :=
  match s.waiting.toList.head? with
  | none => s
  | some name =>
    -- Taken off before its visit: a block that leads to itself may come to wait again.
    let s := { s with waiting := s.waiting.erase name }
    match f.blocks.get? name, s.found.pre[name]? with
    | some block, some state => a.visit f.graph s name block state
    | _, _ => s

def searchSteps [Join σ] (a : Analysis σ) (f : Function) : Nat → Search σ → Search σ
  | 0, s => s
  | steps + 1, s => if s.waiting.isEmpty then s else a.searchSteps f steps (a.step f s)

def initial (a : Analysis σ) : Search σ :=
  ⟨⟨(∅ : NameMap σ).insert entryName a.start, ∅, 0⟩, {entryName}⟩

/-- The search when it ends. A block waits again only after its state at the start grew, which
happens at most `height` times after it was first reached. -/
def search [Join σ] (a : Analysis σ) (f : Function) (height : Nat) : Search σ :=
  a.searchSteps f (f.blocks.size * (height + 1) + 1) a.initial

def solve [Join σ] (a : Analysis σ) (f : Function) (height : Nat) : Fixpoint σ :=
  (a.search f height).found

end Analysis

end Lir
