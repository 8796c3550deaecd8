import Lir.Context
import Lir.Flow.Solver

/-!
Reaching definitions: which program points may have written a name last.

An assignment replaces the definitions of its name. A store or a call adds itself to the
definitions of every name it may write, so nothing that it may have left alone is lost.
-/

set_option autoImplicit false

namespace Lir

/-- The definitions of each known name. A known name without any is not written on any path so
far. -/
abbrev DefMap := NameMap PointSet

namespace DefMap

def declare (s : DefMap) (name : String) : DefMap := s.insertIfNew name ∅

def strongUpdate (s : DefMap) (name : String) (point : Point) : DefMap :=
  s.insert name {point}

/-- The name may now be defined at the point too, and whether this is new. An unknown name stays
unknown. -/
def weakUpdate (s : DefMap) (name : String) (point : Point) : DefMap × Bool :=
  match s[name]? with
  | some points => (s.insert name (points.insert point), point ∉ points)
  | none => (s, false)

def weakUpdateAll (s : DefMap) (names : NameSet) (point : Point) : DefMap :=
  names.toList.foldl (fun s name => (weakUpdate s name point).1) s

def points (s : DefMap) (name : String) : PointSet := s[name]?.getD ∅

end DefMap

namespace Reaching

/-- Every variable is known and none is written yet. -/
def start (ctx : Context) : DefMap :=
  ctx.vars.keys.foldl DefMap.declare ∅

def transfer (ctx : Context) : Instruction → DefMap → DefMap
  | .term _ _, s => s
  | .op block index (.store dst value), s =>
    DefMap.weakUpdateAll s (ctx.storeTargets dst value) (.op block index)
  | .op block index (.call site), s =>
    let point := Point.op block index
    -- The result is assigned after the callee has run, so it is defined here alone.
    let s := DefMap.weakUpdateAll s (ctx.aliases.clobbered point) point
    match site.dst with
    | some dst => s.strongUpdate dst point
    | none => s
  | .op block index operation, s =>
    match operation.def? with
    | some dst => s.strongUpdate dst (.op block index)
    | none => s

def analysis (ctx : Context) : Analysis DefMap := ⟨start ctx, transfer ctx⟩

/-- How often a state can grow: once for each name, and once for each point added to a name. -/
def height (ctx : Context) : Nat :=
  let instructions := ctx.function.instructions.length
  (ctx.vars.size + instructions) * (1 + instructions)

def solve (ctx : Context) : Fixpoint DefMap :=
  (analysis ctx).solve ctx.function (height ctx)

/-- The names that an instruction reads, by name or through memory. Taking an address into a name
counts that name. -/
def readNames (ctx : Context) (inst : Instruction) : List String :=
  inst.uses ++
    match inst with
    | .op _ _ (.load dst src) =>
      match ctx.loadType? dst src with
      | some ty => (ctx.aliases.mayPointTo ty).toList
      | none => []
    | .op _ _ (.addrOf dst _) => [dst]
    | _ => []

def usedPoints (ctx : Context) (inst : Instruction) (s : DefMap) : PointSet :=
  .ofList ((readNames ctx inst).flatMap fun name => (DefMap.points s name).toList)

end Reaching

/-- The states around every instruction of the reached blocks, and the definitions that reach
its reads. -/
structure ReachingDefs where
  fixpoint : Fixpoint DefMap
  before : PointMap DefMap
  after : PointMap DefMap
  solution : PointMap PointSet

namespace ReachingDefs

def record (ctx : Context) (r : ReachingDefs × DefMap) (inst : Instruction) :
    ReachingDefs × DefMap :=
  let (result, state) := r
  let next := Reaching.transfer ctx inst state
  ({ result with
      before := result.before.insert inst.point state
      after := result.after.insert inst.point next
      solution := result.solution.insert inst.point (Reaching.usedPoints ctx inst state) },
    next)

def recordBlock (ctx : Context) (result : ReachingDefs) (block : String × Block) : ReachingDefs :=
  match result.fixpoint.pre[block.1]? with
  | some state => (block.2.instructions.foldl (record ctx) (result, state)).1
  | none => result

/-- If two instructions have one point, the later one's record stays. -/
def compute (ctx : Context) : ReachingDefs :=
  ctx.function.blocks.entries.foldl (recordBlock ctx) ⟨Reaching.solve ctx, ∅, ∅, ∅⟩

def reaching (r : ReachingDefs) (point : Point) (name : String) : PointSet :=
  match r.before[point]? with
  | some state => DefMap.points state name
  | none => ∅

def reachingAfter (r : ReachingDefs) (point : Point) (name : String) : PointSet :=
  match r.after[point]? with
  | some state => DefMap.points state name
  | none => ∅

end ReachingDefs

end Lir
