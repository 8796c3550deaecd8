import Lir.Proofs.Flow.Solver
import Lir.Proofs.Memory
import Lir.Reaching

/-!
What instructions do to reaching definitions, one after the other.

An instruction's point joins the definitions of every name that it writes, and replaces them where
it assigns the name. Along a trace of instructions this leaves, for every name, the points that
wrote it and were not followed by an assignment.
-/

set_option autoImplicit false

namespace Lir

namespace DefMap

theorem getElem?_weakUpdate (s : DefMap) (name other : String) (point : Point) :
    (weakUpdate s name point).1[other]? =
      if name = other then s[other]?.map (·.insert point) else s[other]? := by
  rw [weakUpdate]
  cases found : s[name]? with
  | some points =>
    rw [getElem?_insert_map]
    by_cases same : name = other
    · rw [if_pos same, if_pos same, ← same, found, Option.map_some]
    · rw [if_neg same, if_neg same]
  | none =>
    by_cases same : name = other
    · rw [if_pos same, ← same, found, Option.map_none]
    · rw [if_neg same]

theorem getElem?_weakUpdateAll (s : DefMap) (names : NameSet) (point : Point) (name : String) :
    (weakUpdateAll s names point)[name]? =
      if name ∈ names then s[name]?.map (·.insert point) else s[name]? := by
  have twice : ∀ points : PointSet, (points.insert point).insert point = points.insert point :=
    fun points => Std.ExtTreeSet.ext_mem fun member => by
      simp only [mem_insert_set, ← or_assoc, or_self]
  refine (getElem?_foldl_change twice (fun s name other => getElem?_weakUpdate s name other point)
    names.toList s name).trans ?_
  simp only [Std.ExtTreeSet.mem_toList]

end DefMap

namespace Reaching

variable {ctx : Context}

/-- Names that an instruction may leave as they are or overwrite. -/
def mayWrite (ctx : Context) : Instruction → NameSet
  | .op _ _ (.store dst value) => ctx.storeTargets dst value
  | .op block index (.call _) => ctx.aliases.clobbered (.op block index)
  | _ => ∅

def Writes (ctx : Context) (inst : Instruction) (name : String) : Prop :=
  inst.def? = some name ∨ name ∈ mayWrite ctx inst

/-- The effect of an instruction on one name. -/
theorem getElem?_transfer (ctx : Context) (inst : Instruction) (s : DefMap) (name : String) :
    (transfer ctx inst s)[name]? =
      if inst.def? = some name then some {inst.point}
      else if name ∈ mayWrite ctx inst then s[name]?.map (·.insert inst.point)
      else s[name]? := by
  have assigned : ∀ (dst : String) (point : Point) (s : DefMap),
      (s.strongUpdate dst point)[name]? = if some dst = some name then some {point} else s[name]? := by
    intro dst point s
    rw [DefMap.strongUpdate, getElem?_insert_map]
    simp
  cases inst with
  | term _ _ => simp [transfer, mayWrite, Instruction.def?]
  | op block index operation =>
    cases operation with
    | store dst value => exact DefMap.getElem?_weakUpdateAll s _ _ name
    | call site =>
      obtain ⟨dst, _, _, _, _⟩ := site
      cases dst with
      | none => exact DefMap.getElem?_weakUpdateAll s _ _ name
      | some dst =>
        refine (assigned dst _ _).trans ?_
        rw [DefMap.getElem?_weakUpdateAll]
        rfl
    | _ => simp only [transfer, mayWrite, Instruction.def?, Op.def?, Instruction.point, assigned,
        Std.ExtTreeSet.not_mem_empty, if_false]

theorem getElem?_transfer_of_not_writes {inst : Instruction} {name : String}
    (unwritten : ¬ Writes ctx inst name) (s : DefMap) :
    (transfer ctx inst s)[name]? = s[name]? := by
  obtain ⟨not_assigned, not_stored⟩ := not_or.1 unwritten
  rw [getElem?_transfer, if_neg not_assigned, if_neg not_stored]

theorem writes_call_iff {inst : Instruction} {site : Call} (calls : inst.call? = some site)
    (name : String) :
    Writes ctx inst name ↔ inst.def? = some name ∨ name ∈ ctx.aliases.clobbered inst.point := by
  cases inst with
  | term _ _ => cases calls
  | op _ _ operation =>
    cases operation with
    | call _ => rfl
    | _ => cases calls

theorem mem_vars_of_mem_mayWrite {p : Program} {f : Function} {inst : Instruction} {name : String}
    (member : name ∈ mayWrite (.ofFunction p f) inst) : name ∈ (Context.ofFunction p f).vars.keys := by
  have listed := Context.listed_memory p f
  cases inst with
  | term _ _ => simp [mayWrite] at member
  | op block index operation =>
    cases operation with
    | store dst value =>
      rw [mayWrite, Context.storeTargets] at member
      split at member
      · exact listed.members _ name member
      · simp at member
    | call site => exact listed.clobbered _ name member
    | _ => simp [mayWrite] at member

/-- Every variable has definitions, if only an empty set of them. -/
def KnowsVars (ctx : Context) (s : DefMap) : Prop := ∀ name ∈ ctx.vars.keys, name ∈ s

theorem KnowsVars.transfer {s : DefMap} (knows : KnowsVars ctx s) (inst : Instruction) :
    KnowsVars ctx (transfer ctx inst s) := by
  intro name declared
  obtain ⟨points, found⟩ := (mem_map_iff s name).1 (knows name declared)
  rw [mem_map_iff, getElem?_transfer, found]
  split
  · exact ⟨_, rfl⟩
  · split <;> exact ⟨_, rfl⟩

theorem KnowsVars.transferAll {s : DefMap} (knows : KnowsVars ctx s)
    (instructions : List Instruction) :
    KnowsVars ctx ((analysis ctx).transferAll instructions s) :=
  List.foldlRecOn (motive := KnowsVars ctx) instructions _ knows fun _ knows inst _ =>
    knows.transfer inst

theorem KnowsVars.join {s : DefMap} (knows : KnowsVars ctx s) (t : DefMap) :
    KnowsVars ctx (Lir.join s t) := by
  intro name declared
  obtain ⟨points, found⟩ := (mem_map_iff s name).1 (knows name declared)
  rw [mem_map_iff, getElem?_join, found]
  cases t[name]? <;> exact ⟨_, rfl⟩

theorem getElem?_start (ctx : Context) (name : String) :
    (start ctx)[name]? = if name ∈ ctx.vars.keys then some ∅ else none := by
  have declared : ∀ (names : List String) (s : DefMap),
      (names.foldl DefMap.declare s)[name]? =
        s[name]?.or (if name ∈ names then some ∅ else none) := by
    intro names
    induction names with
    | nil => simp
    | cons first rest ih =>
      intro s
      rw [List.foldl_cons, ih, DefMap.declare, Std.ExtTreeMap.getElem?_insertIfNew]
      by_cases same : first = name
      · subst same
        rw [if_pos List.mem_cons_self]
        cases found : s[first]? with
        | some points =>
          have known : first ∈ s := (mem_map_iff s first).2 ⟨points, found⟩
          rw [if_neg fun fresh => fresh.2 known]
          rfl
        | none =>
          have fresh : first ∉ s := by simp [mem_map_iff, found]
          rw [if_pos ⟨Std.ReflOrd.compare_self, fresh⟩]
          rfl
      · simp [same, Ne.symm same]
  rw [start, declared]
  simp

theorem knowsVars_start (ctx : Context) : KnowsVars ctx (start ctx) := by
  intro name declared
  rw [mem_map_iff, getElem?_start, if_pos declared]
  exact ⟨∅, rfl⟩

theorem mem_points_join (s t : DefMap) (name : String) (point : Point) :
    point ∈ (Lir.join s t).points name ↔ point ∈ s.points name ∨ point ∈ t.points name := by
  simp only [DefMap.points, getElem?_join]
  cases s[name]? <;> cases t[name]? <;> simp [mem_join_set]

/-- Of the definitions after an instruction, one is its own and the others were there before and
are not replaced. -/
theorem mem_points_transfer {s : DefMap} {inst : Instruction} {name : String}
    (known : name ∈ mayWrite ctx inst → name ∈ s) (point : Point) :
    point ∈ (transfer ctx inst s).points name ↔
      inst.point = point ∧ Writes ctx inst name ∨
      point ∈ s.points name ∧ inst.def? ≠ some name := by
  rw [DefMap.points, getElem?_transfer]
  by_cases assigns : inst.def? = some name
  · simp only [assigns, if_true, Option.getD_some, mem_singleton_set, Writes, true_or, and_true,
      ne_eq, not_true, and_false, or_false, eq_comm]
  · by_cases written : name ∈ mayWrite ctx inst
    · obtain ⟨points, found⟩ := (mem_map_iff s name).1 (known written)
      simp only [assigns, if_false, written, if_true, found, Option.map_some, Option.getD_some,
        mem_insert_set, Writes, or_true, and_true, DefMap.points, ne_eq, not_false_eq_true,
        eq_comm (a := point)]
    · simp [assigns, written, Writes, DefMap.points]

/-! ### Traces -/

/-- Somewhere on the trace the point wrote the name, and nothing after it assigned the name. -/
def LastWrote (ctx : Context) (trace : List Instruction) (point : Point) (name : String) : Prop :=
  ∃ earlier writer later, trace = earlier ++ writer :: later ∧ writer.point = point ∧
    Writes ctx writer name ∧ ∀ inst ∈ later, inst.def? ≠ some name

theorem not_lastWrote_nil (point : Point) (name : String) : ¬ LastWrote ctx [] point name := by
  rintro ⟨earlier, writer, later, same, _⟩
  simp at same

theorem lastWrote_cons (inst : Instruction) (rest : List Instruction) (point : Point)
    (name : String) :
    LastWrote ctx (inst :: rest) point name ↔
      LastWrote ctx rest point name ∨
      (inst.point = point ∧ Writes ctx inst name) ∧ ∀ later ∈ rest, later.def? ≠ some name := by
  constructor
  · rintro ⟨earlier, writer, later, same, at_point, writes, kept⟩
    cases earlier with
    | nil =>
      obtain ⟨rfl, rfl⟩ := List.cons.inj same
      exact .inr ⟨⟨at_point, writes⟩, kept⟩
    | cons first earlier =>
      obtain ⟨rfl, rfl⟩ := List.cons.inj same
      exact .inl ⟨earlier, writer, later, rfl, at_point, writes, kept⟩
  · rintro (⟨earlier, writer, later, rfl, written⟩ | ⟨⟨at_point, writes⟩, kept⟩)
    · exact ⟨inst :: earlier, writer, later, rfl, written⟩
    · exact ⟨[], inst, rest, rfl, at_point, writes, kept⟩

theorem lastWrote_append (trace rest : List Instruction) (point : Point) (name : String) :
    LastWrote ctx (trace ++ rest) point name ↔
      LastWrote ctx rest point name ∨
      LastWrote ctx trace point name ∧ ∀ later ∈ rest, later.def? ≠ some name := by
  induction trace with
  | nil => simp [not_lastWrote_nil]
  | cons inst trace ih =>
    rw [List.cons_append, lastWrote_cons, lastWrote_cons, ih, List.forall_mem_append, or_assoc,
      or_and_right, ← and_assoc]

/-- What is defined after some instructions was last written by them, or was defined before them
and not assigned since. -/
theorem mem_points_transferAll {p : Program} {f : Function} {s : DefMap}
    (knows : KnowsVars (.ofFunction p f) s) (instructions : List Instruction) (point : Point)
    (name : String) :
    point ∈ DefMap.points ((analysis (.ofFunction p f)).transferAll instructions s) name ↔
      LastWrote (.ofFunction p f) instructions point name ∨
      point ∈ s.points name ∧ ∀ inst ∈ instructions, inst.def? ≠ some name := by
  induction instructions generalizing s with
  | nil => simp [not_lastWrote_nil, Analysis.transferAll]
  | cons inst rest ih =>
    have known : name ∈ mayWrite (.ofFunction p f) inst → name ∈ s := fun member =>
      knows name (mem_vars_of_mem_mayWrite member)
    have own := mem_points_transfer known point
    refine (ih (knows.transfer inst)).trans ?_
    rw [own, lastWrote_cons, List.forall_mem_cons, or_and_right, or_assoc, and_assoc (b := _ ≠ _)]

end Reaching

end Lir
