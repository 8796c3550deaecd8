import Lir.Proofs.Flow.Height
import Lir.Proofs.Flow.Path
import Lir.Flow.Solver

/-!
What the worklist search finds.

Whatever does not wait is settled: its state at the end follows from its state at the start, and
its successors have taken that in. When states cannot grow forever the search ends with nothing
waiting, so then this holds of every block that a path leads to. Nothing else gets a state, and
what holds at the start and survives instructions and joins holds of every state found.
-/

set_option autoImplicit false

namespace Lir

namespace Analysis

variable {σ : Type}

theorem getElem?_pre_initial {a : Analysis σ} {other : String} {now : σ}
    (found : a.initial.found.pre[other]? = some now) : other = entryName ∧ now = a.start := by
  rw [initial, getElem?_insert_map] at found
  split at found
  next same => exact ⟨same.symm, (Option.some.inj found).symm⟩
  next => simp at found

variable [Join σ]

/-! ### One visit -/

/-- What one visit does: the block's successors take in its final state, and those that grew
wait. -/
structure Visited (a : Analysis σ) (f : Function) (s : Search σ) (name : String)
    (block : Block) (state : σ) (next : Search σ) : Prop where
  pre : ∀ other, next.found.pre[other]? =
    if other ∈ f.graph.successors name then
      Option.merge join s.found.pre[other]? (some (a.transferBlock block state))
    else s.found.pre[other]?
  post : next.found.post = s.found.post.insert name (a.transferBlock block state)
  visits : next.found.visits = s.found.visits + 1
  waiting : ∀ other, other ∈ next.waiting ↔ other ∈ s.waiting ∧ other ≠ name ∨
    next.found.pre[other]? ≠ s.found.pre[other]?

variable {a : Analysis σ} {f : Function} {s next : Search σ} {name : String} {block : Block}
  {state : σ}

theorem Visited.mem_pre (visited : Visited a f s name block state next) {other : String}
    (known : other ∈ s.found.pre) : other ∈ next.found.pre := by
  obtain ⟨old, found⟩ := (mem_map_iff _ other).1 known
  rw [mem_map_iff, visited.pre, found]
  split
  · exact ⟨_, rfl⟩
  · exact ⟨old, rfl⟩

/-- What a visited block passes on, and survives joins, holds of every state after the visit. -/
theorem Visited.pre_induction {motive : String → σ → Prop}
    (visited : Visited a f s name block state next)
    (passed : ∀ target ∈ f.graph.successors name, motive target (a.transferBlock block state))
    (joined : ∀ other s t, motive other s → motive other t → motive other (join s t))
    (holds : ∀ (other : String) (now : σ), s.found.pre[other]? = some now → motive other now)
    (other : String) (now : σ) (found : next.found.pre[other]? = some now) : motive other now := by
  rw [visited.pre] at found
  split at found
  next edge =>
    cases before : s.found.pre[other]? with
    | none =>
      rw [before] at found
      exact Option.some.inj found ▸ passed other edge
    | some old =>
      rw [before] at found
      exact Option.some.inj found ▸ joined other old _ (holds other old before) (passed other edge)
  next => exact holds other now found

/-! ### Between visits -/

/-- What holds between visits. -/
structure Searching (a : Analysis σ) (f : Function) (s : Search σ) : Prop where
  reached : ∀ name ∈ s.found.pre, f.graph.Reaches name
  started : ∃ state, s.found.pre[entryName]? = some state ∧ join state a.start = state
  known : ∀ name ∈ s.waiting, name ∈ s.found.pre
  visited : ∀ name ∈ s.found.post, name ∈ s.found.pre
  settled : ∀ name state block, name ∉ s.waiting → s.found.pre[name]? = some state →
    f.blocks.get? name = some block →
      s.found.post[name]? = some (a.transferBlock block state) ∧
      ∀ target ∈ f.graph.successors name,
        Option.merge join s.found.pre[target]? (some (a.transferBlock block state)) =
          s.found.pre[target]?

/-! ### What a finished search has found -/

/-- States at both ends of every block that a path leads to, stable along its instructions and
its edges. -/
structure Solved (a : Analysis σ) (f : Function) (found : Fixpoint σ) : Prop where
  mem_pre : ∀ name, name ∈ found.pre ↔ f.graph.Reaches name
  mem_post : ∀ name, name ∈ found.post ↔ f.graph.Reaches name
  entry : ∃ state, found.pre[entryName]? = some state ∧ join state a.start = state
  block : ∀ name block state, f.blocks.get? name = some block → found.pre[name]? = some state →
    found.post[name]? = some (a.transferBlock block state)
  edge : ∀ source target before after, target ∈ f.graph.successors source →
    found.post[source]? = some before → found.pre[target]? = some after → join after before = after

theorem Searching.solved (searching : Searching a f s)
    (entry : f.blocks.contains entryName = true) (ended : s.waiting.isEmpty = true) :
    Solved a f s.found := by
  have rests : ∀ name, name ∉ s.waiting := fun name => by
    rw [Std.ExtTreeSet.isEmpty_iff.1 ended]
    exact Std.ExtTreeSet.not_mem_empty
  have listed : ∀ name, f.graph.Reaches name → ∃ block, f.blocks.get? name = some block :=
    fun _ => Function.exists_block entry
  have settled : ∀ name state block, s.found.pre[name]? = some state →
      f.blocks.get? name = some block → _ := fun name state block =>
    searching.settled name state block (rests name)
  have mem_pre : ∀ name, f.graph.Reaches name → name ∈ s.found.pre := by
    intro name reached
    refine reached.induction ?_ ?_
    · obtain ⟨state, found, _⟩ := searching.started
      exact (mem_map_iff _ _).2 ⟨state, found⟩
    · intro source target source_reached known edge
      obtain ⟨state, found⟩ := (mem_map_iff _ _).1 known
      obtain ⟨block, source_listed⟩ := listed source source_reached
      have passed := (settled source state block found source_listed).2 target edge
      rw [mem_map_iff]
      cases at_target : s.found.pre[target]? with
      | none => simp [at_target] at passed
      | some next => exact ⟨next, rfl⟩
  refine ⟨fun name => ⟨searching.reached name, mem_pre name⟩, fun name => ⟨?_, ?_⟩,
    searching.started, ?_, ?_⟩
  · exact fun member => searching.reached name (searching.visited name member)
  · intro reached
    obtain ⟨state, found⟩ := (mem_map_iff _ _).1 (mem_pre name reached)
    obtain ⟨block, name_listed⟩ := listed name reached
    exact (mem_map_iff _ _).2 ⟨_, (settled name state block found name_listed).1⟩
  · exact fun name block state name_listed found => (settled name state block found name_listed).1
  · intro source target before after edge at_end at_start
    have known := searching.visited source ((mem_map_iff _ _).2 ⟨before, at_end⟩)
    obtain ⟨state, found⟩ := (mem_map_iff _ _).1 known
    obtain ⟨block, source_listed⟩ := listed source (searching.reached source known)
    obtain ⟨post, passed⟩ := settled source state block found source_listed
    obtain rfl := Option.some.inj (post.symm.trans at_end)
    have taken_in := passed target edge
    rw [at_start] at taken_in
    exact Option.some.inj taken_in

/-! ### States that cannot grow forever -/

structure Ranking (a : Analysis σ) (f : Function) (height : Nat) extends Ranked σ height where
  start : possible a.start
  transfer {name : String} {block : Block} {state : σ} :
    f.blocks.get? name = some block → possible state → possible (a.transferBlock block state)

namespace Ranking

variable {height : Nat} (ranking : Ranking a f height)

def weaken {larger : Nat} (le : height ≤ larger) : Ranking a f larger :=
  { ranking with toRanked := ranking.toRanked.weaken le }

/-- How often a block may still be visited: once if it waits, and once for each time its state
may yet grow. -/
def due (s : Search σ) (name : String) : Nat :=
  (if name ∈ s.waiting then 1 else 0) +
    s.found.pre[name]?.elim (height + 1) fun state => height - ranking.rank state

def potential (names : List String) (s : Search σ) : Nat := (names.map (ranking.due s)).sum

variable {ranking}

def Holds (ranking : Ranking a f height) (s : Search σ) : Prop :=
  ∀ (name : String) (state : σ), s.found.pre[name]? = some state → ranking.possible state

theorem Holds.visited (holds : ranking.Holds s)
    (found : s.found.pre[name]? = some state) (listed : f.blocks.get? name = some block)
    (visited : Visited a f s name block state next) : ranking.Holds next :=
  visited.pre_induction (motive := fun _ => ranking.possible)
    (fun _ _ => ranking.transfer listed (holds name state found))
    (fun _ _ _ => ranking.joined) holds

theorem due_of_visited (searching : Searching a f s)
    (possible : ranking.Holds s) (waits : name ∈ s.waiting) (found : s.found.pre[name]? = some state)
    (listed : f.blocks.get? name = some block) (visited : Visited a f s name block state next)
    (other : String) :
    ranking.due next other + (if other = name then 1 else 0) ≤ ranking.due s other := by
  have out := ranking.transfer listed (possible name state found)
  by_cases same : next.found.pre[other]? = s.found.pre[other]?
  · have rests : other ∈ next.waiting ↔ other ∈ s.waiting ∧ other ≠ name :=
      (visited.waiting other).trans (or_iff_left (not_not_intro same))
    by_cases here : other = name
    · subst here
      have left : ¬ (other ∈ s.waiting ∧ other ≠ other) := fun both => both.2 rfl
      simp only [due, same, rests, if_neg left, if_pos waits, if_true]
      omega
    · simp [due, same, rests, here]
  · -- The state grew, so its rank pays for the visit that the block now waits for.
    have waits_now : other ∈ next.waiting := (visited.waiting other).2 (.inr same)
    rw [visited.pre] at same
    split at same
    next edge =>
      have pre := (visited.pre other).trans (if_pos edge)
      cases before : s.found.pre[other]? with
      | none =>
        have different : other ≠ name := fun here => by simp [here, found] at before
        have fresh : other ∉ s.waiting := fun waited => by
          simpa [mem_map_iff, before] using searching.known other waited
        simp only [due, waits_now, pre, before, Option.merge_none_left, Option.elim_some,
          Option.elim_none, fresh, different, if_true, if_false]
        omega
      | some old =>
        rw [before] at same pre
        have old_possible := possible other old before
        have higher := ranking.grows old_possible out fun kept => same (congrArg some kept)
        have bounded := ranking.bounded (ranking.joined old_possible out)
        simp only [due, waits_now, pre, before, Option.merge_some_some, Option.elim_some, if_true]
        by_cases here : other = name
        · simp only [here, waits, if_true]
          omega
        · simp only [here, if_false]
          omega
    next => exact absurd rfl same

/-- A visit uses up one that was due and makes no more of them due. -/
theorem potential_of_visited {names : List String} (searching : Searching a f s)
    (holds : ranking.Holds s) (waits : name ∈ s.waiting)
    (found : s.found.pre[name]? = some state) (listed : f.blocks.get? name = some block)
    (visited : Visited a f s name block state next) (member : name ∈ names) :
    ranking.potential names next < ranking.potential names s := by
  have less := due_of_visited searching holds waits found listed visited
  apply List.sum_lt_sum
  · exact fun other _ => (Nat.le_add_right _ _).trans (less other)
  · refine ⟨name, member, ?_⟩
    exact (if_pos (c := name = name) rfl ▸ less name : ranking.due next name + 1 ≤ _)

theorem potential_initial_le (ranking : Ranking a f height) (names : List String) :
    ranking.potential names a.initial ≤ names.length * (height + 1) := by
  have bound := List.sum_le_card_nsmul (names.map (ranking.due a.initial)) (height + 1) (by
    intro count member
    obtain ⟨name, _, rfl⟩ := List.mem_map.1 member
    change ranking.due a.initial name ≤ height + 1
    by_cases same : entryName = name
    · subst same
      simp only [due, initial, getElem?_insert_map, mem_singleton_set, if_true, Option.elim_some]
      omega
    · simp [due, initial, same])
  simpa [potential] using bound

end Ranking

/-! ### From visits to the search -/

theorem propagate_eq (state : σ) (s : NameMap σ × NameSet) (target : String) :
    propagate state s target =
      match s.1[target]? with
      | some old => (s.1.insert target (absorb old state).1,
          if (absorb old state).2 then s.2.insert target else s.2)
      | none => (s.1.insert target state, s.2.insert target) := by
  unfold propagate
  cases s.1[target]? <;> rfl

variable [LawfulJoin σ]

theorem getElem?_propagate (state : σ) (s : NameMap σ × NameSet) (target name : String) :
    (propagate state s target).1[name]? =
      if target = name then Option.merge join s.1[name]? (some state) else s.1[name]? := by
  rw [propagate_eq]
  by_cases same : target = name
  · subst same
    cases s.1[target]? <;> simp [absorb_fst]
  · cases s.1[target]? <;> simp [same, getElem?_insert_map]

theorem mem_propagate (state : σ) (s : NameMap σ × NameSet) (target name : String) :
    name ∈ (propagate state s target).2 ↔ name ∈ s.2 ∨
      target = name ∧ Option.merge join s.1[name]? (some state) ≠ s.1[name]? := by
  rw [propagate_eq]
  by_cases same : target = name
  · subst same
    cases s.1[target]? with
    | none => simp
    | some old => by_cases grew : (absorb old state).2 = true <;> simp_all [absorb_snd]
  · cases s.1[target]? with
    | none => simp [same]
    | some old => by_cases grew : (absorb old state).2 = true <;> simp [grew, same]

/-- Every target takes the state in once, however often it is listed, and waits if it grew. -/
theorem foldl_propagate (state : σ) (targets : List String) (s : NameMap σ × NameSet)
    (name : String) :
    (targets.foldl (propagate state) s).1[name]? =
      (if name ∈ targets then Option.merge join s.1[name]? (some state) else s.1[name]?) ∧
    (name ∈ (targets.foldl (propagate state) s).2 ↔ name ∈ s.2 ∨
      (targets.foldl (propagate state) s).1[name]? ≠ s.1[name]?) := by
  induction targets generalizing s with
  | nil => simp
  | cons target rest ih =>
    obtain ⟨state_after, waits⟩ := ih (propagate state s target)
    rw [List.foldl_cons, waits, state_after, getElem?_propagate, mem_propagate]
    by_cases here : target = name
    · subst here
      simp only [if_true, List.mem_cons, true_or, merge_join_self, ite_self, ne_eq, not_true,
        or_false, true_and, and_self]
    · by_cases later : name ∈ rest <;> simp [here, Ne.symm here, later]

theorem visited_visit (a : Analysis σ) (f : Function) (s : Search σ) (name : String)
    (block : Block) (state : σ) :
    Visited a f s name block state
      (a.visit f.graph { s with waiting := s.waiting.erase name } name block state) where
  pre other := (foldl_propagate _ _ (s.found.pre, s.waiting.erase name) other).1
  post := rfl
  visits := rfl
  waiting other := by
    refine (foldl_propagate _ _ (s.found.pre, s.waiting.erase name) other).2.trans
      (or_congr_left ?_)
    rw [Std.ExtTreeSet.mem_erase, ne_eq, Std.compare_eq_iff_eq, and_comm, eq_comm (a := name)]

theorem searching_initial (a : Analysis σ) (f : Function) : Searching a f a.initial := by
  have only_entry : ∀ name ∈ a.initial.found.pre, name = entryName := by
    intro name member
    obtain ⟨state, found⟩ := (mem_map_iff _ name).1 member
    by_cases same : entryName = name
    · exact same.symm
    · simp [initial, same] at found
  have none_visited : ∀ name, name ∉ a.initial.found.post := fun _ =>
    Std.ExtTreeMap.not_mem_empty
  refine ⟨?_, ?_, ?_, ?_, ?_⟩
  · exact fun name member => only_entry name member ▸ .entry
  · exact ⟨a.start, by simp [initial], join_self a.start⟩
  · intro name waits
    rw [(mem_singleton_set entryName name).1 waits]
    exact (mem_map_iff _ _).2 ⟨a.start, by simp [initial]⟩
  · exact fun name member => absurd member (none_visited name)
  · intro name state block rests found _
    have at_entry := only_entry name ((mem_map_iff _ name).2 ⟨state, found⟩)
    exact absurd ((mem_singleton_set entryName name).2 at_entry) rests

theorem Visited.merge_eq (visited : Visited a f s name block state next) {other : String}
    {part : σ} (included : Option.merge join s.found.pre[other]? (some part) =
      s.found.pre[other]?) :
    Option.merge join next.found.pre[other]? (some part) = next.found.pre[other]? := by
  rw [visited.pre]
  split
  · cases found : s.found.pre[other]? with
    | none => simp [found] at included
    | some old =>
      rw [found] at included
      exact congrArg some (join_join_of_join_eq (Option.some.inj included) _)
  · exact included

theorem Visited.searching (visited : Visited a f s name block state next)
    (searching : Searching a f s) (waits : name ∈ s.waiting)
    (found : s.found.pre[name]? = some state) (listed : f.blocks.get? name = some block) :
    Searching a f next := by
  have name_known : name ∈ s.found.pre := searching.known name waits
  have grows : ∀ other, next.found.pre[other]? ≠ s.found.pre[other]? →
      other ∈ f.graph.successors name := by
    intro other changed
    rw [visited.pre] at changed
    exact Classical.byContradiction fun no_edge => changed (if_neg no_edge)
  have unchanged : ∀ other, other ∉ next.waiting →
      next.found.pre[other]? = s.found.pre[other]? := fun other rests =>
    Classical.byContradiction fun changed => rests ((visited.waiting other).2 (.inr changed))
  refine ⟨?_, ?_, ?_, ?_, ?_⟩
  · intro other member
    by_cases same : next.found.pre[other]? = s.found.pre[other]?
    · rw [mem_map_iff, same, ← mem_map_iff] at member
      exact searching.reached other member
    · exact (searching.reached name name_known).step (grows other same)
  · obtain ⟨first, at_entry, included⟩ := searching.started
    have kept : Option.merge join next.found.pre[entryName]? (some a.start) =
        next.found.pre[entryName]? :=
      visited.merge_eq (by rw [at_entry]; exact congrArg some included)
    obtain ⟨now, now_found⟩ :=
      (mem_map_iff _ _).1 (visited.mem_pre ((mem_map_iff _ _).2 ⟨first, at_entry⟩))
    rw [now_found] at kept
    exact ⟨now, now_found, Option.some.inj kept⟩
  · intro other member
    rcases (visited.waiting other).1 member with ⟨before, _⟩ | changed
    · exact visited.mem_pre (searching.known other before)
    · rw [mem_map_iff, visited.pre, if_pos (grows other changed)]
      cases s.found.pre[other]? <;> exact ⟨_, rfl⟩
  · intro other member
    rw [visited.post, Std.ExtTreeMap.mem_insert, Std.compare_eq_iff_eq] at member
    rcases member with rfl | before
    · exact visited.mem_pre name_known
    · exact visited.mem_pre (searching.visited other before)
  · intro other now current rests now_found current_listed
    rw [unchanged other rests] at now_found
    by_cases same : other = name
    · -- The visited block did not grow by its own visit, so it has just passed its state on.
      subst same
      obtain rfl := Option.some.inj (found.symm.trans now_found)
      obtain rfl := Option.some.inj (listed.symm.trans current_listed)
      refine ⟨by simp [visited.post], fun target edge => ?_⟩
      rw [visited.pre, if_pos edge, merge_join_self]
    · have rested : other ∉ s.waiting := fun waited =>
        rests ((visited.waiting other).2 (.inl ⟨waited, same⟩))
      obtain ⟨post, passed⟩ := searching.settled other now current rested now_found current_listed
      refine ⟨?_, fun target edge => visited.merge_eq (passed target edge)⟩
      rw [visited.post, getElem?_insert_map, if_neg (Ne.symm same)]
      exact post

theorem Searching.step_visits (searching : Searching a f s)
    (entry : f.blocks.contains entryName = true) (some_wait : s.waiting.isEmpty = false) :
    ∃ name block state, name ∈ s.waiting ∧ s.found.pre[name]? = some state ∧
      f.blocks.get? name = some block ∧ Visited a f s name block state (a.step f s) := by
  obtain ⟨name, first⟩ : ∃ name, s.waiting.toList.head? = some name := by
    rw [← Std.ExtTreeSet.isEmpty_toList] at some_wait
    cases listed : s.waiting.toList with
    | nil => simp [listed] at some_wait
    | cons name _ => exact ⟨name, rfl⟩
  have waits : name ∈ s.waiting := Std.ExtTreeSet.mem_toList.1 (List.mem_of_mem_head? first)
  have known := searching.known name waits
  obtain ⟨state, found⟩ := (mem_map_iff _ name).1 known
  obtain ⟨block, listed⟩ := Function.exists_block entry (searching.reached name known)
  have taken : a.step f s =
      a.visit f.graph { s with waiting := s.waiting.erase name } name block state := by
    simp only [step, first, found, listed]
  exact ⟨name, block, state, waits, found, listed, taken ▸ visited_visit a f s name block state⟩

theorem searchSteps_induction {motive : Search σ → Prop}
    (entry : f.blocks.contains entryName = true) (initial : motive a.initial)
    (visit : ∀ s next name block state, Searching a f s → motive s → name ∈ s.waiting →
      s.found.pre[name]? = some state → f.blocks.get? name = some block →
      Visited a f s name block state next → motive next)
    (steps : Nat) : motive (a.searchSteps f steps a.initial) := by
  have run : ∀ steps s, Searching a f s → motive s → motive (a.searchSteps f steps s) := by
    intro steps
    induction steps with
    | zero => exact fun _ _ holds => holds
    | succ steps ih =>
      intro s searching holds
      rw [searchSteps]
      split
      · exact holds
      next some_wait =>
        obtain ⟨name, block, state, waits, found, listed, visited⟩ :=
          searching.step_visits entry (by simpa using some_wait)
        exact ih _ (visited.searching searching waits found listed)
          (visit _ _ _ _ _ searching holds waits found listed visited)
  exact run _ _ (searching_initial a f) initial

theorem search_induction {motive : Search σ → Prop}
    (entry : f.blocks.contains entryName = true) (initial : motive a.initial)
    (visit : ∀ s next name block state, Searching a f s → motive s → name ∈ s.waiting →
      s.found.pre[name]? = some state → f.blocks.get? name = some block →
      Visited a f s name block state next → motive next)
    (height : Nat) : motive (a.search f height) :=
  searchSteps_induction entry initial visit _

theorem searching_search (a : Analysis σ) {f : Function}
    (entry : f.blocks.contains entryName = true) (height : Nat) :
    Searching a f (a.search f height) :=
  search_induction entry (searching_initial a f)
    (fun _ _ _ _ _ searching _ waits found listed visited =>
      visited.searching searching waits found listed) height

/-- What holds at the start, follows the edges and survives joins holds of every state that a block
has at its start at any time of the search. -/
theorem searchSteps_pre_induction {motive : String → σ → Prop}
    (entry : f.blocks.contains entryName = true) (start : motive entryName a.start)
    (follow : ∀ name block state target, f.graph.Reaches name →
      f.blocks.get? name = some block → target ∈ f.graph.successors name → motive name state →
      motive target (a.transferBlock block state))
    (joined : ∀ name s t, motive name s → motive name t → motive name (join s t))
    (steps : Nat) (name : String) (state : σ)
    (found : (a.searchSteps f steps a.initial).found.pre[name]? = some state) :
    motive name state := by
  refine searchSteps_induction (a := a) (f := f) (motive := fun s =>
    ∀ (name : String) (state : σ), s.found.pre[name]? = some state → motive name state)
    entry ?_ ?_ steps name state found
  · intro name state found
    obtain ⟨rfl, rfl⟩ := getElem?_pre_initial found
    exact start
  · intro s next name block state searching holds waits found listed visited
    refine visited.pre_induction (fun target edge => ?_) joined holds
    exact follow name block state target (searching.reached name (searching.known name waits))
      listed edge (holds name state found)

theorem search_pre_induction {motive : String → σ → Prop}
    (entry : f.blocks.contains entryName = true) (start : motive entryName a.start)
    (follow : ∀ name block state target, f.graph.Reaches name →
      f.blocks.get? name = some block → target ∈ f.graph.successors name → motive name state →
      motive target (a.transferBlock block state))
    (joined : ∀ name s t, motive name s → motive name t → motive name (join s t))
    (height : Nat) (name : String) (state : σ)
    (found : (a.search f height).found.pre[name]? = some state) : motive name state :=
  searchSteps_pre_induction entry start follow joined _ name state found

/-- The visits made and the visits due never add up to more than at first. -/
theorem Ranking.visits_add_potential_le {height : Nat} (ranking : Ranking a f height)
    (entry : f.blocks.contains entryName = true) {names : List String}
    (all : ∀ name, f.graph.Reaches name → name ∈ names) (height' : Nat) :
    (a.search f height').found.visits + ranking.potential names (a.search f height') ≤
      names.length * (height + 1) := by
  refine (search_induction (a := a) (f := f) (motive := fun s => ranking.Holds s ∧
    s.found.visits + ranking.potential names s ≤ names.length * (height + 1))
    entry ⟨?_, ?_⟩ ?_ height').2
  · intro name state found
    exact (getElem?_pre_initial found).2 ▸ ranking.start
  · simpa [initial] using ranking.potential_initial_le names
  · intro s next name block state searching ⟨holds, bounded⟩ waits found listed visited
    have member := all name (searching.reached name (searching.known name waits))
    have less := potential_of_visited searching holds waits found listed visited member
    refine ⟨holds.visited found listed visited, ?_⟩
    rw [visited.visits]
    omega

theorem searchSteps_visits (entry : f.blocks.contains entryName = true) {steps : Nat}
    {s : Search σ} (searching : Searching a f s)
    (some_wait : (a.searchSteps f steps s).waiting.isEmpty = false) :
    (a.searchSteps f steps s).found.visits = s.found.visits + steps := by
  induction steps generalizing s with
  | zero => rfl
  | succ steps ih =>
    rw [searchSteps] at some_wait ⊢
    split at some_wait
    next ended => simp [ended] at some_wait
    next goes_on =>
      obtain ⟨name, block, state, waits, found, listed, visited⟩ :=
        searching.step_visits entry (by simpa using goes_on)
      rw [if_neg goes_on, ih (visited.searching searching waits found listed) some_wait,
        visited.visits]
      omega

/-- The steps given to a search are enough: it ends with no block waiting. -/
theorem Ranking.search_ends {height : Nat} (ranking : Ranking a f height)
    (entry : f.blocks.contains entryName = true) :
    (a.search f height).waiting.isEmpty = true := by
  refine Classical.byContradiction fun some_wait => ?_
  have visits : (a.search f height).found.visits =
      a.initial.found.visits + (f.blocks.size * (height + 1) + 1) :=
    searchSteps_visits entry (searching_initial a f) (eq_false_of_ne_true some_wait)
  have all : ∀ name, f.graph.Reaches name → name ∈ f.blocks.keys := fun name reached =>
    (f.blocks.mem_keys_iff name).2 (Function.exists_block entry reached)
  have bound := ranking.visits_add_potential_le entry all height
  rw [Table.length_keys] at bound
  simp only [initial] at visits
  omega

theorem Ranking.solved {height : Nat} (ranking : Ranking a f height)
    (entry : f.blocks.contains entryName = true) : Solved a f (a.solve f height) :=
  (searching_search a entry height).solved entry (ranking.search_ends entry)

end Analysis

end Lir
