import Lir.Proofs.WellFormed
import Mathlib.Data.List.Induction

/-!
A block as a log of the calls that fill it.

Operations and terminators are appended until a terminator is accepted, and from then on every call
is refused. An accepted call writes one instruction, at a point behind all points before it, and
looking that point up gives the instruction ever after.
-/

set_option autoImplicit false

namespace Lir

inductive BlockCall where
  | addOp (operation : Op)
  | setTerm (terminator : Terminator)
  deriving DecidableEq

namespace BlockCall

def on (b : Block) : BlockCall → Except BlockError (Point × Block)
  | .addOp operation => b.addOp operation
  | .setTerm terminator => b.setTerm terminator

/-- The block after the call. A call that is refused leaves it as it was. -/
def after (b : Block) (call : BlockCall) : Block :=
  match call.on b with
  | .ok (_, next) => next
  | .error _ => b

def ofInstruction : Instruction → BlockCall
  | .op _ _ operation => .addOp operation
  | .term _ terminator => .setTerm terminator

/-- The calls that are accepted, one after the other, with the points that they give. -/
def accepted (b : Block) : List BlockCall → List (BlockCall × Point)
  | [] => []
  | call :: rest =>
    match call.on b with
    | .ok (point, next) => (call, point) :: accepted next rest
    | .error _ => accepted b rest

end BlockCall

def Block.ofCalls (name : String) (calls : List BlockCall) : Block :=
  calls.foldl BlockCall.after (.empty name)

/-! ### One call -/

namespace BlockCall

def instruction (b : Block) : BlockCall → Instruction
  | .addOp operation => .op b.name b.nextIndex operation
  | .setTerm terminator => .term b.name terminator

theorem on_eq_append (b : Block) (call : BlockCall) :
    call.on b = b.append (call.instruction b) := by
  cases call <;> rfl

theorem ofInstruction_instruction (b : Block) (call : BlockCall) :
    ofInstruction (call.instruction b) = call := by
  cases call <;> rfl

theorem isTerm_instruction (b : Block) (call : BlockCall) :
    (call.instruction b).isTerm = true ↔ ∃ terminator, call = .setTerm terminator := by
  cases call <;> simp [instruction, Instruction.isTerm]

theorem on_cases (b : Block) (call : BlockCall) :
    (b.isTerminated = true ∧ call.on b = .error (.terminated b.name) ∧ call.after b = b) ∨
    (b.isTerminated = false ∧
      call.on b = .ok ((call.instruction b).point,
        ⟨b.name, b.instructions ++ [call.instruction b]⟩) ∧
      call.after b = ⟨b.name, b.instructions ++ [call.instruction b]⟩) := by
  rw [after, on_eq_append, Block.append]
  cases b.isTerminated with
  | true => exact .inl ⟨rfl, rfl, rfl⟩
  | false => exact .inr ⟨rfl, rfl, rfl⟩

theorem refused_iff (b : Block) (call : BlockCall) :
    (∃ error, call.on b = .error error) ↔ b.isTerminated = true := by
  rcases call.on_cases b with ⟨terminated, refused, _⟩ | ⟨not_terminated, taken, _⟩
  · simp [terminated, refused]
  · simp [not_terminated, taken]

theorem isTerminated_after (b : Block) (call : BlockCall) :
    (call.after b).isTerminated = true ↔ b.isTerminated = true ∨
      ∃ terminator added, call = .setTerm terminator ∧ call.on b = .ok added := by
  rcases call.on_cases b with ⟨terminated, refused, same⟩ | ⟨not_terminated, taken, next⟩
  · simp [same, terminated]
  · rw [next, taken, not_terminated, Block.isTerminated, List.getLast?_concat, Option.any_some,
      isTerm_instruction]
    simp

theorem wellFormed_after {b : Block} (wellFormed : b.WellFormed) (call : BlockCall) :
    (call.after b).WellFormed := by
  rcases call.on_cases b with ⟨_, _, same⟩ | ⟨_, taken, next⟩
  · rw [same]
    exact wellFormed
  · rw [next]
    cases call with
    | addOp operation => exact wellFormed.addOp taken
    | setTerm terminator => exact wellFormed.setTerm taken

theorem prefix_after (b : Block) (call : BlockCall) :
    b.instructions <+: (call.after b).instructions := by
  rcases call.on_cases b with ⟨_, _, same⟩ | ⟨_, _, next⟩
  · exact ⟨[], by rw [same, List.append_nil]⟩
  · rw [next]
    exact List.prefix_append _ _

end BlockCall

/-! ### Points of a log -/

/-- Points of numbered operations increase, and the terminator's is last. -/
theorem Instruction.pairwise_points {name : String} {instructions : List Instruction}
    (owned : ∀ inst ∈ instructions, inst.block = name)
    (numbers : (instructions.filterMap index?).Pairwise (· < ·))
    (open_before : ∀ inst ∈ instructions.dropLast, inst.isTerm = false) :
    (instructions.map point).Pairwise (fun p q => compare p q = .lt) := by
  induction instructions with
  | nil => exact .nil
  | cons inst rest ih =>
    cases rest with
    | nil => exact List.pairwise_singleton _ _
    | cons next rest =>
      rw [List.dropLast_cons_cons] at open_before
      obtain ⟨first_open, rest_open⟩ := List.forall_mem_cons.1 open_before
      obtain ⟨first_owned, rest_owned⟩ := List.forall_mem_cons.1 owned
      cases inst with
      | term _ _ => simp [isTerm] at first_open
      | op block index operation =>
        have first : (op block index operation).index? = some index := rfl
        rw [List.filterMap_cons_some first] at numbers
        obtain ⟨below, numbers⟩ := List.pairwise_cons.1 numbers
        rw [List.map_cons]
        refine List.pairwise_cons.2 ⟨fun other member => ?_, ih rest_owned numbers rest_open⟩
        obtain ⟨later, later_member, rfl⟩ := List.mem_map.1 member
        have same : later.block = block := (rest_owned later later_member).trans first_owned.symm
        cases later with
        | term _ _ =>
          obtain rfl := same
          exact Point.compare_op_term _ _
        | op _ number _ =>
          obtain rfl := same
          have less : index < number := below number (List.mem_filterMap.2 ⟨_, later_member, rfl⟩)
          exact (Point.compare_op_op _ _ _).trans (Nat.compare_eq_lt.2 less)

namespace Block

theorem WellFormed.pairwise_points {b : Block} (wellFormed : b.WellFormed) :
    (b.instructions.map Instruction.point).Pairwise (fun p q => compare p q = .lt) :=
  Instruction.pairwise_points wellFormed.owned (wellFormed.numbered ▸ List.pairwise_lt_range)
    wellFormed.open_before

theorem WellFormed.get?_eq_some_iff {b : Block} (wellFormed : b.WellFormed) (point : Point)
    (inst : Instruction) :
    b.get? point = some inst ↔ inst ∈ b.instructions ∧ inst.point = point := by
  constructor
  · intro found
    exact ⟨List.mem_of_find?_eq_some found, by simpa using List.find?_some found⟩
  · rintro ⟨member, at_point⟩
    cases found : b.get? point with
    | none => exact absurd at_point (by simpa using List.find?_eq_none.1 found inst member)
    | some other =>
      have there : other.point = point := by simpa using List.find?_some found
      exact congrArg some (List.inj_on_of_nodup_map wellFormed.nodup_points
        (List.mem_of_find?_eq_some found) member (there.trans at_point.symm))

/-! ### Runs of calls -/

theorem ofCalls_concat (name : String) (calls : List BlockCall) (call : BlockCall) :
    ofCalls name (calls ++ [call]) = call.after (ofCalls name calls) :=
  List.foldl_concat ..

theorem wellFormed_ofCalls (name : String) (calls : List BlockCall) :
    (ofCalls name calls).WellFormed :=
  List.foldlRecOn (motive := WellFormed) calls _ (wellFormed_empty name) fun _ wellFormed call _ =>
    BlockCall.wellFormed_after wellFormed call

theorem prefix_foldl_after (b : Block) (calls : List BlockCall) :
    b.instructions <+: (calls.foldl BlockCall.after b).instructions := by
  induction calls generalizing b with
  | nil => exact List.prefix_rfl
  | cons call rest ih => exact (call.prefix_after b).trans (ih (call.after b))

theorem prefix_ofCalls (name : String) (calls later : List BlockCall) :
    (ofCalls name calls).instructions <+: (ofCalls name (calls ++ later)).instructions := by
  unfold ofCalls
  rw [List.foldl_append]
  exact prefix_foldl_after _ later

theorem isTerminated_ofCalls (name : String) (calls : List BlockCall) :
    (ofCalls name calls).isTerminated = true ↔ ∃ earlier terminator added,
      earlier ++ [.setTerm terminator] <+: calls ∧
      (BlockCall.setTerm terminator).on (ofCalls name earlier) = .ok added := by
  induction calls using List.reverseRecOn with
  | nil => simp [ofCalls, isTerminated, empty]
  | append_singleton calls call ih =>
    rw [ofCalls_concat, BlockCall.isTerminated_after, ih]
    constructor
    · rintro (⟨earlier, terminator, added, inside, taken⟩ | ⟨terminator, added, rfl, taken⟩)
      · exact ⟨earlier, terminator, added, inside.trans (List.prefix_append _ _), taken⟩
      · exact ⟨calls, terminator, added, List.prefix_rfl, taken⟩
    · rintro ⟨earlier, terminator, added, inside, taken⟩
      rcases List.prefix_concat_iff.1 inside with last | before
      · obtain ⟨rfl, rfl⟩ := List.append_singleton_inj.1 last
        exact .inr ⟨terminator, added, rfl, taken⟩
      · exact .inl ⟨earlier, terminator, added, before, taken⟩

theorem instructions_foldl_after (b : Block) (calls : List BlockCall) :
    (calls.foldl BlockCall.after b).instructions.map
        (fun inst => (BlockCall.ofInstruction inst, inst.point)) =
      b.instructions.map (fun inst => (BlockCall.ofInstruction inst, inst.point)) ++
        BlockCall.accepted b calls := by
  induction calls generalizing b with
  | nil => simp [BlockCall.accepted]
  | cons call rest ih =>
    rw [List.foldl_cons, ih, BlockCall.accepted]
    rcases call.on_cases b with ⟨_, refused, same⟩ | ⟨_, taken, next⟩
    · rw [same, refused]
    · rw [next, taken]
      simp [BlockCall.ofInstruction_instruction]

theorem map_instructions_ofCalls (name : String) (calls : List BlockCall) :
    (ofCalls name calls).instructions.map
        (fun inst => (BlockCall.ofInstruction inst, inst.point)) =
      BlockCall.accepted (.empty name) calls :=
  instructions_foldl_after (.empty name) calls

theorem get?_ofCalls {name : String} {calls : List BlockCall} {call : BlockCall}
    (taken : (ofCalls name calls).isTerminated = false) (later : List BlockCall) :
    (ofCalls name (calls ++ call :: later)).get?
        (call.instruction (ofCalls name calls)).point =
      some (call.instruction (ofCalls name calls)) := by
  rw [(wellFormed_ofCalls name _).get?_eq_some_iff]
  refine ⟨?_, rfl⟩
  have kept := prefix_ofCalls name (calls ++ [call]) later
  rw [ofCalls_concat, ← List.append_cons] at kept
  apply kept.subset
  rcases call.on_cases (ofCalls name calls) with ⟨terminated, _⟩ | ⟨_, _, next⟩
  · simp [taken] at terminated
  · simp [next]

/-- After any calls on a new block the next call is refused exactly if a terminator has been
accepted before, and then it changes nothing. The instructions are those of the accepted calls in
their order, at the points that the calls have given, and these increase. Whatever an accepted call
has written is found at its point in every later state, and nothing is found anywhere else. -/
theorem calls_make_log (name : String) (calls : List BlockCall) :
    (∀ call : BlockCall, (∃ error, call.on (ofCalls name calls) = .error error) ↔
      ∃ earlier terminator added, earlier ++ [.setTerm terminator] <+: calls ∧
        (BlockCall.setTerm terminator).on (ofCalls name earlier) = .ok added) ∧
    (∀ (call : BlockCall) error, call.on (ofCalls name calls) = .error error →
      ofCalls name (calls ++ [call]) = ofCalls name calls) ∧
    (ofCalls name calls).instructions.map
        (fun inst => (BlockCall.ofInstruction inst, inst.point)) =
      BlockCall.accepted (.empty name) calls ∧
    ((ofCalls name calls).instructions.map Instruction.point).Pairwise
      (fun p q => compare p q = .lt) ∧
    (∀ (call : BlockCall) point next, call.on (ofCalls name calls) = .ok (point, next) →
      ∃ inst, BlockCall.ofInstruction inst = call ∧ inst.point = point ∧
        next.instructions = (ofCalls name calls).instructions ++ [inst] ∧
        ∀ later, (ofCalls name (calls ++ call :: later)).get? point = some inst) ∧
    ∀ point, point ∉ (BlockCall.accepted (.empty name) calls).map Prod.snd →
      (ofCalls name calls).get? point = none := by
  refine ⟨fun call => ?_, fun call error refused => ?_, map_instructions_ofCalls name calls,
    (wellFormed_ofCalls name calls).pairwise_points, fun call point next taken => ?_,
    fun point nowhere => ?_⟩
  · rw [call.refused_iff, isTerminated_ofCalls]
  · rw [ofCalls_concat, BlockCall.after, refused]
  · rcases call.on_cases (ofCalls name calls) with ⟨_, refused, _⟩ | ⟨not_terminated, same, _⟩
    · simp [refused] at taken
    · obtain ⟨rfl, rfl⟩ := Prod.mk.inj (Except.ok.inj (same.symm.trans taken))
      exact ⟨_, call.ofInstruction_instruction _, rfl, rfl, get?_ofCalls not_terminated⟩
  · cases found : (ofCalls name calls).get? point with
    | none => rfl
    | some inst =>
      obtain ⟨member, rfl⟩ := ((wellFormed_ofCalls name calls).get?_eq_some_iff point inst).1 found
      refine absurd ?_ nowhere
      rw [← map_instructions_ofCalls, List.map_map]
      exact List.mem_map_of_mem member

/-- A second operation comes after the terminator and leaves no trace; the first one stays. -/
theorem calls_make_log_returnsEarly :
    ∃ calls, calls = [.addOp (.copy "x" (.const 1)), .setTerm (.ret none)] ∧
      ofCalls "entry" (calls ++ [.addOp (.copy "y" (.const 2))]) = ofCalls "entry" calls ∧
      (∃ inst, BlockCall.ofInstruction inst = .addOp (.copy "x" (.const 1)) ∧
        (ofCalls "entry" calls).get? (.op "entry" 0) = some inst) ∧
      (ofCalls "entry" calls).get? (.op "entry" 1) = none := by
  refine ⟨_, rfl, ?_, ?_, ?_⟩
  · exact (calls_make_log "entry" _).2.1 _ (.terminated "entry") (by decide)
  · obtain ⟨inst, same, _, _, kept⟩ :=
      (calls_make_log "entry" []).2.2.2.2.1 (.addOp (.copy "x" (.const 1))) _ _ rfl
    exact ⟨inst, same, kept [.setTerm (.ret none)]⟩
  · exact (calls_make_log "entry" _).2.2.2.2.2 _ (by decide)

end Block

end Lir
