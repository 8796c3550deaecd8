import Lir.Proofs.Constants.Transfer
import Lir.Proofs.Reaching.Exact

/-!
Searches with every partial operation checked.

`Checked` runs the analyses once more, so that a lookup of something absent, a division by zero or
a loop that outruns its bound is a fault instead of some default. Here it finds the states at both
ends of the blocks. It gives what the unchecked search gives, so no fault is ever met: only blocks
with a state wait, and a quotient is only taken where the divisor is known not to be zero.
-/

set_option autoImplicit false

namespace Lir

inductive Fault where
  | dividedByZero
  | noState (block : String)
  | noDominators (block : String)
  | notClosed (ty : Ty)
  /-- A loop has made all its steps and is not done. -/
  | unfinished
  deriving DecidableEq

namespace Checked

def found {α : Type} (fault : Fault) : Option α → Except Fault α
  | some value => .ok value
  | none => .error fault

@[simp] theorem found_some {α : Type} (fault : Fault) (value : α) :
    found fault (some value) = .ok value := rfl

@[simp] theorem ok_bind {ε α β : Type} (value : α) (next : α → Except ε β) :
    (Except.ok value >>= next) = next value := rfl

/-- A checked loop over a list runs like the unchecked one if no turn meets a fault where the
invariant holds. -/
theorem foldlM_ok_of_invariant {ε α β : Type} {motive : β → Prop} {step : β → α → Except ε β}
    {total : β → α → β} {items : List α} {b : β} (start : motive b)
    (turn : ∀ item ∈ items, ∀ b, motive b →
      step b item = .ok (total b item) ∧ motive (total b item)) :
    items.foldlM step b = .ok (items.foldl total b) ∧ motive (items.foldl total b) := by
  induction items generalizing b with
  | nil => exact ⟨rfl, start⟩
  | cons item rest ih =>
    obtain ⟨first, later⟩ := List.forall_mem_cons.1 turn
    obtain ⟨same, next⟩ := first b start
    rw [List.foldlM_cons, same, List.foldl_cons]
    exact ih next later

theorem foldlM_ok {α β : Type} {step : β → α → Except Fault β} {total : β → α → β}
    {items : List α} (turn : ∀ item ∈ items, ∀ b, step b item = .ok (total b item)) (b : β) :
    items.foldlM step b = .ok (items.foldl total b) :=
  (foldlM_ok_of_invariant (motive := fun _ => True) trivial
    fun item member b _ => ⟨turn item member b, trivial⟩).1

/-! ### Folding constants -/

def wordArith (op : ArithOp) (a b : Int32) : Except Fault Int32 :=
  if op = .div ∧ b = 0 then .error .dividedByZero else .ok (FlatInt.wordArith op a b)

def arith : ArithOp → FlatInt → FlatInt → Except Fault FlatInt
  | _, .bottom, _ => .ok .bottom
  | _, _, .bottom => .ok .bottom
  | op, lhs, rhs =>
    if op = .mul ∧ (lhs = .const 0 ∨ rhs = .const 0) then .ok (.const 0)
    else if op = .div ∧ rhs = .const 0 then .ok .bottom
    else if op = .div ∧ lhs = .const 0 then .ok (.const 0)
    else
      match lhs, rhs with
      | .const a, .const b => (wordArith op a b).map .const
      | _, _ => .ok .top

theorem arith_eq (op : ArithOp) (lhs rhs : FlatInt) :
    arith op lhs rhs = .ok (FlatInt.arith op lhs rhs) := by
  cases lhs with
  | bottom => rfl
  | top =>
    cases rhs with
    | bottom => rfl
    | const b => simp only [arith, FlatInt.arith]; split_ifs <;> rfl
    | top => simp only [arith, FlatInt.arith]; split_ifs <;> rfl
  | const a =>
    cases rhs with
    | bottom => rfl
    | top => simp only [arith, FlatInt.arith]; split_ifs <;> rfl
    | const b =>
      simp only [arith, FlatInt.arith]
      split_ifs with zero_product zero_divisor zero_dividend
      · rfl
      · rfl
      · rfl
      · have divides : ¬ (op = .div ∧ b = 0) := fun division =>
          zero_divisor (division.imp_right (congrArg FlatInt.const))
        rw [wordArith, if_neg divides]
        rfl

example : wordArith .div 1 0 = .error .dividedByZero ∧
    arith .div (.const 1) (.const 0) = .ok .bottom := by decide

/-- The effect of an instruction on constants; only arithmetic can fail. -/
def constantsTransfer (ctx : Context) : Instruction → ConstEnv → Except Fault ConstEnv
  | .op _ _ (.arith dst op lhs rhs), s => do
    let value ← arith op (s.value lhs) (s.value rhs)
    .ok (Constants.assign ctx s dst value)
  | inst, s => .ok (Constants.transfer ctx inst s)

theorem constantsTransfer_eq (ctx : Context) (inst : Instruction) (s : ConstEnv) :
    constantsTransfer ctx inst s = .ok (Constants.transfer ctx inst s) := by
  rw [constantsTransfer.eq_def]
  split
  next dst op lhs rhs =>
    rw [arith_eq]
    rfl
  next => rfl

/-! ### The search -/

section

variable {σ : Type} [Join σ]

/-- Take the smallest waiting block and visit it. A name without a block is passed over, and any
other must have a state. -/
def step (transfer : Instruction → σ → Except Fault σ) (f : Function) (s : Search σ) :
    Except Fault (Search σ) :=
  match s.waiting.toList.head? with
  | none => .ok s
  | some name =>
    let s := { s with waiting := s.waiting.erase name }
    match f.blocks.get? name with
    | none => .ok s
    | some block => do
      let state ← found (.noState name) s.found.pre[name]?
      let state ← block.instructions.foldlM (fun state inst => transfer inst state) state
      let (pre, waiting) :=
        (f.graph.successors name).foldl (Analysis.propagate state) (s.found.pre, s.waiting)
      .ok ⟨⟨pre, s.found.post.insert name state, s.found.visits + 1⟩, waiting⟩

def searchSteps (transfer : Instruction → σ → Except Fault σ) (f : Function) :
    Nat → Search σ → Except Fault (Search σ)
  | 0, s => if s.waiting.isEmpty then .ok s else .error .unfinished
  | steps + 1, s =>
    if s.waiting.isEmpty then .ok s else do searchSteps transfer f steps (← step transfer f s)

def solve (a : Analysis σ) (transfer : Instruction → σ → Except Fault σ) (f : Function)
    (height : Nat) : Except Fault (Fixpoint σ) :=
  (searchSteps transfer f (f.blocks.size * (height + 1) + 1) a.initial).map Search.found

variable {a : Analysis σ} {f : Function} {transfer : Instruction → σ → Except Fault σ}

/-- Every waiting block has a state, so no step meets a fault. -/
theorem step_eq (agrees : ∀ inst state, transfer inst state = .ok (a.transfer inst state))
    {s : Search σ} (searching : Analysis.Searching a f s) :
    step transfer f s = .ok (a.step f s) := by
  cases first : s.waiting.toList.head? with
  | none => simp only [step, Analysis.step, first]
  | some name =>
    cases listed : f.blocks.get? name with
    | none => simp only [step, Analysis.step, first, listed]
    | some block =>
      -- The block waits, so it has a state.
      have waits : name ∈ s.waiting := Std.ExtTreeSet.mem_toList.1 (List.mem_of_mem_head? first)
      obtain ⟨state, known⟩ := (mem_map_iff _ name).1 (searching.known name waits)
      have after : block.instructions.foldlM (fun state inst => transfer inst state) state =
          .ok (a.transferBlock block state) :=
        foldlM_ok (fun inst _ state => agrees inst state) state
      simp only [step, Analysis.step, first, listed, known, found_some, ok_bind, after]
      rfl

variable [LawfulJoin σ]

theorem searchSteps_eq (agrees : ∀ inst state, transfer inst state = .ok (a.transfer inst state))
    (entry : f.blocks.contains entryName = true) {steps : Nat} {s : Search σ}
    (searching : Analysis.Searching a f s)
    (ends : (a.searchSteps f steps s).waiting.isEmpty = true) :
    searchSteps transfer f steps s = .ok (a.searchSteps f steps s) := by
  induction steps generalizing s with
  | zero => exact if_pos ends
  | succ steps ih =>
    rw [Analysis.searchSteps] at ends ⊢
    rw [searchSteps]
    split
    next => rfl
    next some_wait =>
      -- With a block waiting, the step is a visit, and visits keep the invariant.
      rw [if_neg some_wait] at ends
      obtain ⟨name, block, state, waits, at_start, listed, visited⟩ :=
        searching.step_visits entry (by simpa using some_wait)
      rw [step_eq agrees searching]
      exact ih (visited.searching searching waits at_start listed) ends

theorem solve_eq (agrees : ∀ inst state, transfer inst state = .ok (a.transfer inst state))
    (entry : f.blocks.contains entryName = true) {height : Nat}
    (ranking : Analysis.Ranking a f height) :
    solve a transfer f height = .ok (a.solve f height) := by
  rw [solve, searchSteps_eq agrees entry (Analysis.searching_initial a f)
    (ranking.search_ends entry)]
  rfl

end

end Checked

end Lir
