import Lir.Proofs.Flow.Height
import Lir.Constants

/-!
The flat lattice of integer values, and the words that a value stands for.

What an operation or a comparison makes of words is said of their integers. Joining never drops a
word, and folding covers what the operation makes of any words that its operands cover.
-/

set_option autoImplicit false

namespace Lir

namespace ArithOp

/-- The operation on integers. A quotient is cut off towards zero. -/
def onIntegers : ArithOp → Int → Int → Int
  | .add, a, b => a + b
  | .sub, a, b => a - b
  | .mul, a, b => a * b
  | .div, a, b => a.tdiv b

/-- The result on integers, brought back into a word. -/
def wrapped (op : ArithOp) (a b : Int32) : Int32 := .ofInt (op.onIntegers a.toInt b.toInt)

end ArithOp

namespace CmpOp

def OnIntegers : CmpOp → Int → Int → Prop
  | .eq, a, b => a = b
  | .neq, a, b => a ≠ b
  | .lt, a, b => a < b
  | .lte, a, b => a ≤ b
  | .gt, a, b => b < a
  | .gte, a, b => b ≤ a

instance : (op : CmpOp) → (a b : Int) → Decidable (op.OnIntegers a b)
  | .eq, a, b => inferInstanceAs (Decidable (a = b))
  | .neq, a, b => inferInstanceAs (Decidable (a ≠ b))
  | .lt, a, b => inferInstanceAs (Decidable (a < b))
  | .lte, a, b => inferInstanceAs (Decidable (a ≤ b))
  | .gt, a, b => inferInstanceAs (Decidable (b < a))
  | .gte, a, b => inferInstanceAs (Decidable (b ≤ a))

theorem holds_iff (op : CmpOp) (a b : Int32) :
    op.holds a b = true ↔ op.OnIntegers a.toInt b.toInt := by
  cases op with
  | eq => simp [holds, OnIntegers, Int32.toInt_inj]
  | neq => simp [holds, OnIntegers, Int32.toInt_inj]
  | lt => simp [holds, OnIntegers, Int32.lt_iff_toInt_lt]
  | lte => simp [holds, OnIntegers, Int32.le_iff_toInt_le]
  | gt => simp [holds, OnIntegers, Int32.lt_iff_toInt_lt]
  | gte => simp [holds, OnIntegers, Int32.le_iff_toInt_le]

end CmpOp

namespace FlatInt

theorem wrapped_eq_wordArith (op : ArithOp) (a b : Int32) : op.wrapped a b = wordArith op a b := by
  cases op with
  | add => rw [ArithOp.wrapped, ArithOp.onIntegers, Int32.ofInt_add, Int32.ofInt_toInt,
      Int32.ofInt_toInt, wordArith]
  | sub => rw [ArithOp.wrapped, ArithOp.onIntegers, Int32.ofInt_sub, Int32.ofInt_toInt,
      Int32.ofInt_toInt, wordArith]
  | mul => rw [ArithOp.wrapped, ArithOp.onIntegers, Int32.ofInt_mul, Int32.ofInt_toInt,
      Int32.ofInt_toInt, wordArith]
  | div =>
    apply Int32.toInt_inj.1
    rw [ArithOp.wrapped, ArithOp.onIntegers, Int32.toInt_ofInt, wordArith, Int32.toInt_div]

-- The only quotient of words that is not a word.
example : ArithOp.div.onIntegers Int32.minValue.toInt (-1) = 2147483648 ∧
    ArithOp.div.wrapped Int32.minValue (-1) = Int32.minValue := by decide

def Covers : FlatInt → Int32 → Prop
  | .bottom, _ => False
  | .const value, word => value = word
  | .top, _ => True

/-! ### Joins -/

theorem join_eq (a b : FlatInt) : join a b = flatJoin a b := rfl

instance : LawfulJoin FlatInt where
  join_assoc a b c := by
    simp only [join_eq]
    cases a <;> cases b <;> cases c <;> grind [flatJoin]
  join_comm a b := by
    simp only [join_eq]
    cases a <;> cases b <;> grind [flatJoin]
  join_self a := by
    cases a <;> simp [join_eq, flatJoin]
  absorb_fst a b := by
    change (if flatJoin a b = a then (a, false) else (flatJoin a b, true)).1 = flatJoin a b
    split
    next same => exact same.symm
    next => rfl
  absorb_snd a b := by
    change (if flatJoin a b = a then (a, false) else (flatJoin a b, true)).2 = true ↔
      flatJoin a b ≠ a
    split <;> simp [*]

def level : FlatInt → Nat
  | .bottom => 0
  | .const _ => 1
  | .top => 2

def ranked : Ranked FlatInt 2 where
  possible _ := True
  rank := level
  joined _ _ := trivial
  bounded {s} _ := by cases s <;> simp [level]
  grows {s t} _ _ grew := by
    rw [join_eq] at grew ⊢
    cases s <;> cases t <;> grind [flatJoin, level]

theorem Covers.join_left {a : FlatInt} {word : Int32} (covers : a.Covers word) (b : FlatInt) :
    (join a b).Covers word := by
  rw [join_eq]
  cases a <;> cases b <;> grind [flatJoin, Covers]

theorem Covers.join_right {b : FlatInt} {word : Int32} (covers : b.Covers word) (a : FlatInt) :
    (join a b).Covers word := by
  rw [join_comm]
  exact covers.join_left a

theorem covers_iff (a : FlatInt) (word : Int32) : a.Covers word ↔ a = .const word ∨ a = .top := by
  cases a <;> simp [Covers]

/-! ### Folding -/

theorem arith_covers {op : ArithOp} {l r : FlatInt} {a b : Int32} (left : l.Covers a)
    (right : r.Covers b) (defined : op = .div → b ≠ 0) :
    (arith op l r).Covers (op.wrapped a b) := by
  rw [wrapped_eq_wordArith, arith.eq_def]
  split
  next => exact left.elim
  next => exact right.elim
  next =>
    split
    next zero =>
      obtain ⟨rfl, rfl | rfl⟩ := zero
      · obtain rfl : 0 = a := left
        exact Int32.zero_mul.symm
      · obtain rfl : 0 = b := right
        exact Int32.mul_zero.symm
    next =>
      split
      next zero =>
        obtain ⟨rfl, rfl⟩ := zero
        exact absurd (Eq.symm right) (defined rfl)
      next =>
        split
        next zero =>
          obtain ⟨rfl, rfl⟩ := zero
          obtain rfl : 0 = a := left
          exact Int32.zero_div.symm
        next =>
          split
          next =>
            obtain rfl : _ = a := left
            obtain rfl : _ = b := right
            rfl
          next => trivial

theorem compare_covers {op : CmpOp} {l r : FlatInt} {a b : Int32} (left : l.Covers a)
    (right : r.Covers b) :
    (compare op l r).Covers (if op.OnIntegers a.toInt b.toInt then 1 else 0) := by
  simp only [← CmpOp.holds_iff]
  cases l <;> cases r <;> simp_all [Covers, compare]

end FlatInt

end Lir
