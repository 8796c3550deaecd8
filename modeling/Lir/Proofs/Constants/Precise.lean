import Lir.Proofs.Constants.Monotone

/-!
Folding arithmetic loses nothing that the flat lattice could keep.

A folded value covers the results for all words that the operands cover, and every value that covers
those is above it. Where folding gives up, two words of an operand that is not known make a
difference: on the left, zero and one or, for a quotient, zero and the divisor, and on the right,
one and two.
-/

set_option autoImplicit false

namespace Lir

namespace FlatInt

/-! ### Operands that make a difference -/

/-- The only word that halving leaves as it is is zero. -/
theorem half_ne {a : Int32} (nonzero : a ≠ 0) : a / 2 ≠ a := by
  intro same
  have halved : (a / 2).toInt.natAbs = a.toInt.natAbs / 2 := by
    rw [Int32.toInt_div_of_ne_right _ _ (by decide)]
    exact Int.natAbs_tdiv _ _
  rw [same] at halved
  have empty : a.toInt.natAbs = 0 := by omega
  exact nonzero (Int32.toInt_inj.1 (Int.natAbs_eq_zero.1 empty))

theorem differs_left (op : ArithOp) {b : Int32} (nonzero : op = .mul ∨ op = .div → b ≠ 0) :
    ∃ x y, wordArith op x b ≠ wordArith op y b := by
  cases op with
  | add => exact ⟨0, 1, by simp only [wordArith]; grind⟩
  | sub => exact ⟨0, 1, by simp only [wordArith]; grind⟩
  | mul =>
    refine ⟨0, 1, ?_⟩
    rw [wordArith, wordArith, Int32.zero_mul, Int32.one_mul]
    exact (nonzero (.inl rfl)).symm
  | div =>
    refine ⟨0, b, ?_⟩
    rw [wordArith, wordArith, Int32.zero_div, Int32.div_self, if_neg (nonzero (.inr rfl))]
    decide

theorem differs_right (op : ArithOp) {a : Int32} (nonzero : op = .mul ∨ op = .div → a ≠ 0) :
    wordArith op a 1 ≠ wordArith op a 2 := by
  cases op with
  | add => simp only [wordArith]; grind
  | sub => simp only [wordArith]; grind
  | mul =>
    have := nonzero (.inl rfl)
    simp only [wordArith]; grind
  | div =>
    rw [wordArith, wordArith, Int32.div_one]
    exact (half_ne (nonzero (.inr rfl))).symm

/-! ### The least value that covers the results -/

/-- The value covers what the operation makes of any words that the operands cover, where nothing is
divided by zero. -/
def CoversResults (op : ArithOp) (l r v : FlatInt) : Prop :=
  ∀ a b, l.Covers a → r.Covers b → (op = .div → b ≠ 0) → v.Covers (op.wrapped a b)

theorem Covers.below {v : FlatInt} {word : Int32} (covers : v.Covers word) :
    Below (.const word) v := by
  rw [below_iff]
  exact .inr (((covers_iff v word).1 covers).imp_left Eq.symm)

theorem Covers.eq_top {v : FlatInt} {a b : Int32} (first : v.Covers a) (second : v.Covers b)
    (different : a ≠ b) : v = .top := by
  cases v with
  | bottom => exact first.elim
  | const word => exact absurd (Eq.trans (Eq.symm first) second) different
  | top => rfl

theorem arith_const_const (op : ArithOp) (a b : Int32) :
    arith op (.const a) (.const b) =
      if op = .div ∧ b = 0 then .bottom else .const (wordArith op a b) := by
  cases op with
  | add => simp [arith]
  | sub => simp [arith]
  | mul =>
    by_cases zero : a = 0 ∨ b = 0
    · have product : a * b = 0 := by rcases zero with rfl | rfl <;> simp
      simp [arith, wordArith, zero, product]
    · simp [arith, zero]
  | div =>
    by_cases divides : b = 0
    · simp [arith, divides]
    · by_cases zero : a = 0
      · simp [arith, wordArith, divides, zero]
      · simp [arith, divides, zero]

theorem arith_const_top (op : ArithOp) (a : Int32) :
    arith op (.const a) .top = if (op = .mul ∨ op = .div) ∧ a = 0 then .const 0 else .top := by
  cases op <;> simp [arith]

theorem arith_top_const (op : ArithOp) (b : Int32) :
    arith op .top (.const b) =
      if op = .mul ∧ b = 0 then .const 0 else if op = .div ∧ b = 0 then .bottom else .top := by
  cases op <;> simp [arith]

theorem coversResults_arith (op : ArithOp) (l r : FlatInt) :
    CoversResults op l r (arith op l r) :=
  fun _ _ left right defined => arith_covers left right defined

theorem below_of_coversResults {op : ArithOp} {l r v : FlatInt} (covers : CoversResults op l r v) :
    Below (arith op l r) v := by
  have least : Below .bottom v := (below_iff _ _).2 (.inl rfl)
  have results : ∀ a b, l.Covers a → r.Covers b → (op = .div → b ≠ 0) →
      v.Covers (wordArith op a b) := fun a b left right defined =>
    wrapped_eq_wordArith op a b ▸ covers a b left right defined
  cases l with
  | bottom => exact least
  | const a =>
    cases r with
    | bottom => exact least
    | const b =>
      rw [arith_const_const]
      split
      next => exact least
      next defined => exact (results a b rfl rfl fun div zero => defined ⟨div, zero⟩).below
    | top =>
      -- If zero decides, the result for one word is all there is. If not, two results differ.
      have one := results a 1 rfl trivial fun _ => by decide
      have two := results a 2 rfl trivial fun _ => by decide
      rw [arith_const_top]
      split
      next zero =>
        obtain ⟨rfl | rfl, rfl⟩ := zero
        · exact one.below
        · exact one.below
      next nonzero =>
        rw [one.eq_top two (differs_right op fun sort zero => nonzero ⟨sort, zero⟩)]
        exact Below.refl _
  | top =>
    cases r with
    | bottom => exact least
    | const b =>
      rw [arith_top_const]
      split
      next zero =>
        obtain ⟨rfl, rfl⟩ := zero
        exact (results 0 0 trivial rfl (by simp)).below
      next not_product =>
        split
        next => exact least
        next not_quotient =>
          obtain ⟨x, y, different⟩ := differs_left op (b := b) (by tauto)
          have nonzero : op = .div → b ≠ 0 := fun div zero => not_quotient ⟨div, zero⟩
          rw [(results x b trivial rfl nonzero).eq_top (results y b trivial rfl nonzero) different]
          exact Below.refl _
    | top =>
      have one : (1 : Int32) ≠ 0 := by decide
      obtain ⟨x, y, different⟩ := differs_left op (b := 1) fun _ => one
      rw [(results x 1 trivial trivial fun _ => one).eq_top
        (results y 1 trivial trivial fun _ => one) different]
      exact (below_iff _ _).2 (.inr (.inr rfl))

/-- Folding gives the least value that covers the results, and it is monotone. -/
theorem arith_least (op : ArithOp) (l r : FlatInt) :
    CoversResults op l r (arith op l r) ∧
      (∀ v, CoversResults op l r v → Below (arith op l r) v) ∧
      ∀ l' r', Below l l' → Below r r' → Below (arith op l r) (arith op l' r') :=
  ⟨coversResults_arith op l r, fun _ => below_of_coversResults, fun _ _ => arith_mono op⟩

end FlatInt

end Lir
