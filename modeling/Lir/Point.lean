/-!
Program points: one occurrence of an instruction in a block.

Points are ordered by block name; within a block the numbered points come first, by number, and
the terminator's point is last.
-/

set_option autoImplicit false

namespace Lir

inductive Point where
  | op (block : String) (index : Nat)
  | term (block : String)
  deriving DecidableEq, Inhabited

namespace Point

def block : Point → String
  | .op block _ | .term block => block

def isTerm : Point → Bool
  | .op _ _ => false
  | .term _ => true

/-- Position within the block: numbers in order, then the terminator. -/
def rank : Point → List Nat
  | .op _ index => [0, index]
  | .term _ => [1]

instance : Ord Point := ⟨compareLex (compareOn block) (compareOn rank)⟩

instance : Std.TransOrd Point :=
  inferInstanceAs (Std.TransCmp (compareLex (compareOn block) (compareOn rank)))

theorem eq_of_block_of_rank {p q : Point} (block : p.block = q.block) (rank : p.rank = q.rank) :
    p = q := by
  cases p <;> cases q <;> simp_all [Point.block, Point.rank]

theorem compare_op_op (block : String) (i j : Nat) :
    compare (op block i) (op block j) = compare i j := by
  change compareLex _ _ (op block i) (op block j) = _
  simp [compareLex, compareOn, Point.block, rank, Std.ReflOrd.compare_self]

theorem compare_op_term (block : String) (i : Nat) :
    compare (op block i) (term block) = .lt := by
  have first : compare 0 1 = .lt := rfl
  change compareLex _ _ (op block i) (term block) = _
  simp [compareLex, compareOn, Point.block, rank, Std.ReflOrd.compare_self, first]

instance : Std.LawfulEqOrd Point where
  eq_of_compare {p q} same := by
    have parts := compareLex_eq_eq.1 same
    exact eq_of_block_of_rank (Std.LawfulEqOrd.eq_of_compare parts.1)
      (Std.LawfulEqOrd.eq_of_compare parts.2)

end Point

end Lir
