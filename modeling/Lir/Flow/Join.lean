import Lir.Sorted

/-!
Joins of analysis states.

`join` gives the join of two states. `absorb` computes it by adding to the first state, and says
whether that state grew; the solver uses it to see which blocks have to be visited again.
-/

set_option autoImplicit false

namespace Lir

class Join (α : Type) where
  join : α → α → α
  absorb : α → α → α × Bool

export Join (join absorb)

/-- Sets join by union. They grow exactly when their size does. -/
instance {α : Type} [Ord α] [Std.TransOrd α] : Join (Std.ExtTreeSet α) where
  join s t := s ∪ t
  absorb s t :=
    let grown := t.toList.foldl (fun set member => set.insert member) s
    (grown, grown.size != s.size)

namespace Join

/-- Absorb one entry into a map: join it with the value there, or enter it. -/
def absorbEntry {κ α : Type} [Ord κ] [Std.TransOrd κ] [Join α]
    (state : Std.ExtTreeMap κ α × Bool) (entry : κ × α) : Std.ExtTreeMap κ α × Bool :=
  match state.1[entry.1]? with
  | some value =>
    let (value, grew) := absorb value entry.2
    (state.1.insert entry.1 value, state.2 || grew)
  | none => (state.1.insert entry.1 entry.2, true)

def absorbMap {κ α : Type} [Ord κ] [Std.TransOrd κ] [Join α] (s t : Std.ExtTreeMap κ α) :
    Std.ExtTreeMap κ α × Bool :=
  t.toList.foldl absorbEntry (s, false)

end Join

/-- Maps join key by key; a key that only one side has keeps that side's value. -/
instance {κ α : Type} [Ord κ] [Std.TransOrd κ] [Join α] : Join (Std.ExtTreeMap κ α) where
  join s t := (Join.absorbMap s t).1
  absorb := Join.absorbMap

end Lir
