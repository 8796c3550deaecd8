import Lir.Proofs.Json.Scanning

/-!
A written JSON value is read back.

The reader takes a step for each value and for each list of items or members, and a value has a
token for each of these, so the tokens of a value bound the steps that it takes. Every value is read
back, those included that hold a text without a string.
-/

set_option autoImplicit false

namespace Lir.Json

open JsonToken

theorem exists_tokens_eq_cons (value : Json) :
    ∃ token tail, value.tokens = token :: tail ∧ token ≠ .closeBracket := by
  cases value <;> exact ⟨_, _, rfl, nofun⟩

-- An opening bracket with its closing one behind it is read as an empty array, so the items of any
-- other array must not seem to be closed at once; likewise for members.

theorem itemTokens_ne_closed {items : List Json} (filled : items ≠ [])
    (rest tail : List JsonToken) :
    List.intercalate [.comma] (itemTokens items) ++ rest ≠ .closeBracket :: tail := by
  obtain ⟨item, items, rfl⟩ := List.exists_cons_of_ne_nil filled
  obtain ⟨token, other, written, not_closed⟩ := exists_tokens_eq_cons item
  cases items <;> simp [itemTokens, List.intercalate_cons_cons, written, not_closed]

theorem memberTokens_ne_closed {members : List (Option String × Json)} (filled : members ≠ [])
    (rest tail : List JsonToken) :
    List.intercalate [.comma] (memberTokens members) ++ rest ≠ .closeBrace :: tail := by
  obtain ⟨⟨name, value⟩, members, rfl⟩ := List.exists_cons_of_ne_nil filled
  cases members <;> simp [memberTokens, List.intercalate_cons_cons]

/-! ### Values, items and members -/

theorem valueSteps_leaf {steps : Nat} (some_step : 0 < steps) (value : Json)
    (rest : List JsonToken) : valueSteps steps (.leaf value :: rest) = some (value, rest) := by
  cases steps with
  | zero => exact absurd some_step (Nat.lt_irrefl 0)
  | succ => rfl

mutual
theorem valueSteps_tokens (value : Json) {steps : Nat} (enough : value.tokens.length ≤ steps)
    (rest : List JsonToken) : valueSteps steps (value.tokens ++ rest) = some (value, rest) := by
  cases value with
  | null | bool | integer | fraction | text => exact valueSteps_leaf enough _ rest
  | array items =>
    simp only [tokens, List.length_cons, List.length_append, List.length_nil] at enough
    obtain ⟨steps, rfl⟩ : ∃ fewer, steps = fewer + 1 := ⟨steps - 1, by omega⟩
    rcases eq_or_ne items [] with rfl | filled
    · rfl
    · have inner_enough :
          (List.intercalate [.comma] (itemTokens items)).length + 1 ≤ steps := by omega
      have read := itemSteps_tokens items filled inner_enough rest
      have opened := valueSteps.eq_4 steps
        (List.intercalate [.comma] (itemTokens items) ++ .closeBracket :: rest)
        fun tail => itemTokens_ne_closed filled _ tail
      rw [read] at opened
      simpa [tokens] using opened
  | object members =>
    simp only [tokens, List.length_cons, List.length_append, List.length_nil] at enough
    obtain ⟨steps, rfl⟩ : ∃ fewer, steps = fewer + 1 := ⟨steps - 1, by omega⟩
    rcases eq_or_ne members [] with rfl | filled
    · rfl
    · have inner_enough :
          (List.intercalate [.comma] (memberTokens members)).length + 1 ≤ steps := by omega
      have read := memberSteps_tokens members filled inner_enough rest
      have opened := valueSteps.eq_6 steps
        (List.intercalate [.comma] (memberTokens members) ++ .closeBrace :: rest)
        fun tail => memberTokens_ne_closed filled _ tail
      rw [read] at opened
      simpa [tokens] using opened

theorem itemSteps_tokens (items : List Json) (filled : items ≠ []) {steps : Nat}
    (enough : (List.intercalate [.comma] (itemTokens items)).length + 1 ≤ steps)
    (rest : List JsonToken) :
    itemSteps steps (List.intercalate [.comma] (itemTokens items) ++ .closeBracket :: rest) =
      some (items, rest) := by
  obtain ⟨steps, rfl⟩ : ∃ fewer, steps = fewer + 1 := ⟨steps - 1, by omega⟩
  match items with
  | [item] =>
    simp only [itemTokens, List.intercalate_singleton] at enough ⊢
    rw [itemSteps, valueSteps_tokens item (by omega)]
    rfl
  | item :: next :: items =>
    simp only [itemTokens, List.intercalate_cons_cons, List.length_append, List.length_cons,
      List.append_assoc, List.cons_append, List.nil_append] at enough ⊢
    have later_enough :
        (List.intercalate [.comma] (itemTokens (next :: items))).length + 1 ≤ steps := by
      rw [itemTokens]
      omega
    have following := itemSteps_tokens (next :: items) (List.cons_ne_nil _ _) later_enough rest
    rw [itemTokens] at following
    rw [itemSteps, valueSteps_tokens item (by omega), Option.bind_eq_bind, Option.bind_some]
    dsimp only
    rw [following]
    rfl

theorem memberSteps_tokens (members : List (Option String × Json)) (filled : members ≠ [])
    {steps : Nat} (enough : (List.intercalate [.comma] (memberTokens members)).length + 1 ≤ steps)
    (rest : List JsonToken) :
    memberSteps steps (List.intercalate [.comma] (memberTokens members) ++ .closeBrace :: rest) =
      some (members, rest) := by
  obtain ⟨steps, rfl⟩ : ∃ fewer, steps = fewer + 1 := ⟨steps - 1, by omega⟩
  match members with
  | [(name, value)] =>
    simp only [memberTokens, List.intercalate_singleton, List.length_cons,
      List.cons_append] at enough ⊢
    rw [memberSteps, valueSteps_tokens value (by omega)]
    rfl
  | (name, value) :: (other, next) :: members =>
    simp only [memberTokens, List.intercalate_cons_cons, List.length_append, List.length_cons,
      List.append_assoc, List.cons_append, List.nil_append] at enough ⊢
    have later_enough :
        (List.intercalate [.comma] (memberTokens ((other, next) :: members))).length + 1 ≤
          steps := by
      rw [memberTokens]
      omega
    have following :=
      memberSteps_tokens ((other, next) :: members) (List.cons_ne_nil _ _) later_enough rest
    rw [memberTokens] at following
    rw [memberSteps, valueSteps_tokens value (by omega), Option.bind_eq_bind, Option.bind_some]
    dsimp only
    rw [following]
    rfl
end

theorem parse_render (value : Json) : parse value.render = some value := by
  have enough : value.tokens.length ≤ 2 * value.tokens.length := by omega
  have read := valueSteps_tokens value enough []
  rw [List.append_nil] at read
  rw [parse, scan_render, Option.bind_some, ofTokens?, read]

end Lir.Json
