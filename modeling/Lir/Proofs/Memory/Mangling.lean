import Lir.Proofs.Source.Names
import Mathlib.InformationTheory.Coding.UniquelyDecodable

/-!
Types read back from their spellings.

A spelling is a row of words with an underscore between any two. Read word by word, with the name of
a record as one word, it gives back its type, if no record is called like a word that spellings have
of their own. Names may hold underscores themselves, so where one name ends is clear only if the
names and these words form a prefix code.
-/

set_option autoImplicit false

namespace Lir

/-- Rows of code words can be read back if no code word starts with another. -/
theorem uniquelyDecodable_of_prefix_free {α : Type} {code : Set (List α)} (no_nil : [] ∉ code)
    (free : ∀ u ∈ code, ∀ v ∈ code, u <+: v → u = v) :
    InformationTheory.UniquelyDecodable code := by
  intro left right in_left in_right same
  induction left generalizing right with
  | nil =>
    cases right with
    | nil => rfl
    | cons v right =>
      have empty : v = [] := (List.append_eq_nil_iff.1 same.symm).1
      exact absurd (empty ▸ in_right v List.mem_cons_self) no_nil
  | cons u left ih =>
    obtain ⟨u_code, left_code⟩ := List.forall_mem_cons.1 in_left
    cases right with
    | nil =>
      have empty : u = [] := (List.append_eq_nil_iff.1 same).1
      exact absurd (empty ▸ u_code) no_nil
    | cons v right =>
      obtain ⟨v_code, right_code⟩ := List.forall_mem_cons.1 in_right
      rw [List.flatten_cons, List.flatten_cons] at same
      have first : u = v := by
        rcases List.prefix_or_prefix_of_prefix (List.prefix_append u left.flatten)
          ⟨right.flatten, same.symm⟩ with shorter | longer
        · exact free u u_code v v_code shorter
        · exact (free v v_code u u_code longer).symm
      subst first
      rw [ih right left_code right_code (List.append_cancel_left same)]

namespace Ty

/-! ### Rows of words -/

/-- The words that spellings have of their own. The empty one stands where a function has no
parameters. -/
def ownWords : List String := ["", "int", "ptr", "fn", "to", "void"]

def blankFor (params : List Ty) : List String := if params.isEmpty then [""] else []

mutual
/-- The words of a spelling. The name of a record counts as one. -/
def words : Ty → List String
  | .int => ["int"]
  | .record name => [name]
  | .pointer pointee => "ptr" :: pointee.words
  | .function params result =>
    "fn" :: (blankFor params ++ (wordsOfParams params ++ "to" :: wordsOfResult result))

def wordsOfParams : List Ty → List String
  | [] => []
  | param :: rest => param.words ++ wordsOfParams rest

def wordsOfResult : Option Ty → List String
  | none => ["void"]
  | some result => result.words
end

def recordNames (ty : Ty) : List String := ty.within.filterMap recordName?

def recordNamesOfParams (params : List Ty) : List String :=
  (withinParams params).filterMap recordName?

def recordNamesOfResult (result : Option Ty) : List String :=
  (withinResult result).filterMap recordName?

@[simp] theorem recordNames_function (params : List Ty) (result : Option Ty) :
    (function params result).recordNames =
      recordNamesOfParams params ++ recordNamesOfResult result := by
  simp only [recordNames, within, List.filterMap_cons, recordName?, List.filterMap_append,
    recordNamesOfParams, recordNamesOfResult]

@[simp] theorem recordNamesOfParams_cons (param : Ty) (rest : List Ty) :
    recordNamesOfParams (param :: rest) = param.recordNames ++ recordNamesOfParams rest := by
  simp only [recordNamesOfParams, withinParams, List.filterMap_append, recordNames]

/-- A word as it stands in a spelling: an underscore ends it, but for the last one. -/
def underscored (word : String) : List Char := word.toList ++ ['_']

theorem underscored_injective : Function.Injective underscored := fun _ _ same =>
  String.toList_inj.1 (List.append_cancel_right same)

theorem underscored_append (text word : String) :
    underscored (text ++ word) = text.toList ++ underscored word := by
  simp [underscored]

theorem underscored_intercalate (first : String) (rest : List String) :
    underscored ("_".intercalate (first :: rest)) = (first :: rest).flatMap underscored := by
  induction rest generalizing first with
  | nil => simp
  | cons second rest ih =>
    rw [String.intercalate_cons_cons, String.append_assoc, underscored_append,
      underscored_append, ih]
    simp [underscored]

theorem underscored_joined {params : List Ty}
    (each : (mangledParams params).flatMap underscored =
      (wordsOfParams params).flatMap underscored) :
    underscored ("_".intercalate (mangledParams params)) =
      (blankFor params ++ wordsOfParams params).flatMap underscored := by
  cases params with
  | nil => rfl
  | cons param rest =>
    rw [mangledParams, underscored_intercalate, ← mangledParams, each]
    rfl

mutual
theorem underscored_mangled : (ty : Ty) → underscored ty.mangled = ty.words.flatMap underscored
  | .int => by simp [mangled, words]
  | .record name => by simp [mangled, words]
  | .pointer pointee => by
    rw [mangled, words, underscored_append, underscored_mangled pointee, List.flatMap_cons]
    rfl
  | .function params result => by
    have first := underscored_mangledParams params
    have second := underscored_mangledResult result
    have joined := underscored_joined first
    rw [mangled, words, String.append_assoc, String.append_assoc, underscored_append]
    simp only [List.flatMap_cons, List.flatMap_append] at joined ⊢
    rw [← second, ← List.append_assoc (List.flatMap _ _), ← joined]
    simp [underscored]

theorem underscored_mangledParams : (params : List Ty) →
    (mangledParams params).flatMap underscored = (wordsOfParams params).flatMap underscored
  | [] => rfl
  | param :: rest => by
    rw [mangledParams, wordsOfParams, List.flatMap_cons, List.flatMap_append,
      underscored_mangled param, underscored_mangledParams rest]

theorem underscored_mangledResult : (result : Option Ty) →
    underscored (mangledResult result) = (wordsOfResult result).flatMap underscored
  | none => by simp [mangledResult, wordsOfResult]
  | some result => by rw [mangledResult, wordsOfResult, underscored_mangled result]
end

/-- The words of a spelling, the names of records cut at their underscores. -/
def pieces (ty : Ty) : List (List Char) := ty.words.flatMap fun word => word.toList.splitOn '_'

theorem splitOn_flatMap_underscored (row : List String) :
    (row.flatMap underscored).splitOn '_' =
      (row.flatMap fun word => word.toList.splitOn '_') ++ [[]] := by
  induction row with
  | nil => rfl
  | cons word row ih =>
    rw [List.flatMap_cons, List.flatMap_cons, underscored, List.append_assoc, List.singleton_append,
      List.splitOn_append_cons_self, ih, List.append_assoc]

theorem splitOn_mangled (ty : Ty) : ty.mangled.toList.splitOn '_' = ty.pieces := by
  have cut := splitOn_flatMap_underscored ty.words
  rw [← underscored_mangled, underscored, List.splitOn_append_cons_self] at cut
  exact List.append_cancel_right cut

/-- Types are spelled alike exactly when their spellings have the same pieces, whichever of these
belong to one name. -/
theorem mangled_eq_iff_pieces {a b : Ty} : a.mangled = b.mangled ↔ a.pieces = b.pieces := by
  constructor
  · intro same
    rw [← splitOn_mangled, ← splitOn_mangled, same]
  · intro same
    have joined : ∀ ty : Ty, ty.mangled.toList = List.intercalate ['_'] ty.pieces := fun ty => by
      rw [← splitOn_mangled, List.intercalate_splitOn]
    rw [← String.toList_inj, joined a, joined b, same]

/-! ### Words back to types -/

mutual
theorem mem_words : (ty : Ty) → ∀ word ∈ ty.words, word ∈ ownWords ∨ word ∈ ty.recordNames
  | .int => by decide
  | .record _ => fun _ => .inr
  | .pointer pointee => List.forall_mem_cons.2 ⟨.inl (by decide), mem_words pointee⟩
  | .function params result => by
    have blank : ∀ word ∈ blankFor params, word ∈ ownWords := by
      unfold blankFor
      split <;> decide
    intro word listed
    simp only [words, List.mem_cons, List.mem_append] at listed
    rw [recordNames_function, List.mem_append]
    rcases listed with rfl | in_blank | in_params | rfl | in_result
    · exact .inl (by decide)
    · exact .inl (blank word in_blank)
    · exact (mem_wordsOfParams params word in_params).imp_right .inl
    · exact .inl (by decide)
    · exact (mem_wordsOfResult result word in_result).imp_right .inr

theorem mem_wordsOfParams : (params : List Ty) → ∀ word ∈ wordsOfParams params,
    word ∈ ownWords ∨ word ∈ recordNamesOfParams params
  | [] => fun _ listed => absurd listed List.not_mem_nil
  | param :: rest => by
    intro word listed
    rw [recordNamesOfParams_cons, List.mem_append]
    rcases List.mem_append.1 listed with in_param | in_rest
    · exact (mem_words param word in_param).imp_right .inl
    · exact (mem_wordsOfParams rest word in_rest).imp_right .inr

theorem mem_wordsOfResult : (result : Option Ty) → ∀ word ∈ wordsOfResult result,
    word ∈ ownWords ∨ word ∈ recordNamesOfResult result
  | none => by decide
  | some result => mem_words result
end

def sideWords : List String := ["", "to", "void"]

section

variable {ty : Ty} {params others : List Ty} {name word : String} {rest more : List String}

theorem ne_name (fresh : ownWords.Disjoint (record name).recordNames) (own : word ∈ ownWords) :
    word ≠ name :=
  fun same => fresh own (List.mem_singleton.2 same)

theorem cons_ne_words_append (fresh : ownWords.Disjoint ty.recordNames) (side : word ∈ sideWords) :
    word :: rest ≠ ty.words ++ more := by
  intro same
  cases ty with
  | record name =>
    have own : sideWords ⊆ ownWords := by decide
    exact ne_name fresh (own side) (List.cons.inj same).1
  | _ => exact absurd ((List.cons.inj same).1 ▸ side) (by decide)

theorem cons_ne_wordsOfParams_append
    (fresh : ownWords.Disjoint (recordNamesOfParams (ty :: params))) (side : word ∈ sideWords) :
    word :: rest ≠ wordsOfParams (ty :: params) ++ more := by
  rw [recordNamesOfParams_cons, List.disjoint_append_right] at fresh
  rw [wordsOfParams, List.append_assoc]
  exact cons_ne_words_append fresh.1 side

/-- An empty word stands for no parameters, and no parameter starts with one. -/
theorem wordsOfParams_append_eq (fresh : ownWords.Disjoint (recordNamesOfParams params))
    (others_fresh : ownWords.Disjoint (recordNamesOfParams others))
    (same : blankFor params ++ (wordsOfParams params ++ rest) =
      blankFor others ++ (wordsOfParams others ++ more)) :
    wordsOfParams params ++ rest = wordsOfParams others ++ more := by
  cases params with
  | nil =>
    cases others with
    | nil => exact (List.cons.inj same).2
    | cons other others =>
      exact absurd same (cons_ne_wordsOfParams_append others_fresh (by decide))
  | cons param params =>
    cases others with
    | nil => exact absurd same.symm (cons_ne_wordsOfParams_append fresh (by decide))
    | cons other others => exact same

end

mutual
/-- A row of words starts with the spelling of one type at most, if no record bears a word that
spellings have of their own. -/
theorem words_append_inj : (a b : Ty) → (r s : List String) → ownWords.Disjoint a.recordNames →
    ownWords.Disjoint b.recordNames → a.words ++ r = b.words ++ s → a = b ∧ r = s
  | .int, b, r, s, _, fresh, same => by
    cases b with
    | int => exact ⟨rfl, (List.cons.inj same).2⟩
    | record name => exact absurd (List.cons.inj same).1 (ne_name fresh (by decide))
    | _ => simp [words] at same
  | .record name, b, r, s, a_fresh, _, same => by
    cases b with
    | record other =>
      obtain ⟨rfl, tails⟩ := List.cons.inj same
      exact ⟨rfl, tails⟩
    | _ => exact absurd (List.cons.inj same).1.symm (ne_name a_fresh (by decide))
  | .pointer a, b, r, s, a_fresh, fresh, same => by
    cases b with
    | pointer b =>
      obtain ⟨rfl, tails⟩ := words_append_inj a b r s a_fresh fresh (List.cons.inj same).2
      exact ⟨rfl, tails⟩
    | record name => exact absurd (List.cons.inj same).1 (ne_name fresh (by decide))
    | _ => simp [words] at same
  | .function params result, b, r, s, a_fresh, fresh, same => by
    cases b with
    | function others other =>
      simp only [recordNames_function, List.disjoint_append_right] at a_fresh fresh
      simp only [words, List.cons_append, List.append_assoc, List.cons.injEq, true_and] at same
      -- No type starts with `to`, so the parameters end where one would stand and `to` does.
      have first := wordsOfParams_append_inj params others _ _ a_fresh.1 fresh.1
        (wordsOfParams_append_eq a_fresh.1 fresh.1 same)
      have second := wordsOfResult_append_inj result other r s a_fresh.2 fresh.2 first.2
      simp [first.1, second]
    | record name => exact absurd (List.cons.inj same).1 (ne_name fresh (by decide))
    | _ => simp [words] at same

theorem wordsOfParams_append_inj : (a b : List Ty) → (r s : List String) →
    ownWords.Disjoint (recordNamesOfParams a) → ownWords.Disjoint (recordNamesOfParams b) →
    wordsOfParams a ++ "to" :: r = wordsOfParams b ++ "to" :: s → a = b ∧ r = s
  | [], b, r, s, _, fresh, same => by
    cases b with
    | nil => exact ⟨rfl, (List.cons.inj same).2⟩
    | cons other others => exact absurd same (cons_ne_wordsOfParams_append fresh (by decide))
  | param :: rest, b, r, s, a_fresh, fresh, same => by
    cases b with
    | nil => exact absurd same.symm (cons_ne_wordsOfParams_append a_fresh (by decide))
    | cons other others =>
      rw [recordNamesOfParams_cons, List.disjoint_append_right] at a_fresh fresh
      simp only [wordsOfParams, List.append_assoc] at same
      have first := words_append_inj param other _ _ a_fresh.1 fresh.1 same
      have second := wordsOfParams_append_inj rest others r s a_fresh.2 fresh.2 first.2
      simp [first.1, second]

theorem wordsOfResult_append_inj : (a b : Option Ty) → (r s : List String) →
    ownWords.Disjoint (recordNamesOfResult a) → ownWords.Disjoint (recordNamesOfResult b) →
    wordsOfResult a ++ r = wordsOfResult b ++ s → a = b ∧ r = s
  | none, b, r, s, _, fresh, same => by
    cases b with
    | none => exact ⟨rfl, (List.cons.inj same).2⟩
    | some other => exact absurd same (cons_ne_words_append fresh (by decide))
  | some result, b, r, s, a_fresh, fresh, same => by
    cases b with
    | none => exact absurd same.symm (cons_ne_words_append a_fresh (by decide))
    | some other =>
      obtain ⟨rfl, tails⟩ := words_append_inj result other r s a_fresh fresh same
      exact ⟨rfl, tails⟩
end

/-! ### Names under which no two types are spelled alike -/

def ToldApart (names : List String) : Prop :=
  ∀ a b : Ty, a.recordNames ⊆ names → b.recordNames ⊆ names → a.mangled = b.mangled → a = b

/-- The names are none of the words that spellings have of their own, and together with these they
form a prefix code. -/
structure Legible (names : List String) : Prop where
  fresh : ∀ word ∈ ownWords, word ∉ names
  code : ∀ word ∈ ownWords ++ names, ∀ other ∈ ownWords ++ names,
    underscored word <+: underscored other → word = other

instance (names : List String) : Decidable (Legible names) :=
  decidable_of_iff
    ((∀ word ∈ ownWords, word ∉ names) ∧ ∀ word ∈ ownWords ++ names,
      ∀ other ∈ ownWords ++ names, underscored word <+: underscored other → word = other)
    ⟨fun ⟨fresh, code⟩ => ⟨fresh, code⟩, fun ⟨fresh, code⟩ => ⟨fresh, code⟩⟩

variable {names : List String}

theorem Legible.uniquelyDecodable (legible : Legible names) :
    InformationTheory.UniquelyDecodable (underscored '' {word | word ∈ ownWords ++ names}) := by
  apply uniquelyDecodable_of_prefix_free
  · rintro ⟨word, _, empty⟩
    exact absurd (List.append_eq_nil_iff.1 empty).2 (List.cons_ne_nil _ _)
  · rintro _ ⟨word, listed, rfl⟩ _ ⟨other, other_listed, rfl⟩ starts
    rw [legible.code word listed other other_listed starts]

theorem Legible.toldApart (legible : Legible names) : ToldApart names := by
  intro a b in_a in_b same
  have coded : ∀ ty : Ty, ty.recordNames ⊆ names → ∀ text ∈ ty.words.map underscored,
      text ∈ underscored '' {word | word ∈ ownWords ++ names} := by
    intro ty within text listed
    obtain ⟨word, in_words, rfl⟩ := List.mem_map.1 listed
    exact ⟨word, List.mem_append.2 ((mem_words ty word in_words).imp_right (@within word)), rfl⟩
  have rows : a.words.map underscored = b.words.map underscored := by
    apply legible.uniquelyDecodable _ _ (coded a in_a) (coded b in_b)
    rw [← List.flatMap_def, ← List.flatMap_def, ← underscored_mangled, ← underscored_mangled, same]
  have fresh : ∀ ty : Ty, ty.recordNames ⊆ names → ownWords.Disjoint ty.recordNames :=
    fun ty within word own listed => legible.fresh word own (within listed)
  have words_same : a.words = b.words := underscored_injective.list_map rows
  exact (words_append_inj a b [] [] (fresh a in_a) (fresh b in_b) (by rw [words_same])).1

/-- What a single word starts with, an underscore after it, is the word. -/
theorem eq_of_underscored_isPrefix {word other : String} (single : '_' ∉ other.toList)
    (starts : underscored word <+: underscored other) : word = other := by
  obtain ⟨rest, same⟩ := starts
  rcases List.eq_nil_or_concat' rest with rfl | ⟨front, last, rfl⟩
  · rw [List.append_nil] at same
    exact underscored_injective same
  · -- The underscore after the shorter text stands inside the longer one.
    rw [underscored, underscored, ← List.append_assoc] at same
    have inside := (List.append_inj' same rfl).1
    exact absurd (inside ▸ by simp) single

theorem Legible.of_single (single : ∀ name ∈ names, '_' ∉ name.toList)
    (fresh : ∀ word ∈ ownWords, word ∉ names) : Legible names where
  fresh := fresh
  code word _ other listed starts := by
    have own_single : ∀ word ∈ ownWords, '_' ∉ word.toList := by decide +kernel
    exact eq_of_underscored_isPrefix
      ((List.mem_append.1 listed).elim (own_single other) (single other)) starts

def lookalikes (word : String) : Ty × Ty :=
  let named := record word
  match word with
  | "" => (.function [] none, .function [named] none)
  | "int" => (.int, named)
  | "ptr" => (.function [.pointer .int] none, .function [named, .int] none)
  -- Where names may start or end a function, its last parameters may go to the outer one.
  | "fn" => (.function [named, .function [.int] none] none,
      .function [.function [named, .int] none] none)
  | "to" => (.function [.function [.int] (some named), named, .int] none,
      .function [.function [.int, named] (some named), .int] none)
  | _ => (.function [] none, .function [] (some named))

theorem lookalikes_alike : ∀ word ∈ ownWords,
    (lookalikes word).1.recordNames ⊆ [word] ∧ (lookalikes word).2.recordNames ⊆ [word] ∧
      (lookalikes word).1.mangled = (lookalikes word).2.mangled ∧
      (lookalikes word).1 ≠ (lookalikes word).2 := by
  decide +kernel

theorem toldApart_iff_of_single (single : ∀ name ∈ names, '_' ∉ name.toList) :
    ToldApart names ↔ ∀ word ∈ ownWords, word ∉ names := by
  refine ⟨fun told word own listed => ?_, fun fresh => (Legible.of_single single fresh).toldApart⟩
  obtain ⟨first, second, same, different⟩ := lookalikes_alike word own
  have within : [word] ⊆ names := List.cons_subset.2 ⟨listed, List.nil_subset _⟩
  exact different
    (told _ _ (List.Subset.trans first within) (List.Subset.trans second within) same)

end Ty

end Lir
