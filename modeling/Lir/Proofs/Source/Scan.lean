import Lir.Source.Token
import Mathlib.Data.List.Basic
import Mathlib.Data.List.TakeWhile

/-!
Scanning one token after the other.

A text is scanned by skipping blanks, taking the first token and scanning what follows it. A text
that scans keeps its tokens before any continuation that does not lengthen its last word, and
blanks around a text change nothing.
-/

set_option autoImplicit false

namespace Lir

namespace Token

/-! ### Classes of characters -/

theorem toNat_of_isAlpha {c : Char} (alpha : c.isAlpha = true) :
    65 ≤ c.toNat ∧ c.toNat ≤ 90 ∨ 97 ≤ c.toNat ∧ c.toNat ≤ 122 := by
  change (decide (65 ≤ c.toNat ∧ c.toNat ≤ 90) ||
    (decide (97 ≤ c.toNat) && decide (c.toNat ≤ 122))) = true at alpha
  simpa only [Bool.or_eq_true, Bool.and_eq_true, decide_eq_true_eq] using alpha

theorem toNat_of_isDigit {c : Char} (digit : c.isDigit = true) : 48 ≤ c.toNat ∧ c.toNat ≤ 57 :=
  Char.isDigit_iff_toNat.1 digit

theorem isNameStart_iff (c : Char) : isNameStart c = true ↔ c.isAlpha = true ∨ c = '_' := by
  rw [isNameStart, Bool.or_eq_true, decide_eq_true_eq]

theorem isWordChar_iff (c : Char) :
    isWordChar c = true ↔ isNameStart c = true ∨ c.isDigit = true := by
  rw [isNameStart_iff, isWordChar, Bool.or_eq_true, decide_eq_true_eq]
  change (c.isAlpha || c.isDigit) = true ∨ c = '_' ↔ _
  rw [Bool.or_eq_true, or_right_comm]

theorem not_isDigit_of_isNameStart {c : Char} (start : isNameStart c = true) :
    c.isDigit = false := by
  refine Bool.eq_false_iff.2 fun digit => ?_
  have digit_range := toNat_of_isDigit digit
  rcases (isNameStart_iff c).1 start with alpha | rfl
  · have alpha_range := toNat_of_isAlpha alpha
    omega
  · exact absurd digit (by decide)

theorem toNat_of_isWordChar {c : Char} (word : isWordChar c = true) :
    48 ≤ c.toNat ∧ c.toNat ≤ 122 := by
  rcases (isWordChar_iff c).1 word with start | digit
  · rcases (isNameStart_iff c).1 start with alpha | rfl
    · have range := toNat_of_isAlpha alpha
      omega
    · decide
  · have range := toNat_of_isDigit digit
    omega

theorem ne_of_class {c : Char} {p : Char → Bool} (held : p c = true) (other : Char)
    (fails : p other = false) : c ≠ other := by
  rintro rfl
  simp [fails] at held

theorem isWordChar_of_isDigit {c : Char} (digit : c.isDigit = true) : isWordChar c = true :=
  (isWordChar_iff c).2 (.inr digit)

theorem isWordChar_of_isNameStart {c : Char} (start : isNameStart c = true) :
    isWordChar c = true :=
  (isWordChar_iff c).2 (.inl start)

theorem not_isBlankChar_of_isWordChar {c : Char} (word : isWordChar c = true) :
    isBlankChar c = false := by
  simp [isBlankChar, ne_of_class word ' ' (by decide), ne_of_class word '\t' (by decide)]

/-- A mark starts no other token and no comment, and is no blank. -/
theorem class_of_ofChar? {c : Char} {mark : Punct} (written : Punct.ofChar? c = some mark) :
    c ≠ '$' ∧ c ≠ '-' ∧ c ≠ '/' ∧ isBlankChar c = false ∧ c.isDigit = false ∧
      isNameStart c = false := by
  rw [Punct.ofChar?.eq_def] at written
  split at written
  all_goals first | decide | simp at written

/-! ### The first token -/

/-- The token that a text starts with, and what follows it. -/
inductive First : List Char → Token → List Char → Prop where
  | opcode (tail : List Char) :
      First ('$' :: tail) (.opcode (.ofList (tail.takeWhile isWordChar)))
        (tail.dropWhile isWordChar)
  | arrow (tail : List Char) : First ('-' :: '>' :: tail) (.punct .arrow) tail
  | negative {c : Char} (digit : c.isDigit = true) (tail : List Char) :
      First ('-' :: c :: tail) (.number true (c :: tail.takeWhile Char.isDigit))
        (tail.dropWhile Char.isDigit)
  | number {c : Char} (digit : c.isDigit = true) (tail : List Char) :
      First (c :: tail) (.number false (c :: tail.takeWhile Char.isDigit))
        (tail.dropWhile Char.isDigit)
  | ident {c : Char} (start : isNameStart c = true) (tail : List Char) :
      First (c :: tail) (.ident (.ofList (c :: tail.takeWhile isWordChar)))
        (tail.dropWhile isWordChar)
  | punct {c : Char} {mark : Punct} (written : Punct.ofChar? c = some mark) (tail : List Char) :
      First (c :: tail) (.punct mark) tail

theorem first?_cons {c : Char} (not_dollar : c ≠ '$') (not_minus : c ≠ '-') (tail : List Char) :
    first? (c :: tail) =
      if c.isDigit then some (.number false (c :: tail.takeWhile Char.isDigit),
        tail.dropWhile Char.isDigit)
      else if isNameStart c then some (.ident (.ofList (c :: tail.takeWhile isWordChar)),
        tail.dropWhile isWordChar)
      else (Punct.ofChar? c).map fun mark => (.punct mark, tail) :=
  first?.eq_5 c tail not_dollar (fun _ minus => absurd minus not_minus)
    (fun _ _ minus => absurd minus not_minus)

theorem first?_eq_some_iff (text : List Char) (token : Token) (rest : List Char) :
    first? text = some (token, rest) ↔ First text token rest := by
  constructor
  · intro found
    rw [first?.eq_def] at found
    split at found
    · simp at found
    · obtain ⟨rfl, rfl⟩ := Prod.mk.inj (Option.some.inj found)
      exact .opcode _
    · obtain ⟨rfl, rfl⟩ := Prod.mk.inj (Option.some.inj found)
      exact .arrow _
    · split at found
      next digit =>
        obtain ⟨rfl, rfl⟩ := Prod.mk.inj (Option.some.inj found)
        exact .negative digit _
      next => simp at found
    · split at found
      next digit =>
        obtain ⟨rfl, rfl⟩ := Prod.mk.inj (Option.some.inj found)
        exact .number digit _
      next =>
        split at found
        next start =>
          obtain ⟨rfl, rfl⟩ := Prod.mk.inj (Option.some.inj found)
          exact .ident start _
        next =>
          obtain ⟨mark, written, same⟩ := Option.map_eq_some_iff.1 found
          obtain ⟨rfl, rfl⟩ := Prod.mk.inj same
          exact .punct written _
  · intro first
    cases first with
    | opcode tail => rfl
    | arrow => rfl
    | @negative c digit tail =>
      rw [first?.eq_4 c tail (ne_of_class digit _ (by decide)), if_pos digit]
    | @number c digit tail =>
      rw [first?_cons (ne_of_class digit _ (by decide)) (ne_of_class digit _ (by decide)),
        if_pos digit]
    | @ident c start tail =>
      rw [first?_cons (ne_of_class start _ (by decide)) (ne_of_class start _ (by decide)),
        if_neg (by simp [not_isDigit_of_isNameStart start]), if_pos start]
    | @punct c mark written tail =>
      obtain ⟨not_dollar, not_minus, _, _, not_digit, not_start⟩ := class_of_ofChar? written
      rw [first?_cons not_dollar not_minus, not_digit, not_start, written]
      rfl

theorem First.length_lt {text rest : List Char} {token : Token} (first : First text token rest) :
    rest.length < text.length := by
  have dropped := fun p (tail : List Char) => (List.dropWhile_suffix p (l := tail)).length_le
  cases first with
  | opcode tail => exact Nat.lt_succ_of_le (dropped isWordChar tail)
  | arrow => exact Nat.lt_succ_of_lt (Nat.lt_succ_self _)
  | negative _ tail => exact Nat.lt_succ_of_lt (Nat.lt_succ_of_le (dropped Char.isDigit tail))
  | number _ tail => exact Nat.lt_succ_of_le (dropped Char.isDigit tail)
  | ident _ tail => exact Nat.lt_succ_of_le (dropped isWordChar tail)
  | punct => exact Nat.lt_succ_self _

/-! ### Skipping blanks -/

theorem skipBlanks_eq (text : List Char) :
    skipBlanks text = text.dropWhile isBlankChar ∨
      skipBlanks text = [] ∧ ∃ comment, text.dropWhile isBlankChar = '/' :: '/' :: comment := by
  rw [skipBlanks]
  split
  next comment same => exact .inr ⟨rfl, comment, same⟩
  next => exact .inl rfl

theorem skipBlanks_blank {c : Char} (blank : isBlankChar c = true) (text : List Char) :
    skipBlanks (c :: text) = skipBlanks text := by
  rw [skipBlanks, skipBlanks, List.dropWhile_cons_of_pos blank]

theorem skipBlanks_comment (text : List Char) : skipBlanks ('/' :: '/' :: text) = [] := rfl

theorem skipBlanks_of_not_comment {c : Char} (not_blank : isBlankChar c = false)
    {text : List Char} (not_comment : ∀ comment, c :: text ≠ '/' :: '/' :: comment) :
    skipBlanks (c :: text) = c :: text := by
  have kept : (c :: text).dropWhile isBlankChar = c :: text :=
    List.dropWhile_cons_of_neg (by simp [not_blank])
  rcases skipBlanks_eq (c :: text) with same | ⟨_, comment, slashes⟩
  · exact same.trans kept
  · exact absurd (kept.symm.trans slashes) (not_comment comment)

theorem skipBlanks_cons {c : Char} (not_blank : isBlankChar c = false) (not_slash : c ≠ '/')
    (text : List Char) : skipBlanks (c :: text) = c :: text :=
  skipBlanks_of_not_comment not_blank fun _ slashes => not_slash (List.cons.inj slashes).1

theorem length_skipBlanks_le (text : List Char) : (skipBlanks text).length ≤ text.length := by
  rcases skipBlanks_eq text with same | ⟨same, _⟩
  · rw [same]
    exact (List.dropWhile_suffix _).length_le
  · rw [same]
    exact Nat.zero_le _

theorem First.skipBlanks_eq {text rest : List Char} {token : Token}
    (first : First text token rest) : skipBlanks text = text := by
  cases first with
  | opcode tail => exact skipBlanks_cons (by decide) (by decide) _
  | arrow => exact skipBlanks_cons (by decide) (by decide) _
  | negative digit tail => exact skipBlanks_cons (by decide) (by decide) _
  | number digit tail =>
    exact skipBlanks_cons (not_isBlankChar_of_isWordChar (isWordChar_of_isDigit digit))
      (ne_of_class digit _ (by decide)) _
  | ident start tail =>
    exact skipBlanks_cons (not_isBlankChar_of_isWordChar (isWordChar_of_isNameStart start))
      (ne_of_class start _ (by decide)) _
  | punct written =>
    obtain ⟨_, _, not_slash, not_blank, _, _⟩ := class_of_ofChar? written
    exact skipBlanks_cons not_blank not_slash _

/-! ### All tokens -/

-- Every token takes a character, so as many steps as characters are enough and more change nothing.
theorem scanSteps_eq_scanSteps {steps more : Nat} {text : List Char} (enough : text.length ≤ steps)
    (enough' : text.length ≤ more) : scanSteps steps text = scanSteps more text := by
  induction steps generalizing more text with
  | zero =>
    obtain rfl := List.length_eq_zero_iff.1 (Nat.le_zero.1 enough)
    cases more <;> rfl
  | succ steps ih =>
    cases more with
    | zero =>
      obtain rfl := List.length_eq_zero_iff.1 (Nat.le_zero.1 enough')
      rfl
    | succ more =>
      rw [scanSteps, scanSteps]
      have shorter := length_skipBlanks_le text
      split
      · rfl
      next =>
        cases found : first? (skipBlanks text) with
        | none => rfl
        | some read =>
          have less := ((first?_eq_some_iff _ _ _).1 found).length_lt
          have same : scanSteps steps read.2 = scanSteps more read.2 := ih (by omega) (by omega)
          simp only [Option.bind_eq_bind, Option.bind_some, same]

theorem scan_of_nothing {text : List Char} (nothing : skipBlanks text = []) :
    scan text = some [] := by
  rw [scan]
  cases text with
  | nil => rfl
  | cons c tail =>
    rw [List.length_cons, scanSteps]
    split
    · rfl
    next something => exact absurd nothing something

theorem scan_of_something {text : List Char} (something : skipBlanks text ≠ []) :
    scan text =
      (first? (skipBlanks text)).bind fun read => (scan read.2).map (read.1 :: ·) := by
  rw [scan]
  cases text with
  | nil => exact absurd rfl something
  | cons c tail =>
    rw [List.length_cons, scanSteps]
    have shorter := length_skipBlanks_le (c :: tail)
    split
    next nothing => exact absurd nothing something
    next =>
      cases found : first? (skipBlanks (c :: tail)) with
      | none => rfl
      | some read =>
        have less := ((first?_eq_some_iff _ _ _).1 found).length_lt
        rw [List.length_cons] at shorter
        have same : scanSteps tail.length read.2 = scan read.2 :=
          scanSteps_eq_scanSteps (by omega) (Nat.le_refl _)
        simp only [Option.bind_eq_bind, Option.bind_some, same]
        cases scan read.2 <;> rfl

theorem scan_cons {c : Char} {tail : List Char} (kept : skipBlanks (c :: tail) = c :: tail) :
    scan (c :: tail) =
      (first? (c :: tail)).bind fun read => (scan read.2).map (read.1 :: ·) := by
  rw [scan_of_something (by rw [kept]; exact List.cons_ne_nil c tail), kept]

theorem scan_congr {text other : List Char} (same : skipBlanks text = skipBlanks other) :
    scan text = scan other := by
  by_cases nothing : skipBlanks other = []
  · rw [scan_of_nothing nothing, scan_of_nothing (same.trans nothing)]
  · rw [scan_of_something nothing, scan_of_something (same ▸ nothing), same]

theorem scan_of_first {text rest : List Char} {token : Token} (first : First text token rest) :
    scan text = (scan rest).map (token :: ·) := by
  have kept := first.skipBlanks_eq
  have something : skipBlanks text ≠ [] := by
    rw [kept]
    exact List.ne_nil_of_length_pos (Nat.zero_lt_of_lt first.length_lt)
  rw [scan_of_something something, kept, (first?_eq_some_iff _ _ _).2 first]
  rfl

/-! ### Texts one after the other -/

/-- Between two texts no word goes on: either the second starts with something else, or the first
ends with something else. -/
def Apart (text rest : List Char) : Prop :=
  ∀ b ∈ rest.head?, isWordChar b = true → ∀ a ∈ text.getLast?, isWordChar a = false ∧ a ≠ '$'

theorem takeWhile_dropWhile_append {p : Char → Bool} {text more : List Char}
    (stops : text.dropWhile p = [] → ∀ c ∈ more.head?, p c = false) :
    (text ++ more).takeWhile p = text.takeWhile p ∧
      (text ++ more).dropWhile p = text.dropWhile p ++ more := by
  induction text with
  | nil =>
    cases more with
    | nil => simp
    | cons c more => simp [stops rfl c rfl]
  | cons c text ih =>
    rw [List.cons_append]
    by_cases held : p c = true
    · rw [List.dropWhile_cons_of_pos held] at stops ⊢
      rw [List.dropWhile_cons_of_pos held, List.takeWhile_cons_of_pos held,
        List.takeWhile_cons_of_pos held, (ih stops).1]
      exact ⟨rfl, (ih stops).2⟩
    · simp [held]

theorem First.append {text rest more : List Char} {token : Token} (first : First text token rest)
    (apart : rest = [] → Apart text more) : First (text ++ more) token (rest ++ more) := by
  -- The text ends in a word character or a dollar if the token takes it all.
  have stops : ∀ (c : Char) (tail : List Char) (p : Char → Bool),
      (∀ c, p c = true → isWordChar c = true) → (isWordChar c = true ∨ c = '$') →
      (tail.dropWhile p = [] → Apart (c :: tail) more) →
      tail.dropWhile p = [] → ∀ b ∈ more.head?, p b = false := by
    intro c tail p words starts apart all b next
    refine Bool.eq_false_iff.2 fun held => ?_
    obtain ⟨last, at_end⟩ : ∃ last, (c :: tail).getLast? = some last := ⟨_, List.getLast?_cons⟩
    obtain ⟨not_word, not_dollar⟩ := apart all b next (words b held) last at_end
    rw [List.dropWhile_eq_nil_iff] at all
    rcases List.mem_cons.1 (List.mem_of_mem_getLast? at_end) with rfl | inside
    · exact starts.elim (fun word => by simp [word] at not_word) not_dollar
    · simp [words last (all last inside)] at not_word
  cases first with
  | opcode tail =>
    obtain ⟨taken, dropped⟩ := takeWhile_dropWhile_append
      (stops '$' tail isWordChar (fun _ => id) (.inr rfl) apart)
    rw [List.cons_append, ← dropped, ← taken]
    exact .opcode _
  | arrow => exact .arrow _
  | @negative c digit tail =>
    have behind_sign : Apart ('-' :: c :: tail) more → Apart (c :: tail) more := by
      intro apart b next word
      rw [← List.getLast?_cons_cons (a := '-')]
      exact apart b next word
    obtain ⟨taken, dropped⟩ := takeWhile_dropWhile_append
      (stops c tail Char.isDigit (fun _ => isWordChar_of_isDigit)
        (.inl (isWordChar_of_isDigit digit)) fun all => behind_sign (apart all))
    rw [List.cons_append, List.cons_append, ← dropped, ← taken]
    exact .negative digit _
  | @number c digit tail =>
    obtain ⟨taken, dropped⟩ := takeWhile_dropWhile_append
      (stops c tail Char.isDigit (fun _ => isWordChar_of_isDigit)
        (.inl (isWordChar_of_isDigit digit)) apart)
    rw [List.cons_append, ← dropped, ← taken]
    exact .number digit _
  | @ident c start tail =>
    obtain ⟨taken, dropped⟩ := takeWhile_dropWhile_append
      (stops c tail isWordChar (fun _ => id) (.inl (isWordChar_of_isNameStart start)) apart)
    rw [List.cons_append, ← dropped, ← taken]
    exact .ident start _
  | punct written => exact .punct written _

theorem First.suffix {text rest : List Char} {token : Token} (first : First text token rest) :
    rest <:+ text := by
  have dropped := fun p (tail : List Char) => List.dropWhile_suffix p (l := tail)
  cases first with
  | opcode tail => exact (dropped _ _).trans (List.suffix_cons _ _)
  | arrow tail => exact (List.suffix_cons _ _).trans (List.suffix_cons _ _)
  | negative _ tail =>
    exact (dropped _ _).trans ((List.suffix_cons _ _).trans (List.suffix_cons _ _))
  | number _ tail => exact (dropped _ _).trans (List.suffix_cons _ _)
  | ident _ tail => exact (dropped _ _).trans (List.suffix_cons _ _)
  | punct _ tail => exact List.suffix_cons _ _

theorem Apart.of_suffix {text ending rest : List Char} (apart : Apart text rest)
    (suffix : ending <:+ text) : Apart ending rest := by
  intro b next word a last
  obtain ⟨front, rfl⟩ := suffix
  exact apart b next word a (List.mem_getLast?_append_of_mem_getLast? last)

theorem scan_blank_cons {c : Char} (blank : isBlankChar c = true) (text : List Char) :
    scan (c :: text) = scan text :=
  scan_congr (skipBlanks_blank blank text)

/-- A text without slashes keeps its tokens when more text follows that does not lengthen it. -/
theorem scan_append {text more : List Char} {tokens : List Token}
    (scanned : scan text = some tokens) (no_slash : '/' ∉ text) (apart : Apart text more) :
    scan (text ++ more) = (scan more).map (tokens ++ ·) := by
  -- A token leaves a shorter text but not a tail of known length, so the induction is on length.
  obtain ⟨length, same⟩ : ∃ length, text.length = length := ⟨_, rfl⟩
  induction length using Nat.strong_induction_on generalizing text tokens with
  | _ length ih =>
    subst same
    cases text with
    | nil =>
      obtain rfl := Option.some.inj scanned
      rw [List.nil_append]
      cases scan more <;> rfl
    | cons c tail =>
      have not_slash : c ≠ '/' := fun same => no_slash (List.mem_cons.2 (.inl same.symm))
      have no_slash_later : '/' ∉ tail := fun inside => no_slash (List.mem_cons_of_mem c inside)
      by_cases blank : isBlankChar c = true
      · rw [scan_blank_cons blank] at scanned
        rw [List.cons_append, scan_blank_cons blank]
        exact ih tail.length (Nat.lt_succ_self _) scanned no_slash_later
          (apart.of_suffix (List.suffix_cons c tail)) rfl
      · -- Without a slash no comment starts, so what follows the blanks is a token.
        have kept : skipBlanks (c :: tail) = c :: tail :=
          skipBlanks_cons (Bool.eq_false_iff.2 blank) not_slash tail
        rw [scan_cons kept] at scanned
        obtain ⟨⟨token, rest⟩, found, scanned⟩ := Option.bind_eq_some_iff.1 scanned
        dsimp only at scanned
        obtain ⟨later, scanned_rest, rfl⟩ := Option.map_eq_some_iff.1 scanned
        have first := (first?_eq_some_iff _ _ _).1 found
        rw [scan_of_first (first.append fun _ => apart),
          ih rest.length first.length_lt scanned_rest
            (fun inside => no_slash (first.suffix.mem inside)) (apart.of_suffix first.suffix) rfl]
        cases scan more <;> rfl

/-! ### Blanks around a text -/

theorem scan_blanks_append {blanks : List Char} (blank : ∀ c ∈ blanks, isBlankChar c = true)
    (text : List Char) : scan (blanks ++ text) = scan text := by
  induction blanks with
  | nil => rfl
  | cons c blanks ih =>
    obtain ⟨first, rest⟩ := List.forall_mem_cons.1 blank
    rw [List.cons_append, scan_blank_cons first, ih rest]

theorem apart_blanks {blanks : List Char} (blank : ∀ c ∈ blanks, isBlankChar c = true)
    (text : List Char) : Apart text blanks := by
  intro b next word
  have kind := blank b (List.mem_of_mem_head? next)
  simp [not_isBlankChar_of_isWordChar word] at kind

theorem cons_of_append_blanks {blanks : List Char} (blank : ∀ c ∈ blanks, isBlankChar c = true)
    {text more : List Char} {c : Char} (not_blank : isBlankChar c = false)
    (same : text ++ blanks = c :: more) : ∃ tail, text = c :: tail := by
  cases text with
  | nil =>
    have kind : isBlankChar c = true :=
      blank c (by rw [show blanks = c :: more from same]; exact List.mem_cons_self)
    simp [kind] at not_blank
  | cons d tail => exact ⟨tail, by rw [(List.cons.inj same).1]⟩

theorem First.of_append_blanks {blanks : List Char} (blank : ∀ c ∈ blanks, isBlankChar c = true)
    {c : Char} {tail rest : List Char} {token : Token}
    (first : First (c :: (tail ++ blanks)) token rest) :
    ∃ token rest, First (c :: tail) token rest := by
  generalize behind : tail ++ blanks = text at first
  cases first with
  | opcode => exact ⟨_, _, .opcode _⟩
  | arrow =>
    obtain ⟨tail, rfl⟩ := cons_of_append_blanks blank (by decide) behind
    exact ⟨_, _, .arrow _⟩
  | negative digit =>
    have not_blank := not_isBlankChar_of_isWordChar (isWordChar_of_isDigit digit)
    obtain ⟨tail, rfl⟩ := cons_of_append_blanks blank not_blank behind
    exact ⟨_, _, .negative digit _⟩
  | number digit => exact ⟨_, _, .number digit _⟩
  | ident start => exact ⟨_, _, .ident start _⟩
  | punct written => exact ⟨_, _, .punct written _⟩

theorem scan_append_blanks (text : List Char) {blanks : List Char}
    (blank : ∀ c ∈ blanks, isBlankChar c = true) : scan (text ++ blanks) = scan text := by
  obtain ⟨length, same⟩ : ∃ length, text.length = length := ⟨_, rfl⟩
  induction length using Nat.strong_induction_on generalizing text with
  | _ length ih =>
    subst same
    cases text with
    | nil =>
      have nothing := scan_blanks_append blank []
      rwa [List.append_nil] at nothing
    | cons c tail =>
      by_cases first_blank : isBlankChar c = true
      · rw [List.cons_append, scan_blank_cons first_blank, scan_blank_cons first_blank]
        exact ih tail.length (Nat.lt_succ_self _) tail rfl
      -- A comment takes the blanks behind it, and is the only thing that does.
      by_cases comment : ∃ rest, c :: tail = '/' :: '/' :: rest
      · obtain ⟨rest, slashes⟩ := comment
        rw [slashes, List.cons_append, List.cons_append, scan_of_nothing (skipBlanks_comment _),
          scan_of_nothing (skipBlanks_comment _)]
      have not_blank := Bool.eq_false_iff.2 first_blank
      have kept := skipBlanks_of_not_comment not_blank fun rest slashes => comment ⟨rest, slashes⟩
      have kept' : skipBlanks (c :: (tail ++ blanks)) = c :: (tail ++ blanks) := by
        refine skipBlanks_of_not_comment not_blank fun rest slashes => ?_
        obtain ⟨rfl, behind⟩ := List.cons.inj slashes
        obtain ⟨tail, rfl⟩ := cons_of_append_blanks blank (by decide) behind
        exact comment ⟨_, rfl⟩
      rw [List.cons_append]
      cases found : first? (c :: tail) with
      | some read =>
        have first := (first?_eq_some_iff _ _ _).1 found
        have longer := first.append fun _ => apart_blanks blank (c :: tail)
        rw [← List.cons_append, scan_of_first first, scan_of_first longer,
          ih _ first.length_lt _ rfl]
      | none =>
        -- A text that does not scan must not scan because of the blanks either.
        have absent : first? (c :: (tail ++ blanks)) = none := by
          refine Option.eq_none_iff_forall_not_mem.2 fun read found' => ?_
          have longer := (first?_eq_some_iff _ _ _).1 found'
          obtain ⟨token, rest, first⟩ := longer.of_append_blanks blank
          simp [(first?_eq_some_iff _ _ _).2 first] at found
        rw [scan_cons kept, scan_cons kept', found, absent]

end Token

end Lir
