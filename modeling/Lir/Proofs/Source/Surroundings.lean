import Lir.Proofs.Source.Scan
import Lir.Source.Line

/-!
What surrounds a line.

Blanks before and after a line and a comment at its end make no tokens and lengthen none, so a line
reads the same with them as without.
-/

set_option autoImplicit false

namespace Lir

namespace Token

theorem apart_comment (text comment : List Char) : Apart text ('/' :: '/' :: comment) := by
  intro b next word
  obtain rfl : '/' = b := Option.some.inj next
  exact absurd word (by decide)

theorem scan_append_comment {text : List Char} {tokens : List Token}
    (scanned : scan text = some tokens) (comment : List Char) :
    scan (text ++ '/' :: '/' :: comment) = some tokens := by
  obtain ⟨length, same⟩ : ∃ length, text.length = length := ⟨_, rfl⟩
  induction length using Nat.strong_induction_on generalizing text tokens with
  | _ length ih =>
    subst same
    cases text with
    | nil => exact (scan_of_nothing (skipBlanks_comment comment)).trans scanned
    | cons c tail =>
      by_cases blank : isBlankChar c = true
      · rw [scan_blank_cons blank] at scanned
        rw [List.cons_append, scan_blank_cons blank]
        exact ih tail.length (Nat.lt_succ_self _) scanned rfl
      -- A comment that the text has already takes the added one with it.
      by_cases has_comment : ∃ rest, c :: tail = '/' :: '/' :: rest
      · obtain ⟨rest, slashes⟩ := has_comment
        rw [slashes, scan_of_nothing (skipBlanks_comment _)] at scanned
        rw [slashes, List.cons_append, List.cons_append, scan_of_nothing (skipBlanks_comment _)]
        exact scanned
      have kept := skipBlanks_of_not_comment (Bool.eq_false_iff.2 blank)
        fun rest slashes => has_comment ⟨rest, slashes⟩
      rw [scan_cons kept] at scanned
      obtain ⟨⟨token, rest⟩, found, scanned⟩ := Option.bind_eq_some_iff.1 scanned
      dsimp only at scanned
      obtain ⟨later, scanned_rest, rfl⟩ := Option.map_eq_some_iff.1 scanned
      have first := (first?_eq_some_iff _ _ _).1 found
      rw [scan_of_first (first.append fun _ => apart_comment _ comment),
        ih rest.length first.length_lt scanned_rest rfl]
      rfl

end Token

namespace Line

theorem read_congr {text other : String}
    (same : Token.scan text.toList = Token.scan other.toList) : read text = read other := by
  rw [read, read, same]

theorem exists_scan_of_read {text : String} (reads : read text ≠ .error .malformed) :
    ∃ tokens, Token.scan text.toList = some tokens := by
  cases scanned : Token.scan text.toList with
  | some tokens => exact ⟨tokens, rfl⟩
  | none =>
    rw [read, scanned] at reads
    exact absurd rfl reads

/-- Spaces and tabs around a line and a comment behind it do not change what it reads as, be that a
line or a literal out of range. -/
theorem read_surrounded {text before after : String} (reads : read text ≠ .error .malformed)
    (before_blank : ∀ c ∈ before.toList, c = ' ' ∨ c = '\t')
    (after_blank : ∀ c ∈ after.toList, c = ' ' ∨ c = '\t') (comment : String) :
    read (before ++ text ++ after) = read text ∧
      read (before ++ text ++ after ++ "//" ++ comment) = read text := by
  have blank : ∀ c, c = ' ' ∨ c = '\t' → Token.isBlankChar c = true := by
    rintro c (rfl | rfl) <;> rfl
  obtain ⟨tokens, scanned⟩ := exists_scan_of_read reads
  have surrounded : Token.scan (before ++ text ++ after).toList = some tokens := by
    rw [String.toList_append, String.toList_append, List.append_assoc,
      Token.scan_blanks_append fun c member => blank c (before_blank c member),
      Token.scan_append_blanks _ fun c member => blank c (after_blank c member), scanned]
  constructor
  · exact read_congr (surrounded.trans scanned.symm)
  · apply read_congr
    rw [String.toList_append, String.toList_append, List.append_assoc, scanned]
    exact Token.scan_append_comment surrounded comment.toList

/-- The comment is not read even where it would end in a name that the line may take. -/
theorem read_surrounded_alloc :
    read "p = $alloc 2147483648" ≠ .error .malformed ∧
      (∀ c ∈ "\t ".toList, c = ' ' ∨ c = '\t') ∧ (∀ c ∈ " ".toList, c = ' ' ∨ c = '\t') ∧
      read ("\t " ++ "p = $alloc 2147483648" ++ " ") = .error (.integerOutOfRange "2147483648") ∧
      read ("\t " ++ "p = $alloc 2147483648" ++ " " ++ "//" ++ " [cell]") =
        .error (.integerOutOfRange "2147483648") := by
  have found : read "p = $alloc 2147483648" = .error (.integerOutOfRange "2147483648") := by
    decide +kernel
  have reads : read "p = $alloc 2147483648" ≠ .error .malformed := by
    rw [found]
    decide
  have tab_space : ∀ c ∈ "\t ".toList, c = ' ' ∨ c = '\t' := by simp
  have space : ∀ c ∈ " ".toList, c = ' ' ∨ c = '\t' := by simp
  obtain ⟨blanks, comment⟩ := read_surrounded reads tab_space space " [cell]"
  exact ⟨reads, tab_space, space, blanks.trans found, comment.trans found⟩

end Line

end Lir
