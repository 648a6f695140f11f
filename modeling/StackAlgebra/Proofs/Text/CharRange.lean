import StackAlgebra.Text.Blank
import StackAlgebra.Text.Word
import Mathlib.Data.List.Basic

/-!
# Classes of characters that are apart

Classes given by tables of ranges have no character in common if no range of one table meets one of
the other, which is decided on the tables (`CharRange.areApart`). So decimal digits of any script,
other figures and letters are no blanks, and letters are no digits of any kind.
-/

namespace StackAlgebra

variable {c : Char}

namespace CharRange

variable {s t : List (ℕ × ℕ)}

/-- No range of one table meets a range of the other. -/
def areApart (s t : List (ℕ × ℕ)) : Bool :=
  s.all fun a => t.all fun b => a.2 < b.1 || b.2 < a.1

/-- A character of the class lies in a range of the table. -/
theorem mem_iff : mem s c = true ↔ ∃ a ∈ s, a.1 ≤ c.toNat ∧ c.toNat ≤ a.2 := by
  simp [mem]

/-- A character lies in the first range of a table or in the others. -/
theorem mem_cons_iff {a : ℕ × ℕ} :
    mem (a :: s) c = true ↔ a.1 ≤ c.toNat ∧ c.toNat ≤ a.2 ∨ mem s c = true := by
  simp [mem]

/-- Tables without a range in common have no character in common. -/
theorem mem_eq_false_of_areApart (h : areApart s t = true) (hs : mem s c = true) :
    mem t c = false := by
  obtain ⟨a, ha, hlow, hhigh⟩ := mem_iff.mp hs
  rw [Bool.eq_false_iff]
  intro ht
  obtain ⟨b, hb, hlow', hhigh'⟩ := mem_iff.mp ht
  have hab := List.all_eq_true.mp (List.all_eq_true.mp h a ha) b hb
  simp only [Bool.or_eq_true, decide_eq_true_eq] at hab
  omega

end CharRange

/-! ## The classes as tables -/

/-- The ranges of the characters that trimming removes. -/
def blankRanges : List (ℕ × ℕ) :=
  (0x1C, 0x1F) :: spaceRanges

/-- The ranges of the decimal digits of all scripts. -/
def decimalRanges : List (ℕ × ℕ) :=
  decimalZeros.map fun first => (first, first + 9)

/-- The ranges of the word characters. -/
def allWordRanges : List (ℕ × ℕ) :=
  (0x30, 0x39) :: (0x41, 0x5A) :: (0x5F, 0x5F) :: (0x61, 0x7A) :: wordRanges

/-- Blanks lie in the ranges of blanks. -/
theorem isBlank_eq_mem : isBlank c = CharRange.mem blankRanges c := by
  rw [isBlank, isSpace, Bool.or_comm]
  simp [blankRanges, CharRange.mem]

/-- Decimal digits lie in the ranges of decimal digits. -/
theorem isDecimal_eq_mem : isDecimal c = CharRange.mem decimalRanges c := by
  rw [Bool.eq_iff_iff]
  simp [isDecimal, decimalValue?, decimalRanges, CharRange.mem]

/-- Word characters lie in the ranges of word characters. -/
theorem mem_of_isWord (h : isWord c = true) : CharRange.mem allWordRanges c = true := by
  have hval : c.toNat = c.val.toNat := rfl
  unfold isWord Char.isAlphanum Char.isAlpha Char.isUpper Char.isLower Char.isDigit at h
  simp only [Bool.or_eq_true, Bool.and_eq_true, decide_eq_true_eq, beq_iff_eq,
    UInt32.le_iff_toNat_le, ge_iff_le] at h
  simp only [allWordRanges, CharRange.mem_cons_iff]
  rcases h with (((⟨hlow, hhigh⟩ | ⟨hlow, hhigh⟩) | ⟨hlow, hhigh⟩) | rfl) | ⟨-, hmem⟩
  · exact .inr (.inl ⟨hlow, hhigh⟩)
  · exact .inr (.inr (.inr (.inl ⟨hlow, hhigh⟩)))
  · exact .inl ⟨hlow, hhigh⟩
  · exact .inr (.inr (.inl (by decide)))
  · exact .inr (.inr (.inr (.inr hmem)))

/-! ## Apart from each other -/

/-- A decimal digit is no blank. -/
theorem not_blank_of_isDecimal (h : isDecimal c = true) : isBlank c = false := by
  rw [isDecimal_eq_mem] at h
  rw [isBlank_eq_mem]
  exact CharRange.mem_eq_false_of_areApart (by decide +kernel) h

/-- A figure without a decimal value is no blank. -/
theorem not_blank_of_isFigure (h : CharRange.mem figureRanges c = true) : isBlank c = false := by
  rw [isBlank_eq_mem]
  exact CharRange.mem_eq_false_of_areApart (by decide +kernel) h

/-- A digit of any kind is no blank. -/
theorem not_blank_of_isDigitLike (h : isDigitLike c = true) : isBlank c = false := by
  rw [isDigitLike, Bool.or_eq_true] at h
  exact h.elim not_blank_of_isDecimal not_blank_of_isFigure

/-- A word character is no blank. -/
theorem not_blank_of_isWord (h : isWord c = true) : isBlank c = false := by
  rw [isBlank_eq_mem]
  exact CharRange.mem_eq_false_of_areApart (by decide +kernel) (mem_of_isWord h)

/-- A letter is no blank. -/
theorem not_blank_of_isLetter (h : isLetter c = true) : isBlank c = false := by
  simp only [isLetter, isNameStart, Bool.and_eq_true] at h
  exact not_blank_of_isWord h.1.1.1

/-- A letter is no digit of any kind. -/
theorem not_digitLike_of_isLetter (h : isLetter c = true) : isDigitLike c = false := by
  simp only [isLetter, isNameStart, Bool.and_eq_true, Bool.not_eq_true'] at h
  rw [isDigitLike, h.1.1.2, Bool.false_or]
  exact CharRange.mem_eq_false_of_areApart (by decide +kernel) (mem_of_isWord h.1.1.1)

end StackAlgebra
