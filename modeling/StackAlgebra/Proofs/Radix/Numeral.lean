import Mathlib.Data.Fin.Basic
import Mathlib.Data.List.TakeWhile
import Mathlib.Data.Set.List
import StackAlgebra.Proofs.Radix.Display
import StackAlgebra.Proofs.Text.CharRange

/-!
# Numerals

What `Radix.readNumeral` reads is a tree, with one kind of node for each part that the reader splits
a text into: digits around a point (`Positional`), a fraction of two such numbers (`Fraction`), an
exponent (`Exponent`), these together (`Unsigned`), the radix in front of them (`Label`), and the
whole with its signs and the blanks around it (`Numeral`). A tree is well formed by its type. It has
a text and a value, and reading the text gives the value, unless the divisor is zero
(`readNumeral_text`).

The reader splits from the outside in. Each split comes out where the parts of a tree meet because
no mark stands in a part that is split off before it: digits are no marks (`not_mem_textOf`), and a
mark of an exponent, a fraction bar and a point stand once at most.
-/

namespace StackAlgebra.Radix

variable {R S : Radix}

/-! ## Digits -/

/-- A character with a value is the digit of this value. -/
theorem eq_of_value? {c : Char} {d : ℕ} (h : Digit.value? c = some d) :
    d < 64 ∧ Digit.ofValue d = c := by
  rw [Digit.value?, List.idxOf?_eq_some_iff] at h
  obtain ⟨hlt, hget, -⟩ := h
  refine ⟨hlt, ?_⟩
  rw [Digit.ofValue, List.getD_eq_getElem?_getD, List.getElem?_eq_getElem hlt, hget,
    Option.getD_some]

/-- A character with a value in the radix is the digit of this value. -/
theorem eq_of_digitValue? {c : Char} {d : ℕ} (h : R.digitValue? c = some d) :
    d < R.val ∧ Digit.ofValue d = c := by
  rw [digitValue?, Option.filter_eq_some_iff, decide_eq_true_iff] at h
  exact ⟨h.2, (eq_of_value? h.1).2⟩

/-- The text of digits of the radix. -/
def textOf (ds : List (Fin R.val)) : List Char :=
  digitText (ds.map (·.val))

/-- The number that digits of the radix denote. -/
def numberOf (ds : List (Fin R.val)) : ℕ :=
  R.ofDigits (ds.map (·.val))

/-- The values of digits are below the radix. -/
theorem lt_of_mem_map_val (ds : List (Fin R.val)) : ∀ d ∈ ds.map (·.val), d < R.val := by
  simp

/-- Digits are given by their values. -/
theorem exists_map_val_eq {ds : List ℕ} (hds : ∀ d ∈ ds, d < R.val) :
    ∃ fs : List (Fin R.val), fs.map (·.val) = ds := by
  lift ds to List (Fin R.val) using hds
  exact ⟨ds, rfl⟩

/-- The digits of a number are digits of the radix, at least one. -/
theorem exists_digits (R : Radix) (n : ℕ) :
    ∃ ds : List (Fin R.val), ds ≠ [] ∧ ds.map (·.val) = R.digits n := by
  obtain ⟨ds, hds⟩ := exists_map_val_eq fun _ => lt_of_mem_digits (R := R) (n := n)
  refine ⟨ds, ?_, hds⟩
  rintro rfl
  exact R.digits_ne_nil n hds.symm

/-- Only no digits have no text. -/
theorem textOf_eq_nil_iff {ds : List (Fin R.val)} : textOf ds = [] ↔ ds = [] := by
  simp [textOf, digitText]

/-- What is no digit does not stand among digits. -/
theorem not_mem_textOf (ds : List (Fin R.val)) {c : Char} (hc : R.digitValue? c = none) :
    c ∉ textOf ds :=
  not_mem_digitText (lt_of_mem_map_val ds) hc

/-- No mark stands among digits. -/
theorem not_mem_textOf_of_mem_marks (ds : List (Fin R.val)) {c : Char} (hc : c ∈ marks) :
    c ∉ textOf ds :=
  not_mem_textOf ds (digitValue?_of_mem_marks hc)

/-- Digits are figures. -/
theorem isFigure_textOf (ds : List (Fin R.val)) : ∀ c ∈ textOf ds, R.IsFigure c :=
  isFigure_digitText (lt_of_mem_map_val ds)

/-- Digits are read as the number they denote. -/
theorem readNat_textOf (ds : List (Fin R.val)) : R.readNat (textOf ds) = .ok (numberOf ds) :=
  readNat_digitText (lt_of_mem_map_val ds)

/-! ## Positional notation -/

/-- Digits before a point and behind it, not both of them missing. The point itself may be missing
if nothing stands behind it. -/
structure Positional (R : Radix) where
  /-- The digits before the point. -/
  whole : List (Fin R.val)
  /-- The digits behind the point, if there is one. -/
  behind : Option (List (Fin R.val))
  ne_nil : whole ≠ [] ∨ behind.getD [] ≠ []

namespace Positional

/-- The text of a point and the digits behind it. -/
def textBehind : Option (List (Fin R.val)) → List Char
  | none => []
  | some es => '.' :: textOf es

/-- The digits with the point among them. -/
def text (n : Positional R) : List Char :=
  textOf n.whole ++ textBehind n.behind

/-- The number of digits behind the point. -/
def places (n : Positional R) : ℕ :=
  (n.behind.getD []).length

/-- The value of the digits by their places. -/
def value (n : Positional R) : ℚ :=
  numberOf n.whole + numberOf (n.behind.getD []) / (R.val : ℚ) ^ n.places

/-- A positional number is not empty. -/
theorem text_ne_nil (n : Positional R) : n.text ≠ [] := by
  obtain ⟨whole, _ | es, hne⟩ := n
  · simpa [text, textBehind, textOf_eq_nil_iff] using hne
  · simp [text, textBehind]

/-- There are digits, and perhaps a point. -/
theorem mem_text {n : Positional R} {c : Char} (h : c ∈ n.text) :
    c = '.' ∨ ∃ ds : List (Fin R.val), c ∈ textOf ds := by
  obtain ⟨whole, _ | es, hne⟩ := n
  · simp only [text, textBehind, List.append_nil] at h
    exact .inr ⟨whole, h⟩
  · simp only [text, textBehind, List.mem_append, List.mem_cons] at h
    rcases h with h | h | h
    · exact .inr ⟨whole, h⟩
    · exact .inl h
    · exact .inr ⟨es, h⟩

/-- A positional number consists of figures. -/
theorem isFigure_of_mem_text {n : Positional R} : ∀ c ∈ n.text, R.IsFigure c := by
  intro c hc
  rcases mem_text hc with rfl | ⟨ds, hds⟩
  · exact .inr (.inl rfl)
  · exact isFigure_textOf ds c hds

/-- There is no fraction bar in a positional number. -/
theorem bar_not_mem_text (n : Positional R) : '/' ∉ n.text := by
  intro h
  rcases mem_text h with h | ⟨ds, hds⟩
  · cases h
  · exact not_mem_textOf_of_mem_marks ds (by simp [marks]) hds

end Positional

/-- A positional number is read as its value. -/
theorem readPoint_text (n : Positional R) : R.readPoint n.text = .ok n.value := by
  obtain ⟨whole, _ | es, hne⟩ := n
  · have hread := readPoint_digitText (lt_of_mem_map_val whole) (by simpa using hne)
    simpa [Positional.text, Positional.textBehind, Positional.value, Positional.places, textOf,
      numberOf, ofDigits] using hread
  · have hread := readPoint_point (lt_of_mem_map_val whole) (lt_of_mem_map_val es)
      (by simpa [imp_iff_not_or] using hne)
    rw [List.length_map] at hread
    exact hread

/-! ## Fractions -/

/-- A positional number, or a fraction of two. -/
structure Fraction (R : Radix) where
  numerator : Positional R
  denominator : Option (Positional R)

namespace Fraction

/-- The text of a fraction bar and a denominator. -/
def textBelow : Option (Positional R) → List Char
  | none => []
  | some d => '/' :: d.text

/-- The numerator, and the denominator behind a bar. -/
def text (n : Fraction R) : List Char :=
  n.numerator.text ++ textBelow n.denominator

/-- What the numerator is divided by. -/
def divisor (n : Fraction R) : ℚ :=
  n.denominator.elim 1 Positional.value

/-- The quotient of numerator and denominator. -/
def value (n : Fraction R) : ℚ :=
  n.numerator.value / n.divisor

/-- A fraction is not empty. -/
theorem text_ne_nil (n : Fraction R) : n.text ≠ [] := by
  simp [text, n.numerator.text_ne_nil]

/-- A fraction consists of figures. -/
theorem isFigure_of_mem_text {n : Fraction R} : ∀ c ∈ n.text, R.IsFigure c := by
  intro c hc
  obtain ⟨numerator, denominator⟩ := n
  rcases List.mem_append.mp hc with hc | hc
  · exact Positional.isFigure_of_mem_text c hc
  · cases denominator with
    | none => cases hc
    | some d =>
      rcases List.mem_cons.mp hc with rfl | hc
      · exact .inr (.inr rfl)
      · exact Positional.isFigure_of_mem_text c hc

end Fraction

/-- A fraction is read as its value, unless the divisor is zero. -/
theorem readFraction_text (n : Fraction R) :
    R.readFraction n.text = if n.divisor = 0 then .error .divisionByZero else .ok n.value := by
  obtain ⟨numerator, _ | d⟩ := n
  · rw [Fraction.text, Fraction.textBelow, List.append_nil, readFraction,
      splitAt?_of_not_mem numerator.bar_not_mem_text]
    simp [readPoint_text, Fraction.divisor, Fraction.value]
  · rw [Fraction.text, Fraction.textBelow, readFraction,
      splitAt?_append _ numerator.bar_not_mem_text]
    simp only [readPoint_text, Fraction.divisor, Fraction.value, Option.elim_some]
    rfl

/-! ## Exponents -/

/-- A mark that introduces an exponent: the small capital always, the letter where it is no
digit. -/
def IsExponentMark (R : Radix) (c : Char) : Prop :=
  c = exponentMark ∨ c = 'e' ∧ letterMarksExponent R.val = true

/-- A mark and the digits of an exponent, with minus signs between them. -/
structure Exponent (R : Radix) where
  mark : Char
  isMark : R.IsExponentMark mark
  /-- How many minus signs stand in front of the digits. -/
  signs : ℕ
  digits : List (Fin R.val)
  ne_nil : digits ≠ []

namespace Exponent

/-- What stands behind the mark. -/
def tail (e : Exponent R) : List Char :=
  List.replicate e.signs '-' ++ textOf e.digits

/-- The mark and what stands behind it. -/
def text (e : Exponent R) : List Char :=
  e.mark :: e.tail

/-- The number that the digits denote. It is negative if there is a minus sign: the reader takes
several for one. -/
def value (e : Exponent R) : ℤ :=
  if e.signs = 0 then numberOf e.digits else -(numberOf e.digits : ℤ)

/-- Behind the mark stand minus signs and digits. -/
theorem mem_tail {e : Exponent R} {c : Char} (h : c ∈ e.tail) : c = '-' ∨ c ∈ textOf e.digits := by
  rcases List.mem_append.mp h with h | h
  · exact .inl (List.eq_of_mem_replicate h)
  · exact .inr h

end Exponent

/-- The digits of an exponent are read as its value. -/
theorem readExponent_tail (e : Exponent R) : R.readExponent e.tail = .ok e.value := by
  obtain ⟨mark, -, signs, digits, hne⟩ := e
  have hminus : ∀ c ∈ (textOf digits).head?, c ≠ '-' := by
    rintro c hc rfl
    exact not_mem_textOf_of_mem_marks digits (by simp [marks]) (List.mem_of_mem_head? hc)
  have hdrop : (List.replicate signs '-' ++ textOf digits).dropWhile (· = '-') = textOf digits := by
    rw [List.dropWhile_append_of_pos (by simp), dropWhile_of_head hminus]
  have htext : textOf digits ≠ [] := mt textOf_eq_nil_iff.mp hne
  unfold readExponent
  simp only [Exponent.tail, hdrop, htext, if_false, readNat_textOf]
  cases signs with
  | zero =>
    have hhead : (textOf digits).head? ≠ some '-' := fun h => hminus '-' h rfl
    simp only [List.replicate_zero, List.nil_append, hhead, if_false]
    rfl
  | succ signs =>
    simp only [List.replicate_succ, List.cons_append, List.head?_cons, if_true]
    rfl

/-! ## Unsigned numbers -/

/-- A fraction and perhaps an exponent. -/
structure Unsigned (R : Radix) where
  mantissa : Fraction R
  exponent : Option (Exponent R)

namespace Unsigned

/-- The fraction and the exponent behind it. -/
def text (n : Unsigned R) : List Char :=
  n.mantissa.text ++ n.exponent.elim [] Exponent.text

/-- The power of the radix that the fraction is multiplied with. -/
def power (n : Unsigned R) : ℤ :=
  n.exponent.elim 0 Exponent.value

/-- The fraction times the power of the radix. -/
def value (n : Unsigned R) : ℚ :=
  n.mantissa.value * (R.val : ℚ) ^ n.power

/-- An unsigned number is not empty. -/
theorem text_ne_nil (n : Unsigned R) : n.text ≠ [] := by
  simp [text, n.mantissa.text_ne_nil]

/-- There are figures, minus signs and marks of an exponent. -/
theorem mem_text {n : Unsigned R} {c : Char} (h : c ∈ n.text) :
    R.IsFigure c ∨ c = '-' ∨ R.IsExponentMark c := by
  obtain ⟨mantissa, exponent⟩ := n
  rcases List.mem_append.mp h with h | h
  · exact .inl (Fraction.isFigure_of_mem_text c h)
  · cases exponent with
    | none => cases h
    | some e =>
      rcases List.mem_cons.mp h with rfl | h
      · exact .inr (.inr e.isMark)
      · rcases Exponent.mem_tail h with rfl | h
        · exact .inr (.inl rfl)
        · exact .inl (isFigure_textOf _ c h)

/-- There are no blanks and no number sign in an unsigned number. -/
theorem not_blank_of_mem_text {n : Unsigned R} {c : Char} (h : c ∈ n.text) :
    isBlank c = false ∧ c ≠ '#' := by
  rcases mem_text h with h | rfl | rfl | ⟨rfl, -⟩
  · exact ⟨h.isUnmarked.blank, h.isUnmarked.radix⟩
  all_goals decide

/-- There is no sign in front of an unsigned number. -/
theorem head?_text {n : Unsigned R} : ∀ c ∈ n.text.head?, c ≠ '-' := by
  intro c hc
  rw [text, List.head?_append_of_ne_nil _ n.mantissa.text_ne_nil] at hc
  exact (Fraction.isFigure_of_mem_text c (List.mem_of_mem_head? hc)).isUnmarked.sign

end Unsigned

/-- The mark of an exponent does not stand in front of it or behind it. -/
theorem splitExponent_of_mark {before : List Char} (hbefore : ∀ c ∈ before, R.IsUnmarked c)
    (e : Exponent R) :
    R.splitExponent (before ++ e.text) = (before, some e.tail) := by
  have hcapital : exponentMark ∉ before := fun h => (hbefore _ h).exponent rfl
  unfold splitExponent
  rcases e.isMark with hmark | ⟨hmark, hletter⟩
  · rw [Exponent.text, hmark, splitAt?_append _ hcapital]
    split_ifs <;> rfl
  · have hnone : splitAt? exponentMark (before ++ e.text) = none := by
      refine splitAt?_of_not_mem fun h => ?_
      rcases List.mem_append.mp h with h | h
      · exact hcapital h
      · rw [Exponent.text, hmark] at h
        rcases List.mem_cons.mp h with h | h
        · exact absurd h (by decide)
        · rcases Exponent.mem_tail h with h | h
          · exact absurd h (by decide)
          · exact not_mem_textOf_of_mem_marks e.digits (by simp [marks]) h
    have hsplit : splitAt? 'e' (before ++ e.text) = some (before, e.tail) := by
      rw [Exponent.text, hmark]
      exact splitAt?_append _ fun h => (hbefore _ h).letter hletter rfl
    simp only [hnone, hletter, hsplit, if_true, Option.none_or]

/-- The exponent is split off. -/
theorem splitExponent_text (n : Unsigned R) :
    R.splitExponent n.text = (n.mantissa.text, n.exponent.map Exponent.tail) := by
  obtain ⟨mantissa, exponent⟩ := n
  have hunmarked : ∀ c ∈ mantissa.text, R.IsUnmarked c := fun c hc =>
    (Fraction.isFigure_of_mem_text c hc).isUnmarked
  cases exponent with
  | none =>
    rw [Unsigned.text, Option.elim_none, List.append_nil, splitExponent_of_isUnmarked hunmarked]
    rfl
  | some e => exact splitExponent_of_mark hunmarked e

/-- An unsigned number is read as its value, unless the divisor is zero. -/
theorem readUnsigned_text (n : Unsigned R) :
    R.readUnsigned n.text = if n.mantissa.divisor =
      0 then .error .divisionByZero else .ok n.value := by
  unfold readUnsigned
  rw [splitExponent_text]
  simp only [readFraction_text]
  obtain ⟨mantissa, exponent⟩ := n
  split_ifs with hdivisor
  · rfl
  · cases exponent with
    | none => simp [Unsigned.value, Unsigned.power, bind, Except.bind, pure, Except.pure]
    | some e =>
      simp only [Option.map_some, readExponent_tail]
      rfl

/-! ## The radix in front -/

/-- A radix in front of a number: its abbreviation, the digit that is the first one it does not
have, or its value in a decimal digit of another script. -/
inductive Label (S : Radix) where
  | name
  | digit (h : S.val < 64)
  | decimal (c : Char) (hother : Digit.value? c = none) (hvalue : decimalValue? c = some S.val)

/-- The text of a radix in front of a number. -/
def Label.text : Label S → List Char
  | .name => S.name.toList
  | .digit _ => [Digit.ofValue S.val]
  | .decimal c _ _ => [c]

/-- A digit of the alphabet is no blank and no minus. -/
theorem ofValue_not_blank {d : ℕ} (h : d < 64) :
    isBlank (Digit.ofValue d) = false ∧ Digit.ofValue d ≠ '-' := by
  have hblank : ∀ d < 64, isBlank (Digit.ofValue d) = false := by decide +kernel
  have hminus : ∀ d < 64, Digit.ofValue d ≠ '-' := by decide +kernel
  exact ⟨hblank d h, hminus d h⟩

/-- A radix in front of a number has no blanks, and does not begin with a minus. -/
theorem Label.not_blank (l : Label S) :
    (∀ c ∈ l.text, isBlank c = false) ∧ (∀ c ∈ l.text.head?, c ≠ '-') ∧ l.text ≠ [] := by
  cases l with
  | name =>
    obtain ⟨a, b, c, hname, hletters⟩ := S.exists_name_eq
    refine ⟨fun x hx => S.not_blank_of_mem_name hx, ?_, ?_⟩
    · simpa [Label.text, hname] using (hletters a (by simp)).2.2
    · simp [Label.text, hname]
  | digit h => simpa [Label.text] using ofValue_not_blank h
  | decimal c hother hvalue =>
    have hblank : isBlank c = false :=
      not_blank_of_isDecimal (by rw [isDecimal, hvalue, Option.isSome_some])
    have hminus : c ≠ '-' := by
      rintro rfl
      have hnone : decimalValue? '-' = none := by decide
      rw [hnone] at hvalue
      cases hvalue
    simpa [Label.text] using ⟨hblank, hminus⟩

/-- An abbreviation is no single character. -/
theorem ofName?_singleton (c : Char) : ofName? (String.ofList [c]) = none := by
  have hthree : ∀ s ∈ abbreviations, s.toList.length = 3 := by decide +kernel
  have hnot : String.ofList [c] ∉ abbreviations := fun h => by simpa using hthree _ h
  rw [ofName?, List.idxOf?_eq_none_iff.mpr hnot, Option.bind_none]

/-- A radix is read from one character that is no blank if it is a digit, first of the alphabet and
then of any script. -/
theorem read_singleton {c : Char} (hblank : isBlank c = false) :
    read [c] = match ofDigit? c with
      | some R => .ok R
      | none =>
        if isDigitLike c then
            readNumber [c] else .error (.badRadix (.text (String.ofList [c]))) := by
  have htrim : trim [c] = [c] := trim_of_forall (by simpa using hblank)
  unfold read
  simp only [htrim, ofName?_singleton]
  cases ofDigit? c with
  | some R => rfl
  | none => simp

/-- A decimal digit of a value is read as the radix of this value, if there is one. -/
theorem readNumber_singleton {c : Char} {v : ℕ} (h : decimalValue? c = some v) :
    readNumber [c] = match ofNat? v with
      | some R => .ok R
      | none => .error (.badRadix (.integer v)) := by
  have hread : readDecimal? [c] = some v := by simp [readDecimal?, h]
  rw [readNumber, hread]
  rfl

/-- There is a radix for its own value. -/
theorem ofNat?_val (S : Radix) : ofNat? S.val = some S := by
  rw [ofNat?, dif_pos ⟨S.two_le, S.le_max⟩]

/-- A radix in front of a number is read. -/
theorem read_text (l : Label S) : read l.text = .ok S := by
  cases l with
  | name => exact S.read_name
  | digit h =>
    have hdigit : ofDigit? (Digit.ofValue S.val) = some S := by
      rw [ofDigit?, value?_ofValue h, Option.bind_some, ofNat?_val]
    rw [Label.text, read_singleton (ofValue_not_blank h).1, hdigit]
  | decimal c hother hvalue =>
    have hdecimal : isDecimal c = true := by rw [isDecimal, hvalue, Option.isSome_some]
    have hdigit : ofDigit? c = none := by rw [ofDigit?, hother, Option.bind_none]
    rw [Label.text, read_singleton (not_blank_of_isDecimal hdecimal), hdigit]
    simp only [isDigitLike, hdecimal, Bool.true_or, if_true, readNumber_singleton hvalue,
      ofNat?_val]

/-- One character and a number sign are split off. -/
theorem splitRadix?_singleton (c : Char) (cs : List Char) :
    splitRadix? (c :: '#' :: cs) = some ([c], cs) := by
  have hmark : isLetter '#' = false := by decide
  unfold splitRadix?
  split
  · next hcs =>
    -- A number sign further on would make this one a letter of an abbreviation, which it is not.
    obtain ⟨-, rfl, -⟩ := by simpa using hcs
    rw [hmark, Bool.and_false, Bool.false_and, if_neg (by decide), splitShortRadix?]
  · rfl

/-- The radix in front of a number is split off. -/
theorem splitRadix?_text (l : Label S) (cs : List Char) :
    splitRadix? (l.text ++ '#' :: cs) = some (l.text, cs) := by
  cases l with
  | name => exact (S.splitRadix?_named cs).1
  | digit h => exact splitRadix?_singleton _ _
  | decimal c hother hvalue => exact splitRadix?_singleton _ _

/-! ## Numerals -/

/-- The text of a sign. -/
def signText (negative : Bool) : List Char :=
  if negative then ['-'] else []

/-- What stands behind the sign: an unsigned number in the radix of the reader, or a radix and a
number in it, which has a sign of its own. -/
inductive Body (R : Radix) where
  | plain (n : Unsigned R)
  | labelled {S : Radix} (l : Label S) (negative : Bool) (n : Unsigned S)

namespace Body

/-- The text behind the sign. -/
def text : Body R → List Char
  | plain n => n.text
  | labelled l negative n => l.text ++ '#' :: (signText negative ++ n.text)

/-- The sign behind the radix. -/
def isNegative : Body R → Bool
  | plain _ => false
  | labelled _ negative _ => negative

/-- The radix that the digits are read in. -/
def radix : Body R → Radix
  | plain _ => R
  | @labelled _ S _ _ _ => S

/-- The number in that radix. -/
def number : (b : Body R) → Unsigned b.radix
  | plain n => n
  | labelled _ _ n => n

end Body

/-- A number with its signs and the blanks around it. -/
structure Numeral (R : Radix) where
  before : List Char
  negative : Bool
  body : Body R
  after : List Char
  blank_before : ∀ c ∈ before, isBlank c = true
  blank_after : ∀ c ∈ after, isBlank c = true

namespace Numeral

/-- The whole text. -/
def text (n : Numeral R) : List Char :=
  n.before ++ (signText n.negative ++ n.body.text) ++ n.after

/-- The radix that the digits are read in: the one in front of the number, or else that of the
reader. -/
abbrev radix (n : Numeral R) : Radix :=
  n.body.radix

/-- The number without its signs. -/
abbrev number (n : Numeral R) : Unsigned n.radix :=
  n.body.number

/-- What the numerator is divided by. -/
def divisor (n : Numeral R) : ℚ :=
  n.number.mantissa.divisor

/-- There is one minus sign, before or behind the radix: two of them cancel. -/
def isNegative (n : Numeral R) : Bool :=
  n.negative != n.body.isNegative

/-- The value with its sign. -/
def value (n : Numeral R) : ℚ :=
  if n.isNegative then -n.number.value else n.number.value

end Numeral

/-- A sign is split off. -/
theorem splitSign_signText (negative : Bool) {cs : List Char} (h : ∀ c ∈ cs.head?, c ≠ '-') :
    splitSign (signText negative ++ cs) = (negative, cs) := by
  cases negative with
  | false => exact splitSign_of_head h
  | true => rfl

/-- A sign is no blank. -/
theorem not_blank_of_mem_signText {negative : Bool} {c : Char} (h : c ∈ signText negative) :
    isBlank c = false := by
  cases negative with
  | false => cases h
  | true =>
    rw [List.mem_singleton.mp h]
    decide

/-- A text that begins with something else than a blank begins with no blanks to drop. -/
theorem dropWhile_append_of_not_blank {cs : List Char} (hcs : ∀ c ∈ cs, isBlank c = false)
    (hne : cs ≠ []) (rest : List Char) : (cs ++ rest).dropWhile isBlank = cs ++ rest := by
  obtain ⟨c, cs, rfl⟩ := List.exists_cons_of_ne_nil hne
  rw [List.cons_append, List.dropWhile_cons_of_neg (by simp [hcs c List.mem_cons_self])]

/-- Blanks in front of a text are trimmed, and those at the end of what follows it. -/
theorem trim_append {before cs : List Char} (rest : List Char)
    (hbefore : ∀ c ∈ before, isBlank c = true) (hcs : ∀ c ∈ cs, isBlank c = false) (hne : cs ≠ []) :
    trim (before ++ cs ++ rest) = cs ++ (rest.reverse.dropWhile isBlank).reverse := by
  have hreverse : cs.reverse.dropWhile isBlank = cs.reverse := by
    have h : (cs.reverse ++ []).dropWhile isBlank = cs.reverse ++ [] :=
      dropWhile_append_of_not_blank (by simpa using hcs) (by simpa using hne) []
    rwa [List.append_nil] at h
  rw [trim, trimOff, List.append_assoc, List.dropWhile_append_of_pos hbefore,
    dropWhile_append_of_not_blank hcs hne, List.reverse_append, List.dropWhile_append, hreverse]
  split_ifs with hrest
  · rw [List.isEmpty_iff.mp hrest, List.reverse_reverse, List.reverse_nil, List.append_nil]
  · rw [List.reverse_append, List.reverse_reverse]

/-- Blanks around a text are trimmed. -/
theorem trim_between {before cs after : List Char} (hbefore : ∀ c ∈ before, isBlank c = true)
    (hcs : ∀ c ∈ cs, isBlank c = false) (hne : cs ≠ []) (hafter : ∀ c ∈ after, isBlank c = true) :
    trim (before ++ cs ++ after) = cs := by
  have hdrop : after.reverse.dropWhile isBlank = [] :=
    List.dropWhile_eq_nil_iff.mpr (by simpa using hafter)
  rw [trim_append after hbefore hcs hne, hdrop, List.reverse_nil, List.append_nil]

/-- Behind the sign stand no blanks and no further sign, but something. -/
theorem Body.not_blank (b : Body R) :
    (∀ c ∈ b.text, isBlank c = false) ∧ (∀ c ∈ b.text.head?, c ≠ '-') ∧ b.text ≠ [] := by
  cases b with
  | plain n =>
    exact ⟨fun c hc => (Unsigned.not_blank_of_mem_text hc).1, Unsigned.head?_text, n.text_ne_nil⟩
  | labelled l negative n =>
    obtain ⟨hblank, hhead, hne⟩ := l.not_blank
    refine ⟨fun c hc => ?_, ?_, by simp [Body.text]⟩
    · rw [Body.text, List.mem_append, List.mem_cons, List.mem_append] at hc
      rcases hc with hc | rfl | hc | hc
      · exact hblank c hc
      · decide
      · exact not_blank_of_mem_signText hc
      · exact (Unsigned.not_blank_of_mem_text hc).1
    · rwa [Body.text, List.head?_append_of_ne_nil _ hne]

/-- The sign of a numeral and what stands behind it, without the blanks. -/
theorem splitSign_trim_text (n : Numeral R) :
    splitSign (trim n.text) = (n.negative, n.body.text) := by
  obtain ⟨hblank, hhead, hne⟩ := n.body.not_blank
  rw [Numeral.text, trim_between n.blank_before ?_ (by simp [hne]) n.blank_after,
    splitSign_signText _ hhead]
  intro c hc
  exact (List.mem_append.mp hc).elim not_blank_of_mem_signText (hblank c)

/-- A number without a radix in front has no number sign to split it at. -/
theorem splitRadix?_plain (n : Unsigned R) : splitRadix? n.text = none :=
  splitRadix?_of_not_mem fun h => (Unsigned.not_blank_of_mem_text h).2 rfl

/-- A numeral is read as its value, unless its divisor is zero. -/
theorem readNumeral_text (n : Numeral R) :
    R.readNumeral n.text = if n.divisor = 0 then .error .divisionByZero else .ok n.value := by
  unfold readNumeral
  rw [splitSign_trim_text]
  obtain ⟨before, negative, body, after, hbefore, hafter⟩ := n
  simp only [if_neg body.not_blank.2.2]
  -- Only the number can fail to have a value: the signs and the radix are split off as they stand
  -- in the tree.
  cases body with
  | plain n =>
    simp only [Body.text, splitRadix?_plain, readUnsigned_text]
    by_cases hdivisor : n.mantissa.divisor = 0
    · rw [if_pos hdivisor]
      exact (if_pos hdivisor).symm
    · rw [if_neg hdivisor]
      refine Eq.trans ?_ (if_neg hdivisor).symm
      cases negative <;> rfl
  | labelled l negativeBody n =>
    simp only [Body.text, splitRadix?_text, read_text, bind, Except.bind,
      splitSign_signText negativeBody Unsigned.head?_text, if_neg n.text_ne_nil, readUnsigned_text]
    by_cases hdivisor : n.mantissa.divisor = 0
    · rw [if_pos hdivisor]
      exact (if_pos hdivisor).symm
    · rw [if_neg hdivisor]
      refine Eq.trans ?_ (if_neg hdivisor).symm
      cases negative <;> cases negativeBody <;> rfl

/-- A number with a sign is read. -/
theorem readNumeral_signText (negative : Bool) (n : Unsigned R) :
    R.readNumeral (signText negative ++ n.text) =
      if n.mantissa.divisor =
        0 then .error .divisionByZero else .ok (if negative then -n.value else n.value) := by
  have hread := readNumeral_text (R := R) ⟨[], negative, .plain n, [], by simp, by simp⟩
  rw [Numeral.text, List.append_nil, List.nil_append, Numeral.value, Numeral.isNegative,
    Body.isNegative, Bool.bne_false] at hread
  exact hread

/-- A numeral, with its minus signs, its radix in front and its exponent as they may be, is read as
the quotient of its positional numbers times a power of the radix, all digits being read in the
radix in front if there is one and two minus signs cancelling. It fails exactly where the
denominator is zero. -/
theorem readNumeral_eq_signed_quotient (n : Numeral R) :
    R.readNumeral n.text =
      if n.divisor = 0 then .error .divisionByZero
      else .ok ((if n.isNegative then -1 else 1) * (n.number.mantissa.numerator.value / n.divisor) *
        (n.radix.val : ℚ) ^ n.number.power) := by
  have hvalue : n.value =
      (if n.isNegative then -1 else 1) * (n.number.mantissa.numerator.value / n.divisor) *
      (n.radix.val : ℚ) ^ n.number.power := by
    rw [Numeral.value, Unsigned.value, Fraction.value, Numeral.divisor]
    split_ifs
    · ring
    · rw [one_mul]
  rw [readNumeral_text, hvalue]

/-- The digits are read in the radix in front, which is hexadecimal here, and two minus signs
cancel. -/
example : (decimal.readNumeral " -g#-f.8/2ᴇ-1 ".toList).toOption = some (31 / 64) := by
  decide +kernel

end StackAlgebra.Radix
