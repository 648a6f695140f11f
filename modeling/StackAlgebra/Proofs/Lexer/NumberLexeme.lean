import StackAlgebra.Proofs.Lexer.DisplayedNumber
import StackAlgebra.Proofs.Radix.Numeral

/-!
# Lexed numbers are numbers

What the lexer takes for a number and what the reader of numerals accepts are described apart, as a
pattern and by splitting at marks. Both come down to the same trees: each text that the pattern of a
number without a radix takes is that of an unsigned number (`takes_plain`), put together as the
pattern is. So each such lexeme is read as its value and is pushed as this number, unless its
denominator is zero (`readNumeral_of_mem_lex`).
-/

namespace StackAlgebra

variable {R : Radix} {cs rest : List Char} {s : String}

namespace Lexer

open Pattern Radix

/-! ## What the number pattern takes -/

/-- Characters that are digits of the radix are a text of digits. -/
theorem exists_textOf_eq (cs : List {c // R.isDigit c = true}) :
    ∃ ds : List (Fin R.val), textOf ds = cs.map (·.val) := by
  induction cs with
  | nil => exact ⟨[], rfl⟩
  | cons c cs ih =>
    obtain ⟨ds, hds⟩ := ih
    obtain ⟨d, hd⟩ := Option.isSome_iff_exists.mp c.property
    obtain ⟨hlt, hvalue⟩ := eq_of_digitValue? hd
    refine ⟨⟨d, hlt⟩ :: ds, ?_⟩
    rw [List.map_cons, ← hds, ← hvalue]
    rfl

/-- Digits are taken. -/
theorem takes_digits : Takes (many R.isDigit) (textOf : List (Fin R.val) → List Char) :=
  (takes_many _).of_exists exists_textOf_eq

/-- Digits are taken, at least one. -/
theorem takes_digits1 :
    Takes (many1 R.isDigit) fun ds : {ds : List (Fin R.val) // ds ≠ []} => textOf ds.val := by
  refine (takes_many1 _).of_exists fun cs => ?_
  obtain ⟨ds, hds⟩ := exists_textOf_eq cs.val
  refine ⟨⟨ds, ?_⟩, hds⟩
  rintro rfl
  exact cs.property (List.map_eq_nil_iff.mp hds.symm)

/-- A point and the digits behind it are taken, or neither. -/
theorem takes_behind :
    Takes (opt (seq [char '.', many R.isDigit]))
    (Positional.textBehind : Option (List (Fin R.val)) → List Char) := by
  refine ((takes_char '.').andThen (takes_digits.andThen takes_empty)).opt.of_exists fun x => ?_
  cases x with
  | none => exact ⟨none, rfl⟩
  | some x => exact ⟨some x.2.1, by simp [Positional.textBehind]⟩

/-- A number that begins with a digit is taken. -/
theorem takes_whole :
    Takes (seq [many1 R.isDigit, opt (seq [char '.', many R.isDigit])])
      (Positional.text (R := R)) := by
  refine (takes_digits1.andThen (takes_behind.andThen takes_empty)).of_exists fun x => ?_
  exact ⟨⟨x.1.val, x.2.1, .inl x.1.property⟩, by simp [Positional.text]⟩

/-- A number that begins with a point is taken. -/
theorem takes_point : Takes (seq [char '.', many1 R.isDigit]) (Positional.text (R := R)) := by
  refine ((takes_char '.').andThen (takes_digits1.andThen takes_empty)).of_exists fun x => ?_
  exact ⟨⟨[], some x.2.1.val, .inr x.2.1.property⟩, by simp [Positional.text,
    Positional.textBehind, textOf, digitText]⟩

/-- A fraction bar and a denominator are taken, or neither. -/
theorem takes_below :
    Takes (opt (seq [char '/', many1 R.isDigit, opt (seq [char '.', many R.isDigit])]))
      (Fraction.textBelow (R := R)) := by
  refine ((takes_char '/').andThen takes_whole).opt.of_exists fun x => ?_
  cases x with
  | none => exact ⟨none, rfl⟩
  | some x => exact ⟨some x.2, rfl⟩

/-- The lexer and the reader know the same marks of an exponent. -/
theorem isExponentMark_iff {c : Char} : isExponentMark R c = true ↔ R.IsExponentMark c := by
  simp [isExponentMark, IsExponentMark]

/-- An exponent is taken, or none, with one minus sign at most. -/
theorem takes_exponent :
    Takes (opt (seq [one (isExponentMark R), opt (char '-'), many1 R.isDigit]))
      fun e : Option (Exponent R) => e.elim [] Exponent.text := by
  refine ((takes_one _).andThen
    ((takes_char '-').opt.andThen (takes_digits1.andThen takes_empty))).opt.of_exists fun x => ?_
  cases x with
  | none => exact ⟨none, rfl⟩
  | some x =>
    obtain ⟨⟨mark, hmark⟩, sign, ⟨ds, hne⟩, -⟩ := x
    refine ⟨some ⟨mark, isExponentMark_iff.mp hmark, sign.elim 0 fun _ => 1, ds, hne⟩, ?_⟩
    cases sign <;> simp [Exponent.text, Exponent.tail]

/-- An unsigned number is taken. -/
theorem takes_plain : Takes (plain R) (Unsigned.text (R := R)) := by
  have hparts := (Takes.orElse (takes_whole (R := R)) takes_point).andThen
    ((takes_below (R := R)).andThen ((takes_exponent (R := R)).andThen takes_empty))
  refine Takes.of_exists hparts fun x => ?_
  exact ⟨⟨⟨x.1, x.2.1⟩, x.2.2.1⟩, by simp [Unsigned.text, Fraction.text]⟩

/-- A number is taken that has a radix in front, or an unsigned number. -/
theorem exists_unsigned_of_first? (h : (number R).first? cs = some rest) :
    (∃ chosen body, cs = (chosen ++ '#' :: body) ++ rest) ∨ ∃ n : Unsigned R,
      cs = n.text ++ rest := by
  have hrest : rest ∈ orElse prefixed (plain R) cs :=
    (List.mem_filter.mp (List.mem_of_mem_head? h)).1
  rcases List.mem_append.mp hrest with hrest | hrest
  · obtain ⟨x, hx⟩ := takes_prefixed cs rest hrest
    exact .inl ⟨x.1, x.2, hx⟩
  · exact .inr (takes_plain cs rest hrest)

/-! ## Lexemes of a line -/

/-- A lexeme of a line is the first one of what is left of the line where it stands. -/
theorem exists_next?_of_mem {l : Lexeme} (h : l ∈ (lexChars R cs).1) :
    ∃ cs rest, next? R cs = some (l, rest) := by
  induction cs using lexChars.induct R with
  | case1 cs hempty =>
    rw [lexChars, if_pos hempty] at h
    cases h
  | case2 cs hne hnone =>
    rw [lexChars, if_neg hne] at h
    split at h
    · cases h
    · next hsome =>
      rw [hnone] at hsome
      cases hsome
  | case3 cs hne first rest hnext _ _ _ ih =>
    rw [lexChars_of_next? (by simpa using hne) hnext] at h
    rcases List.mem_cons.mp h with rfl | h
    · exact ⟨cs, rest, hnext⟩
    · exact ih h

/-- What a lexeme takes is what stands in front of the rest. -/
theorem taken_append (text rest : List Char) : taken (text ++ rest) rest = String.ofList text := by
  rw [taken, List.length_append, Nat.add_sub_cancel, List.take_left]

/-- A lexeme of one of the kinds is what is left of the text in front of the rest. -/
theorem eq_of_lexeme? {make : String → Lexeme} {rest? : Option (List Char)} {l : Lexeme}
    (h : lexeme? make cs rest? = some (l, rest)) :
    rest? = some rest ∧ l = make (taken cs rest) := by
  obtain ⟨r, hr, heq⟩ := Option.map_eq_some_iff.mp h
  cases heq
  exact ⟨hr, rfl⟩

/-- The kinds of lexemes are tried in turn, a name only where there is no number. -/
theorem next?_cases {l : Lexeme} (h : next? R cs = some (l, rest)) :
    (word? cs = some rest ∧ l = .name (taken cs rest)) ∨
      ((number R).first? cs = some rest ∧ l = .number (taken cs rest)) ∨
      (∃ inner, quoted? cs = some (inner, rest) ∧
        l = .quoted (taken cs rest) (String.ofList inner)) ∨
      ((number R).first? cs = none ∧ name.first? cs = some rest ∧ l = .name (taken cs rest)) ∨
      (symbol? cs = some rest ∧ l = .operator (taken cs rest)) ∨
      (spaces.first? cs = some rest ∧ l = .space (taken cs rest)) := by
  unfold next? at h
  rcases Option.or_eq_some_iff.mp h with h | ⟨-, h⟩
  · exact .inl (eq_of_lexeme? h)
  rcases Option.or_eq_some_iff.mp h with h | ⟨hnumber, h⟩
  · exact .inr (.inl (eq_of_lexeme? h))
  rcases Option.or_eq_some_iff.mp h with h | ⟨-, h⟩
  · obtain ⟨⟨inner, r⟩, hquoted, heq⟩ := Option.map_eq_some_iff.mp h
    cases heq
    exact .inr (.inr (.inl ⟨inner, hquoted, rfl⟩))
  rcases Option.or_eq_some_iff.mp h with h | ⟨-, h⟩
  · exact .inr (.inr (.inr (.inl ⟨Option.map_eq_none_iff.mp hnumber, eq_of_lexeme? h⟩)))
  rcases Option.or_eq_some_iff.mp h with h | ⟨-, h⟩
  · exact .inr (.inr (.inr (.inr (.inl (eq_of_lexeme? h)))))
  · exact .inr (.inr (.inr (.inr (.inr (eq_of_lexeme? h)))))

/-- A number is a lexeme where the number pattern fits. -/
theorem first?_of_next?_eq_number (h : next? R cs = some (.number s, rest)) :
    (number R).first? cs = some rest ∧ s = taken cs rest := by
  rcases next?_cases h with ⟨-, h⟩ | ⟨hnumber, h⟩ | ⟨_, -, h⟩ | ⟨-, -, h⟩ | ⟨-, h⟩ | ⟨-, h⟩ <;>
    cases h
  exact ⟨hnumber, rfl⟩

/-- A number lexeme without a number sign is the text of an unsigned number. -/
theorem exists_unsigned_of_mem_lex {line : String} (h : .number s ∈ (lex R line).1)
    (hmark : '#' ∉ s.toList) :
    ∃ n : Unsigned R, n.text = s.toList := by
  obtain ⟨cs, rest, hnext⟩ := exists_next?_of_mem h
  obtain ⟨hfirst, rfl⟩ := first?_of_next?_eq_number hnext
  rcases exists_unsigned_of_first? hfirst with ⟨chosen, body, rfl⟩ | ⟨n, rfl⟩
  · rw [taken_append, String.toList_ofList] at hmark
    exact absurd (by simp) hmark
  · exact ⟨n, by rw [taken_append, String.toList_ofList]⟩

end Lexer

/-! ## Entering a number -/

open Lexer Radix

/-- An unsigned number is read. -/
theorem Radix.readNumeral_unsigned (n : Unsigned R) :
    R.readNumeral n.text = if n.mantissa.divisor = 0 then .error .divisionByZero else .ok n.value :=
  readNumeral_signText false n

/-- An unsigned number is read as input, also where it looks like a name, and it names no radix. -/
theorem Input.read_unsigned (n : Unsigned R) :
    Input.read R n.text = if n.mantissa.divisor =
      0 then .error .divisionByZero else .ok (.num n.value, none) := by
  have hmark : '#' ∉ n.text.dropWhile (· = '-') := fun h =>
    (Unsigned.not_blank_of_mem_text ((List.dropWhile_sublist _).subset h)).2 rfl
  have hchosen : Input.chosenRadix n.text = .ok none := by
    rw [Input.chosenRadix, splitRadix?_of_not_mem hmark]
  have hread := readNumeral_unsigned n
  split_ifs at hread ⊢
  · -- A division by zero is no bad input, so that no name is tried instead.
    unfold Input.read
    rw [hread]
    split <;> rfl
  · exact Input.read_of_readNumeral hread hchosen

/-- An unsigned number is pushed as its value, without a radix of its own. -/
theorem Calculator.perform_pushInput_unsigned (m : Calculator) (n : Unsigned m.config.radix) :
    m.perform (.pushInput (String.ofList n.text) .absent) =
      if n.mantissa.divisor = 0 then .error .divisionByZero
      else .ok (m.pushEntry { expr := .num n.value, approx := false, radix := none }) := by
  have htrim : trim n.text = n.text :=
    trim_of_forall fun c hc => (Unsigned.not_blank_of_mem_text hc).1
  rw [perform, pushInput, Input.readText_absent m.config htrim n.text_ne_nil, Input.read_unsigned]
  split_ifs <;> rfl

/-- A number lexeme of a line, without a number sign in it, is the text of an unsigned number in the
radix of the lexer. Unless the divisor of this number is zero, the lexeme is read as its value, and
a calculator with the radix pushes that value as a number with no radix of its own. If it is zero,
both fail for this reason. -/
theorem readNumeral_of_mem_lex {line : String} (h : .number s ∈ (lex R line).1)
    (hmark : '#' ∉ s.toList) :
    ∃ n : Unsigned R, n.text = s.toList ∧
      (n.mantissa.divisor ≠ 0 → R.readNumeral s.toList = .ok n.value ∧
        ∀ m : Calculator, m.config.radix = R → m.feedAll none [.number s] =
          { calculator := m.commit
              (m.stack ++ [{ expr := .num n.value, approx := false, radix := none }])
              m.selection }) ∧
      (n.mantissa.divisor = 0 → R.readNumeral s.toList = .error .divisionByZero ∧
        ∀ m : Calculator, m.config.radix = R → m.feedAll none [.number s] =
          { calculator := m, error? := some .divisionByZero }) := by
  obtain ⟨n, hn⟩ := exists_unsigned_of_mem_lex h hmark
  obtain rfl : String.ofList n.text = s := by rw [hn, String.ofList_toList]
  have hread := readNumeral_unsigned n
  rw [String.toList_ofList]
  refine ⟨n, rfl, fun hdivisor => ?_, fun hdivisor => ?_⟩
  · rw [if_neg hdivisor] at hread
    refine ⟨hread, ?_⟩
    rintro m rfl
    simp only [Calculator.feedAll, Calculator.actionOf?, m.perform_pushInput_unsigned,
      if_neg hdivisor]
    rfl
  · rw [if_pos hdivisor] at hread
    refine ⟨hread, ?_⟩
    rintro m rfl
    simp only [Calculator.feedAll, Calculator.actionOf?, m.perform_pushInput_unsigned,
      if_pos hdivisor]

/-- In duodecimal `abe1` looks like a name, but it is lexed into a number: eleven dozen less one,
times a dozen. -/
theorem readNumeral_of_mem_lex_duodecimal :
    .number "abe1" ∈ (lex ⟨12, by decide, by decide⟩ "x abe1").1 ∧ '#' ∉ "abe1".toList ∧
      Radix.readNumeral ⟨12, by decide, by decide⟩ "abe1".toList = .ok 1572 ∧
      ∀ m : Calculator, m.config.radix = ⟨12, by decide, by decide⟩ →
      m.feedAll none [.number "abe1"] =
        { calculator := m.commit
            (m.stack ++ [{ expr := .num 1572, approx := false, radix := none }]) m.selection } := by
  have hname : next? ⟨12, by decide, by decide⟩ "x abe1".toList =
      some (.name "x", " abe1".toList) := by
    decide +kernel
  have hspace : next? ⟨12, by decide, by decide⟩ " abe1".toList =
      some (.space " ", "abe1".toList) := by
    decide +kernel
  have hnumber : next? ⟨12, by decide, by decide⟩ "abe1".toList = some (.number "abe1", []) := by
    decide +kernel
  have hmem : .number "abe1" ∈ (lex ⟨12, by decide, by decide⟩ "x abe1").1 := by
    rw [lex, lexChars_of_next? (by decide) hname, lexChars_of_next? (by decide) hspace,
      lexChars_of_next? (by decide) hnumber]
    simp
  have hmark : '#' ∉ "abe1".toList := by decide
  have hvalue : (Radix.readNumeral ⟨12, by decide, by decide⟩ "abe1".toList).toOption =
      some 1572 := by
    decide +kernel
  obtain ⟨n, -, hnonzero, hzero⟩ := readNumeral_of_mem_lex hmem hmark
  have hdivisor : n.mantissa.divisor ≠ 0 := fun hdivisor => by
    rw [(hzero hdivisor).1] at hvalue
    cases hvalue
  obtain ⟨hread, hfeed⟩ := hnonzero hdivisor
  rw [hread] at hvalue
  rw [Option.some.inj hvalue] at hread hfeed
  exact ⟨hmem, hmark, hread, hfeed⟩

end StackAlgebra
