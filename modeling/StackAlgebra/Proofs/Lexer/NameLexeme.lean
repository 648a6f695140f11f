import StackAlgebra.Proofs.Lexer.NumberLexeme
import StackAlgebra.Proofs.Radix.Refusal

/-!
# Names that are numbers

A name that is no operator or command word is pushed as a constant or a variable, but one that can
be read as a number of the radix is pushed as this number: the text of a lexeme is read again,
without what follows it in the line. The lexer takes such a text for a number where it can, which is
wherever no word character, point or number sign follows. So a name lexeme is a number exactly if it
is the text of one, and then it was cut off in front of a point or a number sign
(`feedAll_of_lex_name`).
-/

namespace StackAlgebra

variable {R : Radix} {c : Char} {cs rest : List Char} {s : String}

namespace Lexer

open Pattern Radix

/-! ## What the number pattern can take -/

/-- A text of digits consists of characters that are digits of the radix. -/
theorem exists_map_val_eq_textOf (ds : List (Fin R.val)) :
    ∃ cs : List {c // R.isDigit c = true}, cs.map (·.val) = textOf ds := by
  lift textOf ds to List {c // R.isDigit c = true} using
    isDigit_of_mem_digitText (lt_of_mem_map_val ds) with cs
  exact ⟨cs, rfl⟩

/-- Digits can be taken. -/
theorem admits_digits : Admits (many R.isDigit) (textOf : List (Fin R.val) → List Char) :=
  (admits_many _).of_exists exists_map_val_eq_textOf

/-- Digits can be taken, if there are any. -/
theorem admits_digits1 :
    Admits (many1 R.isDigit) fun ds : {ds : List (Fin R.val) // ds ≠ []} => textOf ds.val := by
  refine (admits_many1 _).of_exists fun ds => ?_
  obtain ⟨cs, hcs⟩ := exists_map_val_eq_textOf ds.val
  refine ⟨⟨cs, ?_⟩, hcs⟩
  rintro rfl
  exact ds.property (textOf_eq_nil_iff.mp hcs.symm)

/-- A point and the digits behind it can be taken, or left out. -/
theorem admits_behind :
    Admits (opt (seq [char '.', many R.isDigit]))
    (Positional.textBehind : Option (List (Fin R.val)) → List Char) := by
  refine ((admits_char '.').andThen (admits_digits.andThen admits_empty)).opt.of_exists
    fun behind => ?_
  cases behind with
  | none => exact ⟨none, rfl⟩
  | some es => exact ⟨some ((), es, ()), by simp [Positional.textBehind]⟩

/-- A positional number can be taken. -/
theorem admits_positional :
    Admits (orElse (seq [many1 R.isDigit, opt (seq [char '.', many R.isDigit])])
      (seq [char '.', many1 R.isDigit])) (Positional.text (R := R)) := by
  have hdigits := (admits_digits1 (R := R)).andThen ((admits_behind (R := R)).andThen admits_empty)
  have hpoint := (admits_char '.').andThen ((admits_digits1 (R := R)).andThen admits_empty)
  refine (hdigits.orElse hpoint).of_exists fun n => ?_
  obtain ⟨whole, behind, hne⟩ := n
  by_cases hwhole : whole = []
  · -- Without digits in front of the point there are some behind it.
    subst hwhole
    obtain ⟨es, rfl, hes⟩ : ∃ es, behind = some es ∧ es ≠ [] := by
      cases behind with
      | none => simp at hne
      | some es => exact ⟨es, rfl, hne.resolve_left (by simp)⟩
    exact ⟨.inr ((), ⟨es, hes⟩, ()), by simp [Positional.text,
      Positional.textBehind, textOf, digitText]⟩
  · exact ⟨.inl (⟨whole, hwhole⟩, behind, ()), by simp [Positional.text]⟩

/-- An exponent can be taken that has one minus sign at most, or none. -/
theorem admits_exponent :
    Admits (opt (seq [one (isExponentMark R), opt (char '-'), many1 R.isDigit]))
      fun e : {e : Option (Exponent R) // ∀ x ∈ e, x.signs ≤ 1} => e.val.elim [] Exponent.text := by
  refine ((admits_one _).andThen
    ((admits_char '-').opt.andThen (admits_digits1.andThen admits_empty))).opt.of_exists fun e => ?_
  obtain ⟨_ | ⟨mark, hmark, signs, ds, hne⟩, hsigns⟩ := e
  · exact ⟨none, rfl⟩
  · have hsigns : signs ≤ 1 := hsigns _ rfl
    refine ⟨some (⟨mark, isExponentMark_iff.mpr hmark⟩,
        if signs = 0 then none else some (), ⟨ds, hne⟩, ()), ?_⟩
    rcases Nat.le_one_iff_eq_zero_or_eq_one.mp hsigns with rfl | rfl <;> simp [Exponent.text,
      Exponent.tail]

/-- An unsigned number without a fraction bar can be taken that has one minus sign at most in its
exponent. -/
theorem admits_plain :
    Admits (plain R) fun n : {n : Unsigned R // n.mantissa.denominator = none ∧ n.IsProper} =>
      n.val.text := by
  have hbelow : Admits (opt (seq [char '/', many1 R.isDigit, opt (seq [char '.', many R.isDigit])]))
      fun _ : Unit => [] := admits_empty.orElse_right _
  have hparts := (admits_positional (R := R)).andThen
    (hbelow.andThen ((admits_exponent (R := R)).andThen admits_empty))
  refine hparts.of_exists fun n => ?_
  obtain ⟨⟨⟨numerator, denominator⟩, exponent⟩, hnone, hproper⟩ := n
  obtain rfl : denominator = none := hnone
  exact ⟨(numerator, (), ⟨exponent, hproper⟩, ()), by simp [Unsigned.text,
    Fraction.text, Fraction.textBelow]⟩

/-! ## Lexemes in their place -/

/-- What is taken and what is left over are the text. -/
theorem toList_taken_append (h : rest <:+ cs) : (taken cs rest).toList ++ rest = cs := by
  obtain ⟨text, rfl⟩ := h
  rw [taken_append, String.toList_ofList]

/-- A lexeme has the text that it takes. -/
theorem text_append_of_next? {l : Lexeme} (h : next? R cs = some (l, rest)) :
    l.text.toList ++ rest = cs := by
  have htext : l.text = taken cs rest := by
    rcases next?_cases
      h with ⟨-, rfl⟩ | ⟨-, rfl⟩ | ⟨_, -, rfl⟩ | ⟨-, -, rfl⟩ | ⟨-, rfl⟩ | ⟨-, rfl⟩ <;> rfl
  rw [htext, toList_taken_append (next?_shorter h).1]

/-- The lexemes of a text are the first one and those of what it leaves over. -/
theorem exists_of_lexChars_eq_cons {l : Lexeme} {ls : List Lexeme}
    (h : (lexChars R cs).1 = l :: ls) :
    ∃ rest, next? R cs = some (l, rest) ∧ (lexChars R rest).1 = ls := by
  by_cases hne : cs = []
  · rw [hne, lexChars_nil] at h
    cases h
  cases hnext : next? R cs with
  | none =>
    rw [lexChars_of_next?_eq_none hne hnext] at h
    cases h
  | some lexeme =>
    rw [lexChars_of_next? hne hnext] at h
    obtain ⟨rfl, hls⟩ := List.cons.inj h
    exact ⟨lexeme.2, rfl, hls⟩

/-- A lexeme is the first one of what is left of the text behind the lexemes before it. -/
theorem exists_next?_of_append {before after : List Lexeme} {l : Lexeme}
    (h : (lexChars R cs).1 = before ++ l :: after) :
    ∃ rest, cs = before.flatMap (·.text.toList) ++ (l.text.toList ++ rest) ∧
      next? R (l.text.toList ++ rest) = some (l, rest) := by
  induction before generalizing cs with
  | nil =>
    obtain ⟨rest, hnext, -⟩ := exists_of_lexChars_eq_cons h
    obtain rfl := text_append_of_next? hnext
    exact ⟨rest, rfl, hnext⟩
  | cons first before ih =>
    obtain ⟨mid, hfirst, hmid⟩ := exists_of_lexChars_eq_cons h
    obtain rfl := text_append_of_next? hfirst
    obtain ⟨rest, rfl, hnext⟩ := ih hmid
    exact ⟨rest, by rw [List.flatMap_cons, List.append_assoc], hnext⟩

/-! ## Name lexemes -/

/-- A word takes its own text. -/
theorem exists_of_word? (h : word? cs = some rest) : ∃ w ∈ words, cs = w.toList ++ rest := by
  obtain ⟨w, hw, h⟩ := List.exists_of_findSome?_eq_some h
  exact ⟨w, hw, suffix_of_after? (Option.filter_eq_some_iff.mp h).1⟩

/-- A name takes all word characters that there are. -/
theorem exists_of_first?_name (h : name.first? cs = some rest) :
    ∃ text, Input.isIdentifier text = true ∧ cs = text ++ rest ∧ ∀ c ∈ rest.head?,
      isWord c = false := by
  cases cs with
  | nil => cases h
  | cons c cs =>
    by_cases hc : isNameStart c = true
    · have hdrop : name.first? (c :: cs) = some (cs.dropWhile isWord) :=
        first?_andThen (first?_one hc cs) (first?_many_dropWhile isWord cs)
      rw [hdrop] at h
      obtain rfl := Option.some.inj h
      refine ⟨c :: cs.takeWhile isWord, ?_, by rw [List.cons_append,
        List.takeWhile_append_dropWhile], fun d hd => ?_⟩
      · rw [Input.isIdentifier, hc, Bool.true_and, List.all_takeWhile]
      · have hnot := List.head?_dropWhile_not isWord cs
        rwa [hd] at hnot
    · have hnone : name.first? (c :: cs) = none :=
        first?_andThen_eq_none
          (first?_one_eq_none fun d hd => Option.some.inj hd ▸ Bool.eq_false_iff.mpr hc)
      rw [hnone] at h
      cases h

/-- A name lexeme is a word, or all word characters where no number stands. -/
theorem name_of_next? (h : next? R (s.toList ++ rest) = some (.name s, rest)) :
    s ∈ words ∨ (number R).first? (s.toList ++ rest) = none ∧ Input.isIdentifier s.toList = true ∧
      ∀ c ∈ rest.head?, isWord c = false := by
  rcases next?_cases h with ⟨hword, -⟩ | ⟨-, h⟩ | ⟨_, -, h⟩ | ⟨hnumber, hname, -⟩ | ⟨-, h⟩ | ⟨-, h⟩
  · obtain ⟨w, hw, hcs⟩ := exists_of_word? hword
    obtain rfl := String.toList_injective (List.append_cancel_right hcs)
    exact .inl hw
  · cases h
  · cases h
  · obtain ⟨text, htext, hcs, hrest⟩ := exists_of_first?_name hname
    obtain rfl := List.append_cancel_right hcs
    exact .inr ⟨hnumber, htext, hrest⟩
  · cases h
  · cases h

/-- A word is a command or an operator. -/
theorem isSome_of_mem_words (h : s ∈ words) :
    (Command.find? s).isSome = true ∨ (Operator.find? s).isSome = true := by
  have hwords : ∀ w ∈ words, ((Command.find? w).isSome || (Operator.find? w).isSome) = true := by
    decide +kernel
  simpa using hwords s h

end Lexer

/-! ## Names that are read as numbers -/

namespace Radix

/-- A number without a fraction bar in its text has no denominator. -/
theorem Unsigned.denominator_eq_none {n : Unsigned R} (h : '/' ∉ n.text) :
    n.mantissa.denominator = none := by
  obtain ⟨⟨numerator, _ | d⟩, exponent⟩ := n
  · rfl
  · exact absurd (by simp [text, Fraction.text, Fraction.textBelow]) h

/-- So what it is divided by is not zero. -/
theorem Unsigned.divisor_ne_zero {n : Unsigned R} (h : '/' ∉ n.text) : n.mantissa.divisor ≠ 0 := by
  rw [Fraction.divisor, denominator_eq_none h]
  exact one_ne_zero

/-- A number without a minus sign in its text has none in the exponent. -/
theorem Unsigned.isProper_of_not_mem {n : Unsigned R} (h : '-' ∉ n.text) : n.IsProper := by
  obtain ⟨mantissa, exponent⟩ := n
  rintro ⟨mark, hmark, signs, digits, hne⟩ rfl
  cases signs with
  | zero => exact zero_le_one
  | succ signs => exact absurd (by simp [text, Exponent.text, Exponent.tail, List.replicate_succ]) h

end Radix

namespace Input

/-- There are none but word characters in a name. -/
theorem not_mem_of_isIdentifier (h : isIdentifier cs = true) (hc : isWord c = false) : c ∉ cs := by
  intro hmem
  rw [isWord_of_isIdentifier h c hmem] at hc
  cases hc

/-- A name is not empty. -/
theorem ne_nil_of_isIdentifier (h : isIdentifier cs = true) : cs ≠ [] := by
  rintro rfl
  cases h

/-- There are no blanks to trim in a name. -/
theorem trim_of_isIdentifier (h : isIdentifier cs = true) : trim cs = cs :=
  Radix.trim_of_forall fun c hc => not_blank_of_isWord (isWord_of_isIdentifier h c hc)

end Input

open Lexer Pattern Radix

/-- A name has neither a sign nor a radix in front. -/
theorem Radix.readNumeral_of_isIdentifier (h : Input.isIdentifier cs = true) :
    R.readNumeral cs = R.readUnsigned cs := by
  have hsign : splitSign cs = (false, cs) := splitSign_of_head fun c hc hminus =>
    Input.not_mem_of_isIdentifier h (by decide) (hminus ▸ List.mem_of_mem_head? hc)
  have hradix : splitRadix? cs = none :=
    splitRadix?_of_not_mem (Input.not_mem_of_isIdentifier h (by decide))
  unfold readNumeral
  simp only [Input.trim_of_isIdentifier h, hsign, if_neg (Input.ne_nil_of_isIdentifier h), hradix]
  cases R.readUnsigned cs <;> rfl

/-- What looks like a name is no number only if it cannot be read as one, and is then read as a
name. -/
theorem Input.read_of_isIdentifier (R : Radix) (h : isIdentifier cs = true) :
    (∃ n : Unsigned R, n.text = cs) ∨ read R cs = .ok (readName (String.ofList cs), none) := by
  rcases readUnsigned_cases (R := R) cs with hnumber | ⟨e, hread, hbad⟩ | ⟨-, n, hdivisor, hbegins⟩
  · exact .inl hnumber
  · right
    rw [← readNumeral_of_isIdentifier h] at hread
    unfold read
    simp only [if_pos h, hread, if_pos hbad]
  · -- A divisor of zero needs a fraction bar, which is no word character.
    have hbar : '/' ∉ n.text :=
      fun hbar => not_mem_of_isIdentifier h (by decide) (hbegins.subset hbar)
    exact absurd hdivisor (Unsigned.divisor_ne_zero hbar)

/-- A number that looks like a name is read as its value. -/
theorem Input.read_unsigned_of_isIdentifier {n : Unsigned R} (h : isIdentifier n.text = true) :
    read R n.text = .ok (.num n.value, none) := by
  rw [read_unsigned, if_neg (Unsigned.divisor_ne_zero (not_mem_of_isIdentifier h (by decide)))]

/-- A number that looks like a name is lexed into a number unless a word character, a point or a
number sign follows. -/
theorem Lexer.first?_number_of_isIdentifier {n : Unsigned R} (h : Input.isIdentifier n.text = true)
    (hrest : endsNumber rest = true) : (number R).first? (n.text ++ rest) ≠ none := by
  have hbar : '/' ∉ n.text := Input.not_mem_of_isIdentifier h (by decide)
  have hminus : '-' ∉ n.text := Input.not_mem_of_isIdentifier h (by decide)
  have hplain :=
    admits_plain ⟨n, Unsigned.denominator_eq_none hbar, Unsigned.isProper_of_not_mem hminus⟩ rest
  have hnumber : rest ∈ number R (n.text ++ rest) :=
    List.mem_filter.mpr ⟨List.mem_append_right _ hplain, hrest⟩
  rw [Ne, first?_eq_none_iff]
  exact List.ne_nil_of_mem hnumber

/-- So where it is not, and all word characters are taken, a point or a number sign follows. -/
theorem Lexer.exists_mark_of_first?_eq_none {n : Unsigned R} (h : Input.isIdentifier n.text = true)
    (hnumber : (number R).first? (n.text ++ rest) = none)
    (hrest : ∀ c ∈ rest.head?, isWord c = false) :
    ∃ c ∈ rest.head?, c = '.' ∨ c = '#' := by
  have hends : endsNumber rest ≠ true := fun hends => first?_number_of_isIdentifier h hends hnumber
  cases rest with
  | nil => exact absurd rfl hends
  | cons c rest =>
    refine ⟨c, rfl, or_iff_not_imp_left.mpr ?_⟩
    simpa [endsNumber, startsWith, hrest c rfl] using hends

/-- A name lexeme that is no command and no operator pushes what its text is read as. -/
theorem Calculator.feedAll_name (m : Calculator) {e : Expr} (hcommand : Command.find? s = none)
    (hoperator : Operator.find? s = none) (hname : Input.isIdentifier s.toList = true)
    (hread : Input.read m.config.radix s.toList = .ok (e, none)) (hsimple : e.simplify = .ok e) :
    m.feedAll none [.name s] =
      { calculator := m.commit
          (m.stack ++ [{ expr := e, approx := false, radix := none }]) m.selection } := by
  have htext := Input.readText_absent m.config (Input.trim_of_isIdentifier hname)
    (Input.ne_nil_of_isIdentifier hname)
  rw [String.ofList_toList, hread] at htext
  have hpush : m.perform (.pushInput s .absent) =
      .ok (m.pushEntry { expr := e, approx := false, radix := none }) := by
    rw [perform, pushInput, htext]
    simp only [bind, Except.bind, hsimple]
    rfl
  simp only [feedAll, actionOf?, hcommand, hoperator, Option.isSome_none, Bool.false_eq_true,
    if_false, hpush]
  rfl

/-- A name lexeme of a line that is no command and no operator pushes an exact entry without a radix
of its own. Unless the name is the text of a number in the radix, that is the constant of this name,
or else the variable. If it is, the number is pushed instead, and the name was cut off in front of a
point or a number sign: nothing else that can follow a name keeps the lexer from taking the
number. -/
theorem feedAll_of_lex_name {line : String} {before after : List Lexeme}
    (h : (lex R line).1 = before ++ .name s :: after) (hcommand : Command.find? s = none)
    (hoperator : Operator.find? s = none) :
    ∃ rest e, line.toList = before.flatMap (·.text.toList) ++ (s.toList ++ rest) ∧
      (∀ m : Calculator, m.config.radix = R → m.feedAll none [.name s] =
        { calculator := m.commit
            (m.stack ++ [{ expr := e, approx := false, radix := none }]) m.selection }) ∧
      ((∀ n : Unsigned R, n.text ≠ s.toList) → e = Input.readName s) ∧
      ∀ n : Unsigned R, n.text = s.toList → e = .num n.value ∧ ∃ c ∈ rest.head?, c = '.' ∨
      c = '#' := by
  obtain ⟨rest, hline, hnext⟩ := exists_next?_of_append h
  rcases name_of_next? hnext with hword | ⟨hnumber, hname, hrest⟩
  · have hsome := isSome_of_mem_words hword
    change (Command.find? s).isSome = true ∨ (Operator.find? s).isSome = true at hsome
    rw [hcommand, hoperator] at hsome
    cases hsome <;> contradiction
  change Input.isIdentifier s.toList = true at hname
  change (number R).first? (s.toList ++ rest) = none at hnumber
  by_cases hnone : ∀ n : Unsigned R, n.text ≠ s.toList
  · have hread := (Input.read_of_isIdentifier R hname).resolve_left fun ⟨n, hn⟩ => hnone n hn
    rw [String.ofList_toList] at hread
    have hsimple : (Input.readName s).simplify = .ok (Input.readName s) := by
      rw [Input.readName]
      split <;> rfl
    refine ⟨rest, _, hline, ?_, fun _ => rfl, fun n hn => absurd hn (hnone n)⟩
    rintro m rfl
    exact m.feedAll_name hcommand hoperator hname hread hsimple
  · have hread : ∀ n : Unsigned R, n.text = s.toList →
        Input.read R s.toList = .ok (.num n.value, none) :=
      fun n hn => hn ▸ Input.read_unsigned_of_isIdentifier (hn ▸ hname)
    obtain ⟨n, hn⟩ := not_forall_not.mp hnone
    refine ⟨rest, .num n.value, hline, ?_, fun hnone => absurd hn (hnone n), fun n' hn' => ⟨?_, ?_⟩⟩
    · rintro m rfl
      exact m.feedAll_name hcommand hoperator hname (hread n hn) rfl
    · exact congrArg Prod.fst (Except.ok.inj ((hread n hn).symm.trans (hread n' hn')))
    · rw [← hn'] at hname hnumber
      exact exists_mark_of_first?_eq_none hname hnumber hrest

/-- In hexadecimal `aᴇ5.3` is lexed into a name and a number, since `aᴇ5` is cut off in front of a
point, and the name pushes ten times the fifth power of sixteen. -/
theorem feedAll_of_lex_name_point :
    (lex ⟨16, by decide, by decide⟩ "aᴇ5.3").1 = [] ++ .name "aᴇ5" :: [.number ".3"] ∧
      Command.find? "aᴇ5" = none ∧ Operator.find? "aᴇ5" = none ∧
      ∀ m : Calculator, m.config.radix = ⟨16, by decide, by decide⟩ → m.feedAll none [.name "aᴇ5"] =
        { calculator := m.commit
            (m.stack ++ [{ expr := .num 10485760, approx := false, radix := none }])
            m.selection } := by
  have hname : next? ⟨16, by decide, by decide⟩ "aᴇ5.3".toList =
      some (.name "aᴇ5", ".3".toList) := by
    decide +kernel
  have hnumber : next? ⟨16, by decide, by decide⟩ ".3".toList = some (.number ".3", []) := by
    decide +kernel
  have hlex : (lex ⟨16, by decide, by decide⟩ "aᴇ5.3").1 = [] ++ .name "aᴇ5" :: [.number ".3"] := by
    rw [lex, lexChars_of_next? (by decide) hname, lexChars_of_next? (by decide) hnumber,
      lexChars_nil]
    rfl
  have hcommand : Command.find? "aᴇ5" = none := by decide
  have hoperator : Operator.find? "aᴇ5" = none := by decide
  obtain ⟨rest, e, -, hfeed, -, hvalue⟩ := feedAll_of_lex_name hlex hcommand hoperator
  let n : Unsigned ⟨16, by decide, by decide⟩ :=
    ⟨⟨⟨[⟨10, by decide⟩], none, .inl (by simp)⟩, none⟩,
        some ⟨exponentMark, .inl rfl, 0, [⟨5, by decide⟩], by simp⟩⟩
  obtain ⟨rfl, -⟩ := hvalue n (by decide)
  have hten : n.value = 10485760 := by decide +kernel
  rw [hten] at hfeed
  exact ⟨hlex, hcommand, hoperator, hfeed⟩

/-- In hexadecimal the line `ff#` begins with a name lexeme that is neither a command nor an
operator, and pushes the number 255 and not a constant or a variable. -/
theorem not_forall_name_pushes_name :
    ¬∀ (R : Radix) (line s : String), .name s ∈ (lex R line).1 → Command.find? s = none →
    Operator.find? s = none →
      ∀ m : Calculator, m.config.radix = R → ∃ e : Expr, ((∃ c, e = .const c) ∨ ∃ x, e = .var x) ∧
        m.feedAll none [.name s] =
          { calculator := m.commit
              (m.stack ++ [{ expr := e, approx := false, radix := none }]) m.selection } := by
  have hname : next? ⟨16, by decide, by decide⟩ "ff#".toList = some (.name "ff", ['#']) := by
    decide +kernel
  have hcommand : Command.find? "ff" = none := by decide
  have hoperator : Operator.find? "ff" = none := by decide
  have hmem : .name "ff" ∈ (lex ⟨16, by decide, by decide⟩ "ff#").1 := by
    rw [lex, lexChars_of_next? (by decide) hname]
    exact List.mem_cons_self
  intro h
  let m : Calculator := { config := { radix := ⟨16, by decide, by decide⟩ } }
  obtain ⟨e, he, hfeed⟩ := h _ _ _ hmem hcommand hoperator m rfl
  let n : Unsigned m.config.radix :=
    ⟨⟨⟨[⟨15, by decide⟩, ⟨15, by decide⟩], none, .inl (by simp)⟩, none⟩, none⟩
  have hread : Input.read m.config.radix "ff".toList = .ok (.num n.value, none) :=
    Input.read_unsigned_of_isIdentifier (n := n) (by decide)
  rw [m.feedAll_name hcommand hoperator (by decide) hread rfl] at hfeed
  have hstack : [({ expr := .num n.value } : Entry)] = [{ expr := e }] :=
    congrArg (fun outcome => outcome.calculator.stack) hfeed
  obtain rfl : e = .num n.value := (congrArg Entry.expr (List.head_eq_of_cons_eq hstack)).symm
  rcases he with ⟨c, hc⟩ | ⟨x, hx⟩
  · cases hc
  · cases hx

end StackAlgebra
