import StackAlgebra.Proofs.Radix.Numeral

/-!
# Refused texts

Each part of the reader is given a text of its part of a numeral, or refuses: it fails with an error
that says that the text could not be read (`Refused`). Put together, a text is a numeral, or is
refused, or has a zero denominator before the place where it would be refused, or names its radix by
a digit that has no value (`readNumeral_cases`).

The grammar allows one minus sign at most in an exponent, and a radix by its abbreviation or its
digit (`Numeral.IsProper`). The reader takes a little more: several minus signs in front of an
exponent count as one, and the radix may be a decimal digit of any script. A digit of another kind,
such as a superscript, is looked up there as if it had a value. These are all the texts outside of
the grammar that are not refused (`isReported_iff_of_isForeign`).
-/

namespace StackAlgebra.Radix

variable {R S : Radix} {α β : Type} {cs text : List Char}

/-! ## Refusing -/

/-- The computation fails because a text could not be read. -/
def Refused (x : Except Error α) : Prop :=
  ∃ e, x = .error e ∧ e.isBadInput = true

/-- What goes on from a refused text is refused. -/
theorem Refused.bind {x : Except Error α} (h : Refused x) (f : α → Except Error β) :
    Refused (x >>= f) := by
  obtain ⟨e, rfl, he⟩ := h
  exact ⟨e, rfl, he⟩

/-- An error that says so refuses. -/
theorem refused_error {e : Error} (h : e.isBadInput = true) : Refused (.error e : Except Error α) :=
  ⟨e, rfl, h⟩

/-! ## Digits -/

/-- A text consists of digits, or is refused where digits are read. -/
theorem readNat_cases (cs : List Char) :
    (∃ ds : List (Fin R.val), textOf ds = cs) ∨ Refused (R.readNat cs) := by
  rw [readNat]
  -- Digits may stand before these, so that zero is any number that was read so far.
  generalize 0 = value
  induction cs generalizing value with
  | nil => exact .inl ⟨[], rfl⟩
  | cons c cs ih =>
    cases hc : R.digitValue? c with
    | none =>
      rw [List.foldlM_cons, hc]
      exact .inr ((refused_error rfl).bind _)
    | some d =>
      obtain ⟨hd, rfl⟩ := eq_of_digitValue? hc
      rw [List.foldlM_cons, hc]
      refine (ih (value * R.val + d)).imp_left ?_
      rintro ⟨ds, rfl⟩
      exact ⟨⟨d, hd⟩ :: ds, rfl⟩

/-! ## Points, bars and marks -/

/-- What was split off stood before the mark. -/
theorem eq_append_of_splitAt? {mark : Char} {before after : List Char}
    (h : splitAt? mark cs = some (before, after)) :
    cs = before ++ mark :: after := by
  induction cs generalizing before with
  | nil => cases h
  | cons c cs ih =>
    rw [splitAt?] at h
    split_ifs at h with hc
    · cases h
      rw [hc, List.nil_append]
    · obtain ⟨⟨before', after'⟩, hsplit, heq⟩ := Option.map_eq_some_iff.mp h
      cases heq
      rw [ih hsplit, List.cons_append]

/-- A text is a positional number, or is refused as one. -/
theorem readPoint_cases (cs : List Char) :
    (∃ n : Positional R, n.text = cs) ∨ Refused (R.readPoint cs) := by
  unfold readPoint
  split_ifs with hcount
  · exact .inr (refused_error rfl)
  cases hsplit : splitAt? '.' cs with
  | none =>
    simp only [Option.getD_none, and_true]
    split_ifs with hne
    · exact .inr (refused_error rfl)
    rcases readNat_cases (R := R) cs with ⟨ds, rfl⟩ | hrefused
    · refine .inl ⟨⟨ds, none, .inl (mt textOf_eq_nil_iff.mpr hne)⟩, ?_⟩
      rw [Positional.text, Positional.textBehind, List.append_nil]
    · exact .inr (hrefused.bind _)
  | some parts =>
    obtain ⟨before, after⟩ := parts
    obtain rfl := eq_append_of_splitAt? hsplit
    simp only [Option.getD_some]
    split_ifs with hne
    · exact .inr (refused_error rfl)
    rcases readNat_cases (R := R) before with ⟨ds, rfl⟩ | hrefused
    · rcases readNat_cases (R := R) after with ⟨es, rfl⟩ | hrefused
      · rw [textOf_eq_nil_iff, textOf_eq_nil_iff, not_and_or] at hne
        exact .inl ⟨⟨ds, some es, hne⟩, rfl⟩
      · rw [readNat_textOf]
        exact .inr (hrefused.bind _)
    · exact .inr (hrefused.bind _)

/-- A text is a fraction, or is refused as one. -/
theorem readFraction_cases (cs : List Char) :
    (∃ n : Fraction R, n.text = cs) ∨ Refused (R.readFraction cs) := by
  unfold readFraction
  cases hsplit : splitAt? '/' cs with
  | none =>
    refine (readPoint_cases cs).imp_left ?_
    rintro ⟨n, rfl⟩
    exact ⟨⟨n, none⟩, List.append_nil _⟩
  | some parts =>
    obtain ⟨before, after⟩ := parts
    obtain rfl := eq_append_of_splitAt? hsplit
    rcases readPoint_cases (R := R) before with ⟨n, rfl⟩ | hrefused
    · rcases readPoint_cases (R := R) after with ⟨d, rfl⟩ | hrefused
      · exact .inl ⟨⟨n, some d⟩, rfl⟩
      · simp only [readPoint_text]
        exact .inr (hrefused.bind _)
    · exact .inr (hrefused.bind _)

/-- A text may stand behind a mark of an exponent, or is refused there. -/
theorem readExponent_cases {mark : Char} (hmark : R.IsExponentMark mark) (cs : List Char) :
    (∃ e : Exponent R, e.text = mark :: cs) ∨ Refused (R.readExponent cs) := by
  have hsigns : cs.takeWhile (· = '-') = List.replicate (cs.takeWhile (· = '-')).length '-' :=
    List.eq_replicate_of_mem fun c hc => by simpa using List.mem_takeWhile_imp hc
  unfold readExponent
  by_cases hne : cs.dropWhile (· = '-') = []
  · rw [if_pos hne]
    exact .inr (refused_error rfl)
  rw [if_neg hne]
  rcases readNat_cases (R := R) (cs.dropWhile (· = '-')) with ⟨ds, hds⟩ | hrefused
  · have hdigits : ds ≠ [] := by
      rintro rfl
      exact hne hds.symm
    refine .inl ⟨⟨mark, hmark, (cs.takeWhile (· = '-')).length, ds, hdigits⟩, ?_⟩
    rw [Exponent.text, Exponent.tail, hds, ← hsigns, List.takeWhile_append_dropWhile]
  · exact .inr (hrefused.bind _)

/-- An exponent is split off at a mark, or there is none. -/
theorem splitExponent_cases (R : Radix) (cs : List Char) :
    R.splitExponent cs = (cs, none) ∨ ∃ mark before after, R.IsExponentMark mark ∧
    cs = before ++ mark :: after ∧
      R.splitExponent cs = (before, some after) := by
  unfold splitExponent
  cases hcapital : splitAt? exponentMark cs with
  | some parts =>
    obtain ⟨before, after⟩ := parts
    refine .inr ⟨exponentMark, before, after, .inl rfl, eq_append_of_splitAt? hcapital, ?_⟩
    split_ifs <;> rfl
  | none =>
    cases hletter : splitAt? 'e' cs with
    | none =>
      simp
    | some parts =>
      obtain ⟨before, after⟩ := parts
      split_ifs with hmark
      · exact .inr ⟨'e', before, after, .inr ⟨rfl, hmark⟩, eq_append_of_splitAt? hletter, rfl⟩
      · exact .inl rfl

/-- A text is an unsigned number, or is refused as one, or begins with a fraction that has no
value. -/
theorem readUnsigned_cases (cs : List Char) :
    (∃ n : Unsigned R, n.text = cs) ∨ Refused (R.readUnsigned cs) ∨
      R.readUnsigned cs = .error .divisionByZero ∧
        ∃ n : Unsigned R, n.mantissa.divisor = 0 ∧ n.text <+: cs := by
  unfold readUnsigned
  rcases splitExponent_cases R cs with hsplit | ⟨mark, before, after, hmark, rfl, hsplit⟩
  · rw [hsplit]
    rcases readFraction_cases (R := R) cs with ⟨n, rfl⟩ | hrefused
    · exact .inl ⟨⟨n, none⟩, List.append_nil _⟩
    · exact .inr (.inl (hrefused.bind _))
  · rw [hsplit]
    rcases readFraction_cases (R := R) before with ⟨n, rfl⟩ | hrefused
    · rcases readExponent_cases hmark after with ⟨e, he⟩ | hrefused
      · exact .inl ⟨⟨n, some e⟩, congrArg (n.text ++ ·) he⟩
      · -- The fraction is read before the exponent, and may fail first.
        simp only [readFraction_text]
        split_ifs with hdivisor
        · refine .inr (.inr ⟨rfl, ⟨n, none⟩, hdivisor, ?_⟩)
          rw [Unsigned.text, Option.elim_none, List.append_nil]
          exact List.prefix_append _ _
        · exact .inr (.inl (hrefused.bind _))
    · exact .inr (.inl (hrefused.bind _))

/-! ## The radix in front -/

/-- A digit that has no decimal value, such as a superscript. -/
def IsValueless (c : Char) : Prop :=
  isDigitLike c = true ∧ decimalValue? c = none

/-- A digit of the alphabet that looks like one has its decimal value. -/
theorem decimalValue?_of_value? {c : Char} {d : ℕ} (h : Digit.value? c = some d)
    (hlike : isDigitLike c = true) :
    decimalValue? c = some d := by
  have h64 : ∀ d < 64, isDigitLike (Digit.ofValue d) = true →
      decimalValue? (Digit.ofValue d) = some d := by
    decide +kernel
  obtain ⟨hd, rfl⟩ := eq_of_value? h
  exact h64 d hd hlike

/-- A digit without a value is none of the alphabet, no blank and no minus. -/
theorem IsValueless.spec {c : Char} (h : IsValueless c) :
    Digit.value? c = none ∧ isBlank c = false ∧ c ≠ '-' := by
  obtain ⟨hlike, hnone⟩ := h
  refine ⟨?_, not_blank_of_isDigitLike hlike, ?_⟩
  · rw [Option.eq_none_iff_forall_ne_some]
    intro d hd
    rw [decimalValue?_of_value? hd hlike] at hnone
    cases hnone
  · rintro rfl
    exact absurd hlike (by decide)

/-- A digit without a value is looked up as if it had one. -/
theorem IsValueless.read_singleton {c : Char} (h : IsValueless c) :
    read [c] = .error .meaninglessValue := by
  obtain ⟨hvalue, hblank, -⟩ := h.spec
  have hdecimal : readDecimal? [c] = none := by simp [readDecimal?, h.2]
  rw [Radix.read_singleton hblank, ofDigit?, hvalue, Option.bind_none]
  simp only [h.1, if_true, readNumber, hdecimal]

/-- The radix of a value has it. -/
theorem val_of_ofNat? {v : ℕ} (h : ofNat? v = some S) : S.val = v := by
  rw [ofNat?] at h
  split_ifs at h
  rw [← Option.some.inj h]

/-- The radix of an abbreviation has it. -/
theorem name_of_ofName? {s : String} (h : ofName? s = some S) : S.name = s := by
  obtain ⟨i, hi, hval⟩ := Option.bind_eq_some_iff.mp h
  obtain ⟨hlt, hget, -⟩ := List.idxOf?_eq_some_iff.mp hi
  have hplace : S.val - 2 = i := by rw [val_of_ofNat? hval, Nat.add_sub_cancel]
  simp only [name, List.get_eq_getElem, hplace, hget]

/-- One character names a radix, or is refused, or is a digit without a value. -/
theorem read_singleton_cases (c : Char) :
    (∃ S, ∃ l : Label S, l.text = [c]) ∨ Refused (read [c]) ∨ IsValueless c := by
  cases hblank : isBlank c with
  | true =>
    have htrim : trim [c] = [] := by simp [trim, trimOff, hblank]
    have hname : ofName? (String.ofList []) = none := by decide
    refine .inr (.inl ?_)
    unfold read
    simp only [htrim, hname]
    exact refused_error rfl
  | false =>
    rw [read_singleton hblank]
    cases hdigit : ofDigit? c with
    | some S =>
      obtain ⟨v, hv, hS⟩ := Option.bind_eq_some_iff.mp hdigit
      obtain ⟨hlt, heq⟩ := eq_of_value? hv
      obtain rfl := val_of_ofNat? hS
      exact .inl ⟨S, .digit hlt, by rw [Label.text, heq]⟩
    | none =>
      by_cases hlike : isDigitLike c = true
      · simp only [hlike, if_true]
        cases hvalue : decimalValue? c with
        | none => exact .inr (.inr ⟨hlike, hvalue⟩)
        | some v =>
          rw [readNumber_singleton hvalue]
          cases hS : ofNat? v with
          | none => exact .inr (.inl (refused_error rfl))
          | some S =>
            obtain rfl := val_of_ofNat? hS
            refine .inl ⟨S, .decimal c ?_ hvalue, rfl⟩
            -- A digit of the alphabet with this value would name the radix as such.
            rw [Option.eq_none_iff_forall_ne_some]
            intro d hd
            rw [decimalValue?_of_value? hd hlike] at hvalue
            rw [ofDigit?, hd, Option.bind_some, Option.some.inj hvalue, ofNat?_val] at hdigit
            cases hdigit
      · simp only [hlike]
        exact .inr (.inl (refused_error rfl))

/-- Three letters name a radix, or are refused. -/
theorem read_letters_cases {a b c : Char} (hletters : ∀ x ∈ [a, b, c], isLetter x = true) :
    (∃ S, ∃ l : Label S, l.text = [a, b, c]) ∨ Refused (read [a, b, c]) := by
  have htrim : trim [a, b, c] = [a, b, c] :=
    trim_of_forall fun x hx => not_blank_of_isLetter (hletters x hx)
  have hlike : isDigitLike a = false := not_digitLike_of_isLetter (hletters a List.mem_cons_self)
  unfold read
  simp only [htrim]
  cases hname : ofName? (String.ofList [a, b, c]) with
  | some S =>
    refine .inl ⟨S, .name, ?_⟩
    rw [Label.text, name_of_ofName? hname, String.toList_ofList]
  | none =>
    simp only [List.all_cons, hlike, Bool.false_and, Bool.false_eq_true, and_false, if_false]
    exact .inr (refused_error rfl)

/-- What is split off as a radix names one, or is refused, or is a digit without a value; or nothing
is split off. -/
theorem splitRadix?_cases (cs : List Char) :
    splitRadix? cs = none ∨ ∃ chosen body, splitRadix? cs = some (chosen, body) ∧
    cs = chosen ++ '#' :: body ∧
      ((∃ S, ∃ l : Label S, l.text = chosen) ∨ Refused (read chosen) ∨ ∃ c,
        IsValueless c ∧ chosen = [c]) := by
  have hshort : splitShortRadix? cs = none ∨
      ∃ c body, splitShortRadix? cs = some ([c], body) ∧ cs = c :: '#' :: body := by
    unfold splitShortRadix?
    split
    · exact .inr ⟨_, _, rfl, rfl⟩
    · exact .inl rfl
  have hsingle : ∀ c : Char, (∃ S, ∃ l : Label S, l.text = [c]) ∨ Refused (read [c]) ∨
      ∃ x, IsValueless x ∧ [c] = [x] := fun c =>
    (read_singleton_cases c).imp_right fun h => h.imp_right fun hc => ⟨c, hc, rfl⟩
  unfold splitRadix?
  split
  · next a b c rest =>
    split_ifs with hletters
    · simp only [Bool.and_eq_true] at hletters
      have hcases :=
        read_letters_cases (a := a) (b := b) (c := c) (by simpa [and_assoc] using hletters)
      exact .inr ⟨_, _, rfl, rfl, hcases.imp_right .inl⟩
    · rcases hshort with hshort | ⟨c, body, hshort, hcs⟩
      · exact .inl hshort
      · exact .inr ⟨_, _, hshort, hcs, hsingle c⟩
  · rcases hshort with hshort | ⟨c, body, hshort, hcs⟩
    · exact .inl hshort
    · exact .inr ⟨_, _, hshort, hcs, hsingle c⟩

/-! ## Numerals -/

/-- A text is what trimming leaves of it between blanks. -/
theorem exists_blanks (text : List Char) : ∃ before after, (∀ c ∈ before, isBlank c = true) ∧
    (∀ c ∈ after, isBlank c = true) ∧ text = before ++ trim text ++ after := by
  refine ⟨text.takeWhile isBlank, ((text.dropWhile isBlank).reverse.takeWhile isBlank).reverse,
    fun c hc => List.mem_takeWhile_imp hc,
    fun c hc => List.mem_takeWhile_imp (List.mem_reverse.mp hc), ?_⟩
  rw [trim, trimOff, List.append_assoc, ← List.reverse_append, List.takeWhile_append_dropWhile,
    List.reverse_reverse, List.takeWhile_append_dropWhile]

/-- A text is its sign and what follows it. -/
theorem eq_of_splitSign {negative : Bool} {rest : List Char} (h : splitSign cs = (negative, rest)) :
    cs = signText negative ++ rest := by
  unfold splitSign at h
  split at h <;> cases h <;> rfl

/-- A sign, a digit without a value where the radix stands, and a number sign begin the text. -/
def NamesValueless (text : List Char) : Prop :=
  ∃ before negative c rest, (∀ b ∈ before, isBlank b = true) ∧ IsValueless c ∧
    text = before ++ (signText negative ++ [c, '#']) ++ rest

/-- A digit without a value in place of the radix is a failure of its own. -/
theorem NamesValueless.readNumeral_eq (h : NamesValueless text) :
    R.readNumeral text = .error .meaninglessValue := by
  obtain ⟨before, negative, c, rest, hbefore, hc, rfl⟩ := h
  obtain ⟨-, hblank, hminus⟩ := hc.spec
  have hfirst : ∀ x ∈ signText negative ++ [c, '#'], isBlank x = false := by
    intro x hx
    rcases List.mem_append.mp hx with hx | hx
    · exact not_blank_of_mem_signText hx
    · rcases List.mem_pair.mp hx with rfl | rfl
      · exact hblank
      · decide
  have hsign : ∀ rest, splitSign (signText negative ++ c :: '#' :: rest) =
      (negative, c :: '#' :: rest) := fun rest =>
    splitSign_signText negative (by simpa using hminus)
  unfold readNumeral
  rw [trim_append rest hbefore hfirst (by simp), List.append_assoc, List.cons_append,
    List.cons_append, List.nil_append, hsign]
  simp only [reduceCtorEq, if_false, splitRadix?_singleton, hc.read_singleton]
  rfl

/-- What begins a text behind its sign begins the text as a numeral. -/
theorem exists_numeral_of_prefix {before after : List Char}
    (hbefore : ∀ c ∈ before, isBlank c = true) (negative : Bool) {b : Body R}
    (hdivisor : b.number.mantissa.divisor = 0) (hbegins : b.text <+: cs) :
    ∃ n : Numeral R, n.divisor = 0 ∧ n.text <+: before ++ (signText negative ++ cs) ++ after := by
  refine ⟨⟨before, negative, b, [], hbefore, by simp⟩, hdivisor, ?_⟩
  rw [Numeral.text, List.append_nil, List.append_assoc before, List.prefix_append_right_inj,
    List.append_assoc, List.prefix_append_right_inj]
  exact hbegins.trans (List.prefix_append _ _)

/-- A text is a numeral, or is refused, or begins with a numeral that has no value, or names its
radix by a digit that has none. -/
theorem readNumeral_cases (R : Radix) (text : List Char) :
    (∃ n : Numeral R, n.text = text) ∨ Refused (R.readNumeral text) ∨
      (R.readNumeral text = .error .divisionByZero ∧ ∃ n : Numeral R,
        n.divisor = 0 ∧ n.text <+: text) ∨
      NamesValueless text := by
  obtain ⟨before, after, hbefore, hafter, htext⟩ := exists_blanks text
  unfold readNumeral
  rcases hsign : splitSign (trim text) with ⟨negative, cs⟩
  rw [eq_of_splitSign hsign] at htext
  by_cases hne : cs = []
  · simp only [hne, if_true]
    exact .inr (.inl (refused_error rfl))
  simp only [if_neg hne]
  -- Without a radix in front, the rest is read in that of the reader; otherwise the radix is read
  -- first.
  rcases splitRadix?_cases cs with hradix | ⟨chosen, body, hradix, hcs, hchosen⟩
  · simp only [hradix]
    rcases readUnsigned_cases (R := R) cs with ⟨n, rfl⟩ | hrefused | ⟨hzero, n, hdivisor, hbegins⟩
    · exact .inl ⟨⟨before, negative, .plain n, after, hbefore, hafter⟩, htext.symm⟩
    · exact .inr (.inl (hrefused.bind _))
    · rw [hzero, htext]
      exact .inr (.inr
          (.inl ⟨rfl, exists_numeral_of_prefix (b := .plain n) hbefore negative hdivisor hbegins⟩))
  · simp only [hradix]
    rcases hchosen with ⟨S, l, rfl⟩ | hrefused | ⟨c, hc, rfl⟩
    · rw [read_text]
      rcases hsignBody : splitSign body with ⟨negativeBody, ds⟩
      by_cases hne' : ds = []
      · simp only [bind, Except.bind, hne', if_true]
        exact .inr (.inl (refused_error rfl))
      simp only [bind, Except.bind, if_neg hne']
      rcases readUnsigned_cases (R := S) ds with ⟨n, rfl⟩ | hrefused | ⟨hzero, n, hdivisor, hbegins⟩
      · refine .inl ⟨⟨before, negative, .labelled l negativeBody n, after, hbefore, hafter⟩, ?_⟩
        rw [htext, hcs, eq_of_splitSign hsignBody]
        rfl
      · exact .inr (.inl (hrefused.bind _))
      · rw [hzero, htext]
        refine .inr (.inr (.inl ⟨rfl, ?_⟩))
        refine exists_numeral_of_prefix (b := .labelled l negativeBody n)
          hbefore negative hdivisor ?_
        rw [hcs, eq_of_splitSign hsignBody, Body.text, List.prefix_append_right_inj,
          List.cons_prefix_cons, List.prefix_append_right_inj]
        exact ⟨rfl, hbegins⟩
    · exact .inr (.inl (hrefused.bind _))
    · refine .inr (.inr (.inr ⟨before, negative, c, body ++ after, hbefore, hc, ?_⟩))
      rw [htext, hcs]
      simp

/-! ## The grammar -/

/-- The radix is given by its abbreviation or its digit. -/
def Label.IsProper : Label S → Prop
  | .name | .digit _ => True
  | .decimal .. => False

/-- At most one minus sign stands in front of the exponent. -/
def Unsigned.IsProper (n : Unsigned R) : Prop :=
  ∀ e ∈ n.exponent, e.signs ≤ 1

/-- The radix in front, if there is one, and the number are as the grammar has them. -/
def Body.IsProper : Body R → Prop
  | .plain n => n.IsProper
  | .labelled l _ n => l.IsProper ∧ n.IsProper

/-- The numeral belongs to the grammar. -/
def Numeral.IsProper (n : Numeral R) : Prop :=
  n.body.IsProper

/-- The text is no numeral of the grammar. -/
def IsForeign (R : Radix) (text : List Char) : Prop :=
  ∀ n : Numeral R, n.IsProper → n.text ≠ text

/-- Whether a radix in front is proper is seen from its text. -/
theorem Label.isProper_iff (l : Label S) :
    l.IsProper ↔ ∀ c, l.text = [c] → Digit.value? c ≠ none := by
  cases l with
  | name =>
    obtain ⟨a, b, c, hname, -⟩ := S.exists_name_eq
    simp [Label.IsProper, Label.text, hname]
  | digit h => simp [Label.IsProper, Label.text, value?_ofValue h]
  | decimal c hother hvalue => simp [Label.IsProper, Label.text, hother]

/-- Whether an exponent is proper is seen from its text. -/
theorem Unsigned.isProper_iff (n : Unsigned R) :
    n.IsProper ↔ ∀ tail ∈ (R.splitExponent n.text).2, ¬['-', '-'] <+: tail := by
  have htail : ∀ e : Exponent R, e.signs ≤ 1 ↔ ¬['-', '-'] <+: e.tail := by
    rintro ⟨mark, hmark, signs, digits, hne⟩
    have hminus : ∀ cs, '-' ∈ cs → ¬cs <+: textOf digits := fun cs hcs h =>
      not_mem_textOf_of_mem_marks digits (by simp [marks]) (h.subset hcs)
    rcases signs with _ | _ | signs
    · simpa [Exponent.tail] using hminus ['-', '-'] (by simp)
    · simpa [Exponent.tail] using hminus ['-'] (by simp)
    · simp [Exponent.tail, List.replicate_succ]
  rw [splitExponent_text, Unsigned.IsProper]
  simp [htail]

/-- Numerals of one text are proper together: no improper numeral has the text of a proper one. -/
theorem Numeral.isProper_congr {n m : Numeral R} (h : n.text = m.text) :
    n.IsProper ↔ m.IsProper := by
  have hsign : (n.negative, n.body.text) = (m.negative, m.body.text) := by
    rw [← splitSign_trim_text, ← splitSign_trim_text, h]
  have hbody : n.body.text = m.body.text := congrArg Prod.snd hsign
  unfold Numeral.IsProper
  generalize n.body = b at hbody ⊢
  generalize m.body = b' at hbody ⊢
  have hradix := congrArg splitRadix? hbody
  cases b with
  | plain n =>
    cases b' with
    | plain m =>
      rw [Body.text, Body.text] at hbody
      rw [Body.IsProper, Body.IsProper, Unsigned.isProper_iff, Unsigned.isProper_iff, hbody]
    | labelled l negative m =>
      rw [Body.text, Body.text, splitRadix?_plain, splitRadix?_text] at hradix
      cases hradix
  | @labelled S l negative n =>
    cases b' with
    | plain m =>
      rw [Body.text, Body.text, splitRadix?_plain, splitRadix?_text] at hradix
      cases hradix
    | @labelled S' l' negative' m =>
      rw [Body.text, Body.text, splitRadix?_text, splitRadix?_text, Option.some.injEq,
        Prod.mk.injEq] at hradix
      obtain ⟨hlabel, hrest⟩ := hradix
      have hS : S = S' :=
        Except.ok.inj ((read_text l).symm.trans ((congrArg read hlabel).trans (read_text l')))
      subst hS
      have hnumber := congrArg splitSign hrest
      rw [splitSign_signText _ Unsigned.head?_text, splitSign_signText _ Unsigned.head?_text,
        Prod.mk.injEq] at hnumber
      rw [Body.IsProper, Body.IsProper, Label.isProper_iff, Label.isProper_iff,
        Unsigned.isProper_iff, Unsigned.isProper_iff, hlabel, hnumber.2]

/-! ## Texts outside of the grammar -/

/-- The text is refused, or fails with a division by zero because it begins with a numeral whose
denominator is zero. -/
def IsReported (R : Radix) (text : List Char) : Prop :=
  Refused (R.readNumeral text) ∨
    R.readNumeral text = .error .divisionByZero ∧ ∃ n : Numeral R, n.divisor = 0 ∧ n.text <+: text

/-- What is reported is an error, and not that of a digit without a value. -/
theorem IsReported.exists_error (h : IsReported R text) :
    ∃ e, R.readNumeral text = .error e ∧ e ≠ .meaninglessValue := by
  rcases h with ⟨e, he, hbad⟩ | ⟨he, -⟩
  · refine ⟨e, he, ?_⟩
    rintro rfl
    cases hbad
  · exact ⟨.divisionByZero, he, nofun⟩

/-- A text is reported, or is a numeral with a value, or names its radix by a digit without a
value. -/
theorem isReported_cases (R : Radix) (text : List Char) :
    IsReported R text ∨ (∃ n : Numeral R, n.divisor ≠ 0 ∧ n.text = text) ∨ NamesValueless text := by
  rcases readNumeral_cases R text with ⟨n, rfl⟩ | hrefused | hzero | hvalueless
  · by_cases hdivisor : n.divisor = 0
    · have hread : R.readNumeral n.text = .error .divisionByZero := by
        rw [readNumeral_text, if_pos hdivisor]
      exact .inl (.inr ⟨hread, n, hdivisor, List.prefix_refl _⟩)
    · exact .inr (.inl ⟨n, hdivisor, rfl⟩)
  · exact .inl (.inl hrefused)
  · exact .inl (.inr hzero)
  · exact .inr (.inr hvalueless)

/-- A text has a value exactly if it is a numeral of this value. -/
theorem readNumeral_eq_ok_iff {v : ℚ} :
    R.readNumeral text = .ok v ↔ ∃ n : Numeral R, n.divisor ≠ 0 ∧ n.text = text ∧ n.value = v := by
  constructor
  · intro h
    rcases isReported_cases R text with hreported | ⟨n, hdivisor, rfl⟩ | hvalueless
    · obtain ⟨e, he, -⟩ := hreported.exists_error
      rw [he] at h
      cases h
    · rw [readNumeral_text, if_neg hdivisor] at h
      exact ⟨n, hdivisor, rfl, Except.ok.inj h⟩
    · rw [hvalueless.readNumeral_eq] at h
      cases h
  · rintro ⟨n, hdivisor, rfl, rfl⟩
    rw [readNumeral_text, if_neg hdivisor]

/-- A text fails for want of a digit's value exactly if it names its radix by such a digit. -/
theorem readNumeral_eq_meaninglessValue_iff :
    R.readNumeral text = .error .meaninglessValue ↔ NamesValueless text := by
  refine ⟨fun h => ?_, NamesValueless.readNumeral_eq⟩
  rcases isReported_cases R text with hreported | ⟨n, hdivisor, rfl⟩ | hvalueless
  · obtain ⟨e, he, hne⟩ := hreported.exists_error
    exact absurd (Except.error.inj (he.symm.trans h)) hne
  · rw [readNumeral_text, if_neg hdivisor] at h
    cases h
  · exact hvalueless

/-- A text that fails otherwise than with a division by zero is no numeral. -/
theorem isForeign_of_readNumeral_eq {e : Error} (h : R.readNumeral text = .error e)
    (he : e ≠ .divisionByZero) :
    IsForeign R text := by
  rintro n - rfl
  rw [readNumeral_text] at h
  split_ifs at h
  exact he (Except.error.inj h).symm

/-- A text outside of the grammar is reported exactly if it neither names its radix by a digit
without a value nor is an improper numeral with a divisor that is not zero. The former fail in a way
that is not reported, the latter have the value of the numeral. -/
theorem isReported_iff_of_isForeign (h : IsForeign R text) :
    (IsReported R text ↔
      ¬(NamesValueless text ∨ ∃ n : Numeral R, ¬n.IsProper ∧ n.divisor ≠ 0 ∧ n.text = text)) ∧
      (R.readNumeral text = .error .meaninglessValue ↔ NamesValueless text) ∧
      ∀ v, R.readNumeral text = .ok v ↔
        ∃ n : Numeral R, ¬n.IsProper ∧ n.divisor ≠ 0 ∧ n.text = text ∧ n.value = v := by
  have himproper : ∀ n : Numeral R, n.text = text → ¬n.IsProper :=
    fun n hn hproper => h n hproper hn
  refine ⟨⟨fun hreported => ?_, fun hnot => ?_⟩, readNumeral_eq_meaninglessValue_iff, fun v => ?_⟩
  · obtain ⟨e, he, hne⟩ := hreported.exists_error
    rintro (hvalueless | ⟨n, -, hdivisor, htext⟩)
    · exact hne (Except.error.inj (he.symm.trans hvalueless.readNumeral_eq))
    · rw [readNumeral_eq_ok_iff.mpr ⟨n, hdivisor, htext, rfl⟩] at he
      cases he
  · rcases isReported_cases R text with hreported | ⟨n, hdivisor, htext⟩ | hvalueless
    · exact hreported
    · exact absurd (.inr ⟨n, himproper n htext, hdivisor, htext⟩) hnot
    · exact absurd (.inl hvalueless) hnot
  · rw [readNumeral_eq_ok_iff]
    constructor
    · rintro ⟨n, hdivisor, htext, hvalue⟩
      exact ⟨n, himproper n htext, hdivisor, htext, hvalue⟩
    · rintro ⟨n, -, hdivisor, htext, hvalue⟩
      exact ⟨n, hdivisor, htext, hvalue⟩

/-- One, with two minus signs in front of the exponent 5. -/
def twiceNegative : Numeral decimal where
  before := []
  negative := false
  body := .plain ⟨⟨⟨[⟨1, by decide⟩], none, .inl (by simp)⟩, none⟩,
    some ⟨exponentMark, .inl rfl, 2, [⟨5, by decide⟩], by simp⟩⟩
  after := []
  blank_before := by simp
  blank_after := by simp

/-- Two minus signs in front of an exponent are outside of the grammar, and are read as one. -/
theorem isReported_iff_of_isForeign_twiceNegative :
    IsForeign decimal twiceNegative.text ∧ ¬IsReported decimal twiceNegative.text ∧
      decimal.readNumeral twiceNegative.text = .ok (1 / 100000) := by
  have himproper : ¬twiceNegative.IsProper := fun h => absurd (h _ rfl) (by decide)
  have hforeign : IsForeign decimal twiceNegative.text := fun n hn htext =>
    himproper ((Numeral.isProper_congr htext).mp hn)
  have hdivisor : twiceNegative.divisor ≠ 0 := one_ne_zero
  have hvalue : twiceNegative.value = 1 / 100000 := by
    change (((1 : ℕ) + (0 : ℕ) / (10 : ℚ) ^ 0) / 1 * (10 : ℚ) ^ (-5 : ℤ)) = 1 / 100000
    norm_num
  obtain ⟨hiff, -, hok⟩ := isReported_iff_of_isForeign hforeign
  refine ⟨hforeign, fun h => hiff.mp h (.inr ⟨_, himproper, hdivisor, rfl⟩), ?_⟩
  exact (hok _).mpr ⟨_, himproper, hdivisor, rfl, hvalue⟩

/-- A superscript in place of the radix is outside of the grammar, and is not reported. -/
theorem not_isReported_superscript : ¬∀ (R : Radix) (text : List Char), IsForeign R text →
    IsReported R text := by
  have hvalueless : NamesValueless ['²', '#', '1'] :=
    ⟨[], false, '²', ['1'], by simp, ⟨by decide, by decide⟩, rfl⟩
  have hread : decimal.readNumeral ['²', '#', '1'] = .error .meaninglessValue :=
    hvalueless.readNumeral_eq
  intro h
  obtain ⟨e, he, hne⟩ := (h decimal _ (isForeign_of_readNumeral_eq hread nofun)).exists_error
  exact hne (Except.error.inj (he.symm.trans hread))

end StackAlgebra.Radix
