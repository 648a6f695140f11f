import StackAlgebra.Proofs.Lexer.NumberLexeme

/-!
# Quoted names

Any name can be entered between single quotes, with a backslash in front of every backslash and
every single quote in it (`quotation`). The lexer ends such a name at its closing quote, whatever
follows, because the quotes inside are escaped (`quotedRest?_escape`), and reading the escapes gives
the name back (`Input.unescape_escape`). So the quotation of a name is one lexeme and pushes the
variable of that name (`lex_quotation`).
-/

namespace StackAlgebra

variable {R : Radix} {c : Char} {cs rest : List Char} {s : String}

namespace Lexer

open Pattern

/-! ## Where neither a word nor a number begins -/

/-- A word begins with a letter. -/
theorem exists_letter_of_mem_words {w : String} (h : w ∈ words) :
    ∃ c cs, w.toList = c :: cs ∧ isLetter c = true := by
  have hwords : ∀ w ∈ words, w.toList.head?.any isLetter = true := by decide +kernel
  have hw := hwords w h
  cases hcs : w.toList with
  | nil =>
    rw [hcs] at hw
    cases hw
  | cons c cs =>
    rw [hcs] at hw
    exact ⟨c, cs, rfl, hw⟩

/-- No word begins with what is no letter. -/
theorem word?_of_not_isLetter (h : isLetter c = false) : word? (c :: cs) = none := by
  rw [word?, List.findSome?_eq_none_iff]
  intro w hw
  obtain ⟨d, ds, hds, hd⟩ := exists_letter_of_mem_words hw
  have hne : d ≠ c := by
    rintro rfl
    rw [h] at hd
    cases hd
  rw [hds, after?, if_neg hne, Option.filter_none]

/-- A digit of a radix is one of the digits of all radices. -/
theorem not_isDigit_of_not_isAny (h : Digit.isAny c = false) : R.isDigit c = false := by
  have hvalue : Digit.value? c = none := by
    rw [Digit.value?, List.idxOf?_eq_none_iff]
    simpa [Digit.isAny] using h
  rw [Radix.isDigit, Radix.digitValue?, hvalue, Option.filter_none, Option.isSome_none]

/-- No number begins with what is neither a letter nor a digit nor a point. -/
theorem first?_number_of_not_isLetter (hletter : isLetter c = false)
    (hdigit : Digit.isAny c = false) (hpoint : c ≠ '.') : (number R).first? (c :: cs) = none := by
  have hone : ∀ {p : Char → Bool}, p c = false → (one p).first? (c :: cs) = none := fun hp =>
    first?_one_eq_none (by simpa using hp)
  have hprefixed : prefixed.first? (c :: cs) = none :=
    first?_andThen_eq_none
      (first?_orElse_eq_none (first?_andThen_eq_none (hone hletter)) (hone hdigit))
  have hdigits : (many1 R.isDigit).first? (c :: cs) = none :=
    first?_andThen_eq_none (hone (not_isDigit_of_not_isAny hdigit))
  have hplain : (plain R).first? (c :: cs) = none :=
    first?_andThen_eq_none (first?_orElse_eq_none (first?_andThen_eq_none hdigits)
      (first?_andThen_eq_none (hone (decide_eq_false hpoint))))
  exact first?_before_eq_none (first?_orElse_eq_none hprefixed hplain)

/-- Where neither a word nor a number begins, a quoted name is tried next. -/
theorem next?_of_not_isLetter (hletter : isLetter c = false) (hdigit : Digit.isAny c = false)
    (hpoint : c ≠ '.') :
    next? R (c :: cs) =
      (quotedLexeme? (c :: cs)).or ((lexeme? .name (c :: cs) (name.first? (c :: cs))).or
      ((lexeme? .operator (c :: cs) (symbol? (c :: cs))).or
        (lexeme? .space (c :: cs) (spaces.first? (c :: cs))))) := by
  rw [next?, word?_of_not_isLetter hletter, first?_number_of_not_isLetter hletter hdigit hpoint]
  rfl

end Lexer

/-! ## Escapes -/

namespace Input

/-- The text with a backslash in front of every backslash and every single quote. -/
def escape (cs : List Char) : List Char :=
  cs.flatMap fun c => if c = '\\' ∨ c = '\'' then ['\\', c] else [c]

/-- A backslash or a single quote is escaped. -/
theorem escape_cons_of_eq (h : c = '\\' ∨ c = '\'') (cs : List Char) :
    escape (c :: cs) = '\\' :: c :: escape cs := by
  rw [escape, List.flatMap_cons, if_pos h, escape]
  rfl

/-- Any other character stays. -/
theorem escape_cons_of_ne (h : ¬(c = '\\' ∨ c = '\'')) (cs : List Char) :
    escape (c :: cs) = c :: escape cs := by
  rw [escape, List.flatMap_cons, if_neg h, escape]
  rfl

/-- A backslash stands for the character after it. -/
theorem unescape_backslash (c : Char) (cs : List Char) :
    unescape ('\\' :: c :: cs) = c :: unescape cs := rfl

/-- A character that is no backslash stands for itself. -/
theorem unescape_cons_of_ne (h : c ≠ '\\') (cs : List Char) :
    unescape (c :: cs) = c :: unescape cs := by
  rw [unescape]
  rintro d ds rfl
  exact absurd rfl h

/-- Reading the escapes undoes the escaping. -/
theorem unescape_escape (cs : List Char) : unescape (escape cs) = cs := by
  induction cs with
  | nil => rfl
  | cons c cs ih =>
    by_cases hc : c = '\\' ∨ c = '\''
    · rw [escape_cons_of_eq hc, unescape_backslash, ih]
    · rw [escape_cons_of_ne hc, unescape_cons_of_ne (fun h => hc (.inl h)), ih]

end Input

/-! ## Quotations -/

namespace Lexer

/-- The name between single quotes, escaped. -/
def quotation (s : String) : String :=
  String.ofList ('\'' :: (Input.escape s.toList ++ ['\'']))

/-- An escaped character belongs to the inside of a quotation. -/
theorem quotedRest?_backslash (c : Char) (cs : List Char) :
    quotedRest? ('\\' :: c :: cs) = (quotedRest? cs).map fun (inner, rest) =>
      ('\\' :: c :: inner, rest) := rfl

/-- Any other character does so unless it is a quote. -/
theorem quotedRest?_cons_of_ne (h : ¬(c = '\\' ∨ c = '\'')) (cs : List Char) :
    quotedRest? (c :: cs) = (quotedRest? cs).map fun (inner, rest) => (c :: inner, rest) := by
  rw [not_or] at h
  rw [quotedRest?]
  · exact fun hc => h.2 hc
  · rintro d ds rfl
    exact absurd rfl h.1
  · rintro rfl
    exact absurd rfl h.1

/-- The first quote behind an escaped text is the one that closes the quotation. -/
theorem quotedRest?_escape (cs rest : List Char) :
    quotedRest? (Input.escape cs ++ '\'' :: rest) = some (Input.escape cs, rest) := by
  induction cs with
  | nil => rfl
  | cons c cs ih =>
    by_cases hc : c = '\\' ∨ c = '\''
    · rw [Input.escape_cons_of_eq hc, List.cons_append, List.cons_append, quotedRest?_backslash, ih]
      rfl
    · rw [Input.escape_cons_of_ne hc, List.cons_append, quotedRest?_cons_of_ne hc, ih]
      rfl

/-- A quotation is the first lexeme of a text that begins with it. -/
theorem next?_quotation (s : String) (rest : List Char) :
    next? R ((quotation s).toList ++ rest) =
      some (.quoted (quotation s) (String.ofList (Input.escape s.toList)), rest) := by
  have htext : (quotation s).toList ++ rest = '\'' :: (Input.escape s.toList ++ '\'' :: rest) := by
    simp [quotation]
  have hquoted : quoted? ((quotation s).toList ++ rest) = some (Input.escape s.toList, rest) := by
    rw [htext]
    exact quotedRest?_escape s.toList rest
  have hnext : next? R ('\'' :: (Input.escape s.toList ++ '\'' :: rest)) = _ :=
    next?_of_not_isLetter (by decide) (by decide) (by decide)
  rw [← htext, quotedLexeme?, hquoted, Option.map_some, Option.some_or] at hnext
  simpa only [taken_append, String.ofList_toList] using hnext

end Lexer

open Lexer

/-- A quoted variable is pushed under its name without the escapes, unless that is empty. -/
theorem Calculator.perform_pushVariable_escape (m : Calculator) (hs : s ≠ "") :
    m.perform (.pushVariable (String.ofList (Input.escape s.toList))) =
      .ok (m.pushEntry { expr := .var s, approx := false, radix := none }) := by
  rw [perform, pushVariable, String.toList_ofList, Input.unescape_escape, String.ofList_toList,
    Expr.ofVariableName, if_neg hs]
  rfl

/-- The quotation of a name is lexed into a single lexeme, a quoted one, with the escaped name
inside. It ends at its closing quote whatever follows, and is followed by the lexemes of what
follows. Carried out it pushes the variable of this name. -/
theorem lex_quotation (R : Radix) (hs : s ≠ "") (after : String) :
    ∃ l : Lexeme, l.text = quotation s ∧
      l.groups = [("str", quotation s), ("__str__", String.ofList (Input.escape s.toList))] ∧
      lex R (quotation s) = ([l], none) ∧
      lex R (quotation s ++ after) = (l :: (lex R after).1, (lex R after).2) ∧
      ∀ m : Calculator, m.feedAll none [l] =
        { calculator := m.commit
            (m.stack ++ [{ expr := .var s, approx := false, radix := none }]) m.selection } := by
  have hlex (rest : List Char) : lexChars R ((quotation s).toList ++ rest) =
      (.quoted (quotation s) (String.ofList (Input.escape s.toList)) :: (lexChars R rest).1,
        (lexChars R rest).2) :=
    lexChars_of_next? (by simp [quotation]) (next?_quotation s rest)
  refine ⟨.quoted (quotation s) (String.ofList (Input.escape s.toList)), rfl, rfl, ?_, ?_,
    fun m => ?_⟩
  · have hnil := hlex []
    rwa [List.append_nil, lexChars_nil] at hnil
  · rw [lex, String.toList_append, hlex]
    rfl
  · simp only [Calculator.feedAll, Calculator.actionOf?, m.perform_pushVariable_escape hs]
    rfl

/-- The name `it's` is entered as a quotation with one escape, here with an operator behind it. -/
theorem lex_quotation_apostrophe :
    "it's" ≠ "" ∧ quotation "it's" = "'it\\'s'" ∧
      ∃ l : Lexeme, lex Radix.decimal "'it\\'s'+" =
        (l :: (lex Radix.decimal "+").1, (lex Radix.decimal "+").2) ∧
        ∀ m : Calculator, m.feedAll none [l] =
          { calculator := m.commit
              (m.stack ++ [{ expr := .var "it's", approx := false, radix := none }])
              m.selection } := by
  have hs : "it's" ≠ "" := by decide
  have hq : quotation "it's" = "'it\\'s'" := by decide
  obtain ⟨l, -, -, -, hlex, hfeed⟩ := lex_quotation Radix.decimal hs "+"
  rw [hq] at hlex
  exact ⟨hs, hq, l, hlex, hfeed⟩

end StackAlgebra
