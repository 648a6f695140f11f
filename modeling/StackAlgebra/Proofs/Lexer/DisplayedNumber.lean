import StackAlgebra.Calculator.Line
import StackAlgebra.Proofs.Calculator.Reentry
import StackAlgebra.Proofs.Lexer.Pattern

/-!
# Displayed numbers in a line

A number that is not negative is displayed as a text that is one lexeme, a number, and pushes this
number when the line is carried out, unless it begins with an operator or command word that no word
character follows (`lex_write`). Words come first, so that a text that does begin with one is never
a single number.
-/

namespace StackAlgebra

open Pattern

variable {R : Radix} {q : ℚ} {cs : List Char}

namespace Lexer

/-! ## Numbers of the radix -/

/-- The text of digits has digits only. -/
theorem isDigit_of_mem_digitText {ds : List ℕ} (hds : ∀ d ∈ ds, d < R.val) :
    ∀ c ∈ Radix.digitText ds, R.isDigit c = true := by
  intro c hc
  obtain ⟨d, hd, rfl⟩ := Radix.exists_of_mem_digitText hds hc
  rw [Radix.isDigit, Radix.digitValue?_ofValue hd, Option.isSome_some]

/-- Digits of the radix are taken up to a mark. -/
theorem first?_digits {ds : List ℕ} {rest : List Char} (hne : ds ≠ []) (hds : ∀ d ∈ ds, d < R.val)
    (hrest : ∀ c ∈ rest.head?, c ∈ Radix.marks) :
    (many1 R.isDigit).first? (Radix.digitText ds ++ rest) = some rest := by
  refine first?_many1 (by simpa [Radix.digitText] using hne)
    (isDigit_of_mem_digitText hds) fun c hc => ?_
  rw [Radix.isDigit, Radix.digitValue?_of_mem_marks (hrest c hc), Option.isSome_none]

/-- Without a point there is no fractional part. -/
theorem first?_fractional {rest : List Char} (hrest : ∀ c ∈ rest.head?, c ≠ '.') :
    (opt (seq [char '.', many R.isDigit])).first? rest = some rest :=
  first?_opt_of_none
    (first?_andThen_eq_none (first?_one_eq_none fun c hc => by simpa using hrest c hc))

/-- Digits are taken up to the end or to a fraction bar. -/
theorem first?_whole {ds : List ℕ} {rest : List Char} (hne : ds ≠ []) (hds : ∀ d ∈ ds, d < R.val)
    (hrest : ∀ c ∈ rest.head?, c = '/') :
    (seq [many1 R.isDigit, opt (seq [char '.', many R.isDigit])]).first?
      (Radix.digitText ds ++ rest) = some rest := by
  have hmarks : ∀ c ∈ rest.head?, c ∈ Radix.marks := by
    intro c hc
    rw [hrest c hc]
    decide
  have hpoint : ∀ c ∈ rest.head?, c ≠ '.' := by
    intro c hc
    rw [hrest c hc]
    decide
  exact first?_andThen (first?_digits hne hds hmarks)
    (first?_andThen (first?_fractional hpoint) rfl)

/-- Digits are taken to the end. -/
theorem first?_whole_to_end {ds : List ℕ} (hne : ds ≠ []) (hds : ∀ d ∈ ds, d < R.val) :
    (seq [many1 R.isDigit, opt (seq [char '.', many R.isDigit])]).first? (Radix.digitText ds) =
      some [] := by
  have h : (seq [many1 R.isDigit, opt (seq [char '.', many R.isDigit])]).first?
      (Radix.digitText ds ++ []) = some [] := first?_whole hne hds (by simp)
  rwa [List.append_nil] at h

/-- Digits on both sides of a point are taken to the end. -/
theorem first?_point {ds es : List ℕ} (hne : ds ≠ []) (hds : ∀ d ∈ ds, d < R.val)
    (hes : ∀ d ∈ es, d < R.val) :
    (seq [many1 R.isDigit, opt (seq [char '.', many R.isDigit])]).first?
      (Radix.digitText ds ++ '.' :: Radix.digitText es) = some [] := by
  have hmark : ∀ c ∈ ('.' :: Radix.digitText es).head?, c ∈ Radix.marks := by simp [Radix.marks]
  have hmany : (many R.isDigit).first? (Radix.digitText es) = some [] := by
    have h : (many R.isDigit).first? (Radix.digitText es ++ []) = some [] :=
      first?_many (isDigit_of_mem_digitText hes) (by simp)
    rwa [List.append_nil] at h
  have hfraction : (opt (seq [char '.', many R.isDigit])).first? ('.' :: Radix.digitText es) =
      some [] :=
    first?_orElse_of_left (first?_andThen (first?_one rfl _) (first?_andThen hmany rfl))
  exact first?_andThen (first?_digits hne hds hmark) (first?_andThen hfraction rfl)

/-- A magnitude is taken as a whole. -/
theorem first?_plain (h : R.IsMagnitude cs) : (plain R).first? cs = some [] := by
  -- At the end of the text there is neither a fraction bar nor an exponent.
  have hbar : (opt (seq [char '/', many1 R.isDigit, opt (seq [char '.', many R.isDigit])])).first?
      [] = some [] :=
    first?_opt_of_none rfl
  have hexponent : (opt (seq [one (isExponentMark R), opt (char '-'), many1 R.isDigit])).first? [] =
      some [] :=
    first?_opt_of_none rfl
  have hrest := first?_andThen hexponent (b := empty) rfl
  cases h with
  | @whole ds hne hds =>
    exact first?_andThen (first?_orElse_of_left (first?_whole_to_end hne hds))
      (first?_andThen hbar hrest)
  | @parts mark ds es hmark hne hne' hds hes =>
    rcases hmark with rfl | rfl
    · exact first?_andThen (first?_orElse_of_left (first?_point hne hds hes))
        (first?_andThen hbar hrest)
    · refine first?_andThen (first?_orElse_of_left (first?_whole hne hds (by simp)))
        (first?_andThen ?_ hrest)
      exact first?_orElse_of_left (first?_andThen (first?_one rfl _) (first?_whole_to_end hne' hes))

/-- A number with a radix in front has a number sign behind the radix. -/
theorem takes_prefixed : Takes prefixed fun x : List Char × List Char => x.1 ++ '#' :: x.2 := by
  have hradix : Takes
      (orElse (seq [one isLetter, one isLetter, one isLetter]) (one Digit.isAny)) id :=
    Takes.orElse
      ((takes_one _).andThen ((takes_one _).andThen ((takes_one _).andThen takes_empty))).asText
      (takes_one _).asText
  have hpoint := ((takes_char '.').andThen ((takes_many Digit.isAny).andThen takes_empty)).opt
  have hbar := ((takes_char '/').andThen ((takes_many1 Digit.isAny).andThen takes_empty)).opt
  have hexponent := ((takes_char Radix.exponentMark).andThen
    ((takes_char '-').opt.andThen ((takes_many1 Digit.isAny).andThen takes_empty))).opt
  have hnumber := ((takes_char '-').opt.andThen ((takes_many Digit.isAny).andThen
    (hpoint.andThen (hbar.andThen (hexponent.andThen takes_empty))))).asText
  exact (hradix.andThen ((takes_char '#').andThen hnumber)).of_exists fun x => ⟨(x.1, x.2.2), rfl⟩

/-- Without a number sign there is no number with a radix in front. -/
theorem first?_prefixed (h : '#' ∉ cs) : prefixed.first? cs = none := by
  rw [first?_eq_none_iff, List.eq_nil_iff_forall_not_mem]
  intro rest hrest
  obtain ⟨x, rfl⟩ := takes_prefixed cs rest hrest
  exact h (by simp)

/-- A magnitude is a number. -/
theorem first?_number (h : R.IsMagnitude cs) : (number R).first? cs = some [] := by
  have hmark : '#' ∉ cs := fun hc => (h.isFigure _ hc).isUnmarked.radix rfl
  refine first?_before ?_ rfl
  rw [first?_orElse_of_none (first?_prefixed hmark)]
  exact first?_plain h

/-! ## Words -/

/-- The text begins with an operator or command word, and no word character follows. -/
def BeginsWithWord (cs : List Char) : Prop :=
  ∃ w ∈ words, ∃ rest, cs = w.toList ++ rest ∧ ∀ c ∈ rest.head?, isWord c = false

/-- What follows a given beginning is found. -/
theorem after?_append (ws rest : List Char) : after? ws (ws ++ rest) = some rest := by
  induction ws with
  | nil => rfl
  | cons w ws ih => rw [List.cons_append, after?, if_pos rfl, ih]

/-- Without a number sign, no word is read exactly where the text does not begin with one. -/
theorem word?_eq_none_iff (h : '#' ∉ cs) : word? cs = none ↔ ¬BeginsWithWord cs := by
  have hstarts : ∀ rest : List Char, '#' ∉ rest →
      ((!startsWith (fun c => isWord c || c = '#') rest) = true ↔
        ∀ c ∈ rest.head?, isWord c = false) := by
    intro rest hrest
    cases rest with
    | nil => simp [startsWith]
    | cons c rest =>
      have hc : c ≠ '#' := fun hc => hrest (hc ▸ List.mem_cons_self)
      simp [startsWith, hc]
  rw [word?, List.findSome?_eq_none_iff, BeginsWithWord]
  constructor
  · rintro hnone ⟨w, hw, rest, rfl, hrest⟩
    have hmark : '#' ∉ rest := fun hc => h (List.mem_append_right _ hc)
    have hw := hnone w hw
    rw [after?_append, Option.filter_some, if_pos ((hstarts rest hmark).mpr hrest)] at hw
    cases hw
  · intro hbegins w hw
    rw [Option.filter_eq_none_iff]
    intro rest hafter htest
    have hcs := suffix_of_after? hafter
    have hmark : '#' ∉ rest := fun hc => h (hcs ▸ List.mem_append_right _ hc)
    exact hbegins ⟨w, hw, rest, hcs, (hstarts rest hmark).mp htest⟩

/-! ## Lexemes -/

/-- An empty text has no lexemes. -/
theorem lexChars_nil (R : Radix) : lexChars R [] = ([], none) := by
  rw [lexChars]
  rfl

/-- The first lexeme, and those of what follows it. -/
theorem lexChars_of_next? {l : Lexeme} {rest : List Char} (hne : cs ≠ [])
    (h : next? R cs = some (l, rest)) :
    lexChars R cs = (l :: (lexChars R rest).1, (lexChars R rest).2) := by
  rw [lexChars, if_neg (by simpa using hne)]
  split
  · next hnone => rw [h] at hnone; cases hnone
  · next l' rest' hsome =>
    rw [h] at hsome
    cases hsome
    rfl

/-- Where no lexeme begins there is an error. -/
theorem lexChars_of_next?_eq_none (hne : cs ≠ []) (h : next? R cs = none) :
    lexChars R cs = ([], some (.unlexable (String.ofList (trim cs)))) := by
  rw [lexChars, if_neg (by simpa using hne)]
  split
  · rfl
  · next hsome => rw [h] at hsome; cases hsome

/-- A word is the first lexeme where one is read. -/
theorem next?_of_word? {rest : List Char} (h : word? cs = some rest) :
    next? R cs = some (.name (taken cs rest), rest) := by
  rw [next?, h]
  rfl

/-- A magnitude is one lexeme where no word is read. -/
theorem next?_of_isMagnitude (h : R.IsMagnitude cs) (hword : word? cs = none) :
    next? R cs = some (.number (String.ofList cs), []) := by
  have htaken : taken cs [] = String.ofList cs := by
    rw [taken, List.length_nil, Nat.sub_zero, List.take_length]
  rw [next?, hword, first?_number h, ← htaken]
  rfl

/-- A magnitude is lexed into one number exactly where it does not begin with a word. -/
theorem lexChars_eq_number_iff (h : R.IsMagnitude cs) :
    lexChars R cs = ([.number (String.ofList cs)], none) ↔ ¬BeginsWithWord cs := by
  have hmark : '#' ∉ cs := fun hc => (h.isFigure _ hc).isUnmarked.radix rfl
  rw [← word?_eq_none_iff hmark]
  constructor
  · intro hlex
    by_contra hword
    obtain ⟨rest, hword⟩ := Option.ne_none_iff_exists'.mp hword
    rw [lexChars_of_next? h.ne_nil (next?_of_word? hword)] at hlex
    cases hlex
  · intro hword
    rw [lexChars_of_next? h.ne_nil (next?_of_isMagnitude h hword), lexChars_nil]

end Lexer

/-! ## Displayed numbers -/

open Lexer Calculator

/-- A number is pushed where it was written in the calculator's radix. -/
theorem Calculator.perform_pushInput_write (m : Calculator) (q : ℚ) :
    m.perform (.pushInput (String.ofList (m.config.radix.write q)) .absent) =
      .ok (m.pushEntry { expr := .num q }) := by
  have hread := readText_displayed m.config m.config.radix q
  rw [displayed, if_pos rfl, if_pos rfl] at hread
  rw [perform, pushInput, hread]
  rfl

/-- A number that is not negative is displayed as a text that is lexed into one number, the whole
text, exactly if it does not begin with an operator or command word that no word character follows.
Carried out in a calculator with the radix, such a text pushes the number. -/
theorem lex_write (R : Radix) (h0 : 0 ≤ q) :
    ∃ t, Display.render R .exact (.num q) = .ok t ∧
      (lex R t = ([.number t], none) ↔ ¬BeginsWithWord t.toList) ∧
      (¬BeginsWithWord t.toList → ∀ m : Calculator, m.config.radix = R →
        m.feedLine R t =
          { calculator := m.commit (m.stack ++ [{ expr := .num q }]) m.selection }) := by
  obtain ⟨body, hbody, hwrite⟩ := R.write_eq_signed q
  have hmagnitude : R.IsMagnitude (R.write q) := by
    rwa [hwrite, Radix.signed, if_neg (not_lt.mpr h0)]
  have hlex : lex R (String.ofList (R.write q)) = ([.number (String.ofList (R.write q))], none) ↔
      ¬BeginsWithWord (R.write q) := by
    rw [lex, String.toList_ofList]
    exact lexChars_eq_number_iff hmagnitude
  refine ⟨_, Radix.render_num q, by rwa [String.toList_ofList], ?_⟩
  rintro hword m rfl
  rw [String.toList_ofList] at hword
  rw [Calculator.feedLine, hlex.mpr hword]
  simp only [Calculator.feedAll, Calculator.actionOf?, m.perform_pushInput_write]
  rfl

/-- The hexadecimal text `add1/7` begins with the letters of a word, but a word character follows
them. -/
theorem lex_write_addOne :
    (0 : ℚ) ≤ 44497 / 7 ∧ ∃ t, Display.render ⟨16, by decide, by decide⟩ .exact (.num (44497 / 7)) =
      .ok t ∧
      ¬BeginsWithWord t.toList ∧ lex ⟨16, by decide, by decide⟩ t = ([.number t], none) := by
  have h0 : (0 : ℚ) ≤ 44497 / 7 := by decide +kernel
  obtain ⟨t, ht, hlex, -⟩ := lex_write ⟨16, by decide, by decide⟩ h0
  have hrender := Radix.render_num (R := ⟨16, by decide, by decide⟩) (44497 / 7)
  have hwrite : Radix.write ⟨16, by decide, by decide⟩ (44497 / 7) = "add1/7".toList := by
    decide +kernel
  rw [ht, hwrite, String.ofList_toList] at hrender
  obtain rfl := Except.ok.inj hrender
  have hword : ¬BeginsWithWord "add1/7".toList := by
    rw [← word?_eq_none_iff (by decide)]
    decide
  exact ⟨h0, _, ht, hword, hlex.mpr hword⟩

/-- In hexadecimal `2781/7` is displayed as `add/7`, which is no operator or command word and is
lexed into three lexemes: the operator, the fraction bar and a number. -/
theorem lex_add_sevenths :
    Display.render ⟨16, by decide, by decide⟩ .exact (.num (2781 / 7)) = .ok "add/7" ∧
    "add/7" ∉ words ∧
      lex ⟨16, by decide, by decide⟩ "add/7" =
        ([.name "add", .operator "/", .number "7"], none) := by
  have hwrite : Radix.write ⟨16, by decide, by decide⟩ (2781 / 7) = "add/7".toList := by
    decide +kernel
  refine ⟨by rw [Radix.render_num, hwrite, String.ofList_toList], by decide, ?_⟩
  have hadd : next? ⟨16, by decide, by decide⟩ "add/7".toList =
      some (.name "add", "/7".toList) := by
    decide +kernel
  have hbar : next? ⟨16, by decide, by decide⟩ "/7".toList = some (.operator "/", "7".toList) := by
    decide +kernel
  have hseven : next? ⟨16, by decide, by decide⟩ "7".toList = some (.number "7", []) := by
    decide +kernel
  rw [lex, lexChars_of_next? (by decide) hadd, lexChars_of_next? (by decide) hbar,
    lexChars_of_next? (by decide) hseven, lexChars_nil]

end StackAlgebra
