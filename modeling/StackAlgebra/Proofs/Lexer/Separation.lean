import StackAlgebra.Proofs.Lexer.Quotation
import StackAlgebra.Proofs.Text.CharRange

/-!
# Spaces separate

No lexeme but a quoted name goes past a space, and a quoted name ends at its quote. So the first
lexeme of a text that does not begin with a space stays the same when a space and more text follow
(`next?_append_of_isSpace`), and spaces themselves mean nothing (`feedables_cons_of_isSpace`). Hence
texts that are lexed to their ends give the same lexemes one by one and with spaces between them
(`lex_append_space`).
-/

namespace StackAlgebra

variable {R : Radix} {c : Char} {cs rest : List Char}

namespace Lexer

open Pattern

/-! ## What a space is not -/

/-- A space is no word character. -/
theorem not_isWord_of_isSpace (h : isSpace c = true) : isWord c = false := by
  rw [Bool.eq_false_iff]
  intro hword
  have hblank := not_blank_of_isWord hword
  rw [isBlank, h] at hblank
  cases hblank

/-- So no name begins with a space. -/
theorem not_isNameStart_of_isSpace (h : isSpace c = true) : isNameStart c = false := by
  rw [isNameStart, not_isWord_of_isSpace h]
  rfl

/-- So a space is no letter. -/
theorem not_isLetter_of_isSpace (h : isSpace c = true) : isLetter c = false := by
  rw [isLetter, not_isNameStart_of_isSpace h]
  rfl

/-- A space is none of given characters that are no spaces. -/
theorem not_mem_of_isSpace {ds : List Char} (h : isSpace c = true)
    (hds : ds.all (fun d => !isSpace d) = true) :
    c ∉ ds := by
  intro hc
  have hcs := List.all_eq_true.mp hds c hc
  rw [h] at hcs
  cases hcs

/-- A space is no digit in any radix. -/
theorem not_isAny_of_isSpace (h : isSpace c = true) : Digit.isAny c = false := by
  have halphabet : c ∉ Digit.alphabet := not_mem_of_isSpace h (by decide)
  simpa [Digit.isAny] using halphabet

/-- A space is none of the other characters with a meaning in numbers and quotations. -/
theorem ne_mark_of_isSpace (h : isSpace c = true) :
    ∀ d ∈ ['.', '/', '-', '#', 'e', 'ᴇ', '\''], c ≠ d :=
  fun _ hd hcd => not_mem_of_isSpace h (by decide) (hcd ▸ hd)

/-- No word has a space in it. -/
theorem not_mem_words_of_isSpace (h : isSpace c = true) {w : String} (hw : w ∈ words) :
    c ∉ w.toList :=
  not_mem_of_isSpace h
    (List.all_eq_true.mp
      (by decide +kernel : words.all (fun w => w.toList.all fun d => !isSpace d) = true) w hw)

/-! ## Numbers stop at a space -/

/-- No number in a radix of its own goes past a space. -/
theorem stopsAt_prefixed (h : isSpace c = true) : StopsAt c prefixed := by
  have hmark := ne_mark_of_isSpace h
  have hany : Digit.isAny c = false := not_isAny_of_isSpace h
  have hletter : StopsAt c (one isLetter) := stopsAt_one (not_isLetter_of_isSpace h)
  have hradix : StopsAt c (seq [one isLetter, one isLetter, one isLetter]) :=
    hletter.andThen (hletter.andThen (hletter.andThen stopsAt_empty))
  have hsign : StopsAt c (opt (char '-')) := (stopsAt_char (hmark _ (by simp))).opt
  refine (hradix.orElse (stopsAt_one hany)).andThen ((stopsAt_char (hmark _ (by simp))).andThen
    (hsign.andThen ((stopsAt_many hany).andThen (?_ : StopsAt c (seq [_, _, _])))))
  -- The point, the fraction bar and the exponent mark begin what is left out at a space.
  refine StopsAt.andThen ?_ (StopsAt.andThen ?_ (StopsAt.andThen ?_ stopsAt_empty))
  · exact ((stopsAt_char (hmark _ (by simp))).andThen
        ((stopsAt_many hany).andThen stopsAt_empty)).opt
  · exact ((stopsAt_char (hmark _ (by simp))).andThen
        ((stopsAt_many1 hany).andThen stopsAt_empty)).opt
  · exact ((stopsAt_char (hmark _ (by simp [Radix.exponentMark]))).andThen
      (hsign.andThen ((stopsAt_many1 hany).andThen stopsAt_empty))).opt

/-- No number in the current radix goes past a space. -/
theorem stopsAt_plain (h : isSpace c = true) : StopsAt c (plain R) := by
  have hmark := ne_mark_of_isSpace h
  have hdigit : R.isDigit c = false := not_isDigit_of_not_isAny (not_isAny_of_isSpace h)
  have hpoint : StopsAt c (char '.') := stopsAt_char (hmark _ (by simp))
  have hdigits : StopsAt c (many1 R.isDigit) := stopsAt_many1 hdigit
  have hfractional : StopsAt c (opt (seq [char '.', many R.isDigit])) :=
    (hpoint.andThen ((stopsAt_many hdigit).andThen stopsAt_empty)).opt
  have hexponent : isExponentMark R c = false := by
    have he : c ≠ 'e' := hmark _ (by simp)
    have hE : c ≠ Radix.exponentMark := hmark _ (by simp [Radix.exponentMark])
    simp [isExponentMark, he, hE]
  refine StopsAt.andThen ?_ (StopsAt.andThen ?_ (StopsAt.andThen ?_ stopsAt_empty))
  · exact (hdigits.andThen (hfractional.andThen stopsAt_empty)).orElse
      (hpoint.andThen (hdigits.andThen stopsAt_empty))
  · exact ((stopsAt_char (hmark _ (by simp))).andThen
      (hdigits.andThen (hfractional.andThen stopsAt_empty))).opt
  · exact ((stopsAt_one hexponent).andThen
      ((stopsAt_char (hmark _ (by simp))).opt.andThen (hdigits.andThen stopsAt_empty))).opt

/-- No number goes past a space. -/
theorem stopsAt_number (h : isSpace c = true) : StopsAt c (number R) := by
  refine ((stopsAt_prefixed h).orElse (stopsAt_plain h)).before fun mid rest => ?_
  -- Neither at the end of the text nor at a space does anything follow that a number cannot end at.
  cases mid with
  | nil =>
    have hnumber : c ≠ '#' := ne_mark_of_isSpace h _ (by simp)
    have hpoint : c ≠ '.' := ne_mark_of_isSpace h _ (by simp)
    simp [endsNumber, startsWith, not_isWord_of_isSpace h, hnumber, hpoint]
  | cons d mid => rfl

/-- No name goes past a space. -/
theorem stopsAt_name (h : isSpace c = true) : StopsAt c name :=
  (stopsAt_one (not_isNameStart_of_isSpace h)).andThen (stopsAt_many (not_isWord_of_isSpace h))

/-! ## Words stop at a space -/

/-- A given beginning is found in front of a character that is not in it, or not at all. -/
theorem after?_append_of_not_mem {ws : List Char} (h : c ∉ ws) (cs rest : List Char) :
    after? ws (cs ++ c :: rest) = (after? ws cs).map (· ++ c :: rest) := by
  induction ws generalizing cs with
  | nil => rfl
  | cons w ws ih =>
    rw [List.mem_cons, not_or] at h
    cases cs with
    | nil => exact if_neg (Ne.symm h.1)
    | cons d cs =>
      rw [List.cons_append, after?, after?]
      split
      · exact ih h.2 cs
      · rfl

/-- No word goes past a space, and a space may follow it. -/
theorem word?_append_of_isSpace (h : isSpace c = true) (cs rest : List Char) :
    word? (cs ++ c :: rest) = (word? cs).map (· ++ c :: rest) := by
  have hfollow : (fun mid => !startsWith (fun c => isWord c || c = '#') mid) ∘ (· ++ c :: rest) =
      fun mid => !startsWith (fun c => isWord c || c = '#') mid := by
    funext mid
    cases mid with
    | nil =>
      have hmark : c ≠ '#' := ne_mark_of_isSpace h _ (by simp)
      simp [startsWith, not_isWord_of_isSpace h, hmark]
    | cons d mid => rfl
  rw [word?, word?, List.map_findSome?, ← List.head?_filterMap, ← List.head?_filterMap]
  congr 1
  refine List.filterMap_congr fun w hw => ?_
  rw [after?_append_of_not_mem (not_mem_words_of_isSpace h hw), Option.filter_map, hfollow,
    Function.comp_apply]

/-! ## Lexemes in front of a space -/

/-- What follows makes no difference to a quotation that is closed. -/
theorem quotedRest?_append {inner : List Char} (h : quotedRest? cs = some (inner, rest))
    (after : List Char) :
    quotedRest? (cs ++ after) = some (inner, rest ++ after) := by
  fun_induction quotedRest? cs generalizing inner with
  | case1 => cases h
  | case2 cs =>
    cases h
    rfl
  | case3 c cs ih =>
    obtain ⟨⟨inner, rest⟩, hinner, heq⟩ := Option.map_eq_some_iff.mp h
    cases heq
    rw [List.cons_append, List.cons_append, quotedRest?_backslash, ih hinner]
    rfl
  | case4 => cases h
  | case5 c cs hquote hescape hend ih =>
    obtain ⟨⟨inner, rest⟩, hinner, heq⟩ := Option.map_eq_some_iff.mp h
    cases heq
    have hc : ¬(c = '\\' ∨ c = '\'') := by
      rintro (rfl | rfl)
      · cases cs with
        | nil => exact hend rfl rfl
        | cons d cs => exact hescape d cs rfl rfl
      · exact hquote rfl
    rw [List.cons_append, quotedRest?_cons_of_ne hc, ih hinner]
    rfl

/-- Nothing is quoted where neither a quote nor a backslash stands. -/
theorem quoted?_cons_of_ne (h : ¬(c = '\\' ∨ c = '\'')) (cs : List Char) :
    quoted? (c :: cs) = none := by
  rw [not_or] at h
  rw [quoted?]
  · exact fun _ hds => h.2 (List.cons.inj hds).1
  · exact fun _ _ hds => h.1 (List.cons.inj hds).1

/-- What is quoted does not go past a space, except that a quotation which is open in front of it
may be closed behind it. -/
theorem quoted?_append_of_isSpace (h : isSpace c = true)
    (hquote : cs.head? = some '\'' → quoted? cs ≠ none) (rest : List Char) :
    quoted? (cs ++ c :: rest) = (quoted? cs).map fun (inner, left) =>
      (inner, left ++ c :: rest) := by
  cases cs with
  | nil =>
    refine quoted?_cons_of_ne ?_ rest
    rintro (rfl | rfl) <;> cases h
  | cons d cs =>
    by_cases hd : d = '\''
    · subst hd
      obtain ⟨⟨inner, left⟩, hleft⟩ := Option.ne_none_iff_exists'.mp (hquote rfl)
      rw [hleft]
      exact quotedRest?_append hleft (c :: rest)
    by_cases hd' : d = '\\'
    · subst hd'
      cases cs with
      | nil => exact if_pos h
      | cons e cs =>
        rw [List.cons_append, List.cons_append, quoted?, quoted?]
        split <;> rfl
    · have hne : ¬(d = '\\' ∨ d = '\'') := not_or.mpr ⟨hd', hd⟩
      rw [List.cons_append, quoted?_cons_of_ne hne, quoted?_cons_of_ne hne]
      rfl

/-- What a lexeme takes does not depend on what follows the text. -/
theorem taken_append_append (h : rest <:+ cs) (after : List Char) :
    taken (cs ++ after) (rest ++ after) = taken cs rest := by
  obtain ⟨text, rfl⟩ := h
  rw [List.append_assoc, taken_append, taken_append]

/-- A lexeme of one of the kinds is the same in front of more text if its end is. -/
theorem lexeme?_append {make : String → Lexeme} {rest? : Option (List Char)} (after : List Char)
    (h : ∀ rest, rest? = some rest → rest <:+ cs) :
    lexeme? make (cs ++ after) (rest?.map (· ++ after)) =
      (lexeme? make cs rest?).map fun (l, rest) => (l, rest ++ after) := by
  cases rest? with
  | none => rfl
  | some rest =>
    rw [lexeme?, lexeme?, Option.map_some, Option.map_some, Option.map_some, Option.map_some,
      taken_append_append (h rest rfl)]

/-- So is what is quoted. -/
theorem quotedLexeme?_append_of_isSpace (h : isSpace c = true)
    (hquote : cs.head? = some '\'' → quoted? cs ≠ none) (after : List Char) :
    quotedLexeme? (cs ++ c :: after) = (quotedLexeme? cs).map fun (l, rest) =>
      (l, rest ++ c :: after) := by
  rw [quotedLexeme?, quotedLexeme?, quoted?_append_of_isSpace h hquote]
  cases hquoted : quoted? cs with
  | none => rfl
  | some quoted =>
    obtain ⟨inner, rest⟩ := quoted
    have htaken := taken_append_append (quoted?_shorter hquoted).1 (c :: after)
    simp only [Option.map_some, htaken]

/-- A symbol is a single character. -/
theorem symbol?_append (hne : cs ≠ []) (after : List Char) :
    symbol? (cs ++ after) = (symbol? cs).map (· ++ after) := by
  cases cs with
  | nil => exact absurd rfl hne
  | cons d cs =>
    rw [List.cons_append, symbol?, symbol?]
    split <;> rfl

/-- No lexeme begins with a quotation that is not closed. -/
theorem quoted?_ne_none_of_next? (hquote : cs.head? = some '\'') (h : next? R cs ≠ none) :
    quoted? cs ≠ none := by
  intro hnone
  cases cs with
  | nil => cases hquote
  | cons d cs =>
    obtain rfl : d = '\'' := Option.some.inj hquote
    refine h ?_
    rw [next?_of_not_isLetter (by decide) (by decide) (by decide), quotedLexeme?, hnone]
    have hname : name.first? ('\'' :: cs) = none :=
      first?_andThen_eq_none (first?_one_eq_none fun d hd => Option.some.inj hd ▸ by decide)
    have hspaces : spaces.first? ('\'' :: cs) = none :=
      first?_andThen_eq_none (first?_one_eq_none fun d hd => Option.some.inj hd ▸ by decide)
    have hsymbol : symbol? ('\'' :: cs) = none := by
      rw [symbol?, if_neg (by decide)]
    rw [hname, hspaces, hsymbol]
    rfl

/-- A lexeme that does not begin with a space is the same in front of a space and more text. -/
theorem next?_append_of_isSpace (h : isSpace c = true) (hhead : ∀ d ∈ cs.head?, isSpace d = false)
    (hne : cs ≠ []) {l : Lexeme} (hnext : next? R cs = some (l, rest)) (after : List Char) :
    next? R (cs ++ c :: after) = some (l, rest ++ c :: after) := by
  have hquote : cs.head? = some '\'' → quoted? cs ≠ none := fun hquote =>
    quoted?_ne_none_of_next? hquote (R := R) (by simp [hnext])
  obtain ⟨d, cs, rfl⟩ := List.exists_cons_of_ne_nil hne
  have hnone : ∀ ds, spaces.first? (d :: ds) = none := fun ds =>
    first?_andThen_eq_none (first?_one_eq_none fun e he => hhead e he)
  have hspaces : spaces.first? (d :: cs ++ c :: after) =
      (spaces.first? (d :: cs)).map (· ++ c :: after) := by
    rw [List.cons_append, hnone, hnone, Option.map_none]
  have hall : next? R (d :: cs ++ c :: after) = (next? R (d :: cs)).map fun (l, rest) =>
      (l, rest ++ c :: after) := by
    rw [next?, word?_append_of_isSpace h, (stopsAt_number h).first?, (stopsAt_name h).first?,
      symbol?_append hne, hspaces, quotedLexeme?_append_of_isSpace h hquote, lexeme?_append,
      lexeme?_append, lexeme?_append, lexeme?_append, lexeme?_append, next?]
    · simp only [Option.map_or]
    · exact fun rest h => (first?_of_strict (strict_many1 isSpace) h).1
    · exact fun rest h => (symbol?_shorter h).1
    · exact fun rest h => (first?_of_strict strict_name h).1
    · exact fun rest h => (first?_of_strict (strict_number R) h).1
    · exact fun rest h => (word?_shorter h).1
  rw [hall, hnext, Option.map_some]

/-! ## Lexemes between spaces -/

/-- The lexemes of a text that are no spaces, and the error at the first place where none begins. -/
def feedables (R : Radix) (cs : List Char) : List Lexeme × Option Error :=
  ((lexChars R cs).1.filter Lexeme.isFeedable, (lexChars R cs).2)

/-- Spaces are one lexeme, and what follows them is the rest. -/
theorem next?_of_isSpace (h : isSpace c = true) (cs : List Char) :
    ∃ s, next? R (c :: cs) = some (.space s, cs.dropWhile isSpace) := by
  have hany : Digit.isAny c = false := not_isAny_of_isSpace h
  have hpoint : c ≠ '.' := ne_mark_of_isSpace h _ (by simp)
  have hquoted : quoted? (c :: cs) = none := by
    refine quoted?_cons_of_ne ?_ cs
    rintro (rfl | rfl) <;> cases h
  have hname : name.first? (c :: cs) = none :=
    first?_andThen_eq_none
      (first?_one_eq_none fun d hd => Option.some.inj hd ▸ not_isNameStart_of_isSpace h)
  have hsymbol : symbol? (c :: cs) = none := by
    rw [symbol?, if_neg]
    have hsymbols : symbols.all (fun s => s.toList.all fun d => !isSpace d) = true := by
      decide +kernel
    intro hc
    refine not_mem_of_isSpace h (List.all_eq_true.mp hsymbols _ (List.contains_iff_mem.mp hc)) ?_
    simp
  have hspaces : spaces.first? (c :: cs) = some (cs.dropWhile isSpace) :=
    first?_andThen (first?_one h cs) (first?_many_dropWhile isSpace cs)
  rw [next?_of_not_isLetter (not_isLetter_of_isSpace h) hany hpoint, quotedLexeme?, hquoted, hname,
    hsymbol, hspaces]
  exact ⟨_, rfl⟩

/-- The first lexeme counts unless it is a space. -/
theorem feedables_of_next? {l : Lexeme} (hne : cs ≠ []) (h : next? R cs = some (l, rest)) :
    feedables R cs =
      ([l].filter Lexeme.isFeedable ++ (feedables R rest).1, (feedables R rest).2) := by
  rw [feedables, lexChars_of_next? hne h, feedables, ← List.filter_append, List.singleton_append]

/-- A text that is lexed to its end has a first lexeme. -/
theorem exists_next?_of_end (hne : cs ≠ []) (h : (feedables R cs).2 = none) :
    ∃ l rest, next? R cs = some (l, rest) ∧ rest.length < cs.length := by
  cases hnext : next? R cs with
  | some lexeme => exact ⟨lexeme.1, lexeme.2, rfl, (next?_shorter hnext).2⟩
  | none =>
    rw [feedables, lexChars_of_next?_eq_none hne hnext] at h
    cases h

/-- A space in front adds nothing. -/
theorem feedables_cons_of_isSpace (h : isSpace c = true) (cs : List Char) :
    feedables R (c :: cs) = feedables R cs := by
  have hdrop (d : Char) (ds : List Char) (hd : isSpace d = true) :
      feedables R (d :: ds) = feedables R (ds.dropWhile isSpace) := by
    obtain ⟨s, hnext⟩ := next?_of_isSpace (R := R) hd ds
    exact feedables_of_next? (List.cons_ne_nil _ _) hnext
  rw [hdrop c cs h]
  cases cs with
  | nil => rfl
  | cons d ds =>
    by_cases hd : isSpace d = true
    · rw [List.dropWhile_cons_of_pos hd, hdrop d ds hd]
    · rw [List.dropWhile_cons_of_neg hd]

/-- A text that is lexed to its end gives its lexemes in front of a space, and those of what follows
come behind. -/
theorem feedables_append_of_isSpace (h : isSpace c = true) (hend : (feedables R cs).2 = none)
    (after : List Char) :
    feedables R (cs ++ c :: after) =
      ((feedables R cs).1 ++ (feedables R after).1, (feedables R after).2) := by
  -- By induction on the length, since the first lexeme may have any number of characters.
  induction hlen : cs.length using Nat.strong_induction_on generalizing cs with
  | _ n ih =>
    subst hlen
    cases cs with
    | nil =>
      rw [List.nil_append, feedables_cons_of_isSpace h, feedables, feedables, lexChars_nil]
      rfl
    | cons d cs =>
      by_cases hd : isSpace d = true
      · rw [feedables_cons_of_isSpace hd] at hend
        rw [List.cons_append, feedables_cons_of_isSpace hd, feedables_cons_of_isSpace hd]
        exact ih _ (Nat.lt_succ_self _) hend rfl
      · have hhead : ∀ e ∈ (d :: cs).head?, isSpace e = false := fun e he =>
          Option.some.inj he ▸ Bool.eq_false_iff.mpr hd
        obtain ⟨l, rest, hnext, hlt⟩ := exists_next?_of_end (List.cons_ne_nil d cs) hend
        have hfirst := feedables_of_next? (List.cons_ne_nil _ _) hnext
        rw [hfirst] at hend ⊢
        rw [feedables_of_next? (by simp)
          (next?_append_of_isSpace h hhead (List.cons_ne_nil _ _) hnext after), ih _ hlt hend rfl,
          List.append_assoc]

/-- Texts that are lexed to their ends give their lexemes one after the other with spaces between
them, and those of whatever text comes last. -/
theorem feedables_intercalate_space {lines : List (List Char)}
    (hlines : ∀ cs ∈ lines, (feedables R cs).2 = none) (last : List Char) :
    feedables R ([' '].intercalate (lines ++ [last])) =
      ((lines ++ [last]).flatMap fun cs => (feedables R cs).1, (feedables R last).2) := by
  induction lines with
  | nil =>
    rw [List.nil_append, List.intercalate_singleton, List.flatMap_singleton]
  | cons cs lines ih =>
    obtain ⟨hend, hlines⟩ := List.forall_mem_cons.mp hlines
    rw [List.cons_append, List.intercalate_cons_of_ne_nil (by simp), List.append_assoc,
      List.singleton_append, feedables_append_of_isSpace (by decide) hend, ih hlines,
      List.flatMap_cons]

end Lexer

open Lexer

/-- Lexing composes over spaces. If a text is lexed to its end, the text with a space and another
one behind it gives the lexemes of both that are no spaces, and ends as the second does: at its end,
or with the same error. So texts that are lexed to their ends, and a last one, give the same lexemes
one by one and as a single text. -/
theorem lex_append_space (R : Radix) :
    (∀ a b : String, (lex R a).2 = none →
      (lex R (a ++ " " ++ b)).1.filter Lexeme.isFeedable =
          (lex R a).1.filter Lexeme.isFeedable ++ (lex R b).1.filter Lexeme.isFeedable ∧
        (lex R (a ++ " " ++ b)).2 = (lex R b).2) ∧
    ∀ (lines : List String) (last : String), (∀ a ∈ lines, (lex R a).2 = none) →
      (lex R (" ".intercalate (lines ++ [last]))).1.filter Lexeme.isFeedable =
          ((lines ++ [last]).flatMap fun line => (lex R line).1.filter Lexeme.isFeedable) ∧
        (lex R (" ".intercalate (lines ++ [last]))).2 = (lex R last).2 := by
  refine ⟨fun a b hend => ?_, fun lines last hlines => ?_⟩
  · have hspace := feedables_append_of_isSpace (c := ' ') (by decide) hend b.toList
    have htext : (a ++ " " ++ b).toList = a.toList ++ ' ' :: b.toList := by simp
    rw [← htext] at hspace
    exact Prod.mk.inj hspace
  · have hlines' : ∀ cs ∈ lines.map String.toList, (feedables R cs).2 = none := by
      simpa [feedables, lex] using hlines
    have hspaces := feedables_intercalate_space hlines' last.toList
    have htext : (" ".intercalate (lines ++ [last])).toList =
        [' '].intercalate (lines.map String.toList ++ [last.toList]) := by
      rw [String.toList_intercalate, List.map_append]
      rfl
    rw [← htext] at hspaces
    obtain ⟨hlexemes, hstop⟩ := Prod.mk.inj hspaces
    refine ⟨hlexemes.trans ?_, hstop⟩
    rw [List.flatMap_append, List.flatMap_append, List.flatMap_map]
    rfl

/-- Two numbers that are lexed to their ends, and an operator with an open quotation behind it. -/
theorem lex_append_space_sum :
    (lex .decimal "1").2 = none ∧ (lex .decimal "2").2 = none ∧
      (lex .decimal "1 2 +'").1.filter Lexeme.isFeedable =
        [.number "1", .number "2", .operator "+"] ∧
      (lex .decimal "1 2 +'").2 = some (.unlexable "'") := by
  have hone : next? .decimal "1".toList = some (.number "1", []) := by decide +kernel
  have htwo : next? .decimal "2".toList = some (.number "2", []) := by decide +kernel
  have hplus : next? .decimal "+'".toList = some (.operator "+", ['\'']) := by decide +kernel
  have hquote : next? .decimal ['\''] = none := by decide +kernel
  have hlexOne : lex .decimal "1" = ([.number "1"], none) := by
    rw [lex, lexChars_of_next? (by decide) hone, lexChars_nil]
  have hlexTwo : lex .decimal "2" = ([.number "2"], none) := by
    rw [lex, lexChars_of_next? (by decide) htwo, lexChars_nil]
  have hlexPlus : lex .decimal "+'" = ([.operator "+"], some (.unlexable "'")) := by
    have htrim : trim ['\''] = ['\''] := by decide
    rw [lex, lexChars_of_next? (by decide) hplus, lexChars_of_next?_eq_none (by decide) hquote,
      htrim]
  have hends : ∀ a ∈ ["1", "2"], (lex .decimal a).2 = none := by simp [hlexOne, hlexTwo]
  obtain ⟨hlexemes, hend⟩ := (lex_append_space .decimal).2 ["1", "2"] "+'" hends
  refine ⟨by rw [hlexOne], by rw [hlexTwo], hlexemes.trans ?_, hend.trans ?_⟩
  · simp only [List.cons_append, List.nil_append, List.flatMap_cons, List.flatMap_nil, hlexOne,
      hlexTwo, hlexPlus]
    decide
  · rw [hlexPlus]

end StackAlgebra
