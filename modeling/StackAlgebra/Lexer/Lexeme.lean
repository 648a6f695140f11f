import StackAlgebra.Calculator.Command
import StackAlgebra.Lexer.Pattern
import StackAlgebra.Operator
import StackAlgebra.Radix.Choice
import StackAlgebra.Text.Word

/-!
# Lexemes

A line of input falls into lexemes: words, numbers, quoted variables, names, operators and spaces,
tried in this order. A word that is an operator or a command wins over a number spelled with the
same letters, and a number over a name. Which characters are digits depends on the radix. `lex`
gives the lexemes up to the first place where none begins.
-/

namespace StackAlgebra

/-- A lexeme with its text. -/
inductive Lexeme where
  | name (text : String)
  | number (text : String)
  /-- A quoted variable, with the part of the text that is its name. -/
  | quoted (text inner : String)
  | operator (text : String)
  | space (text : String)
deriving DecidableEq

namespace Lexeme

/-- The text of a lexeme. -/
def text : Lexeme → String
  | name s | number s | quoted s _ | operator s | space s => s

/-- Spaces only separate. -/
def isFeedable : Lexeme → Bool
  | space _ => false
  | _ => true

/-- The kinds of text in a lexeme, with the texts. -/
def groups : Lexeme → List (String × String)
  | name s => [("name", s)]
  | number s => [("number", s)]
  | quoted s inner => [("str", s), ("__str__", inner)]
  | operator s => [("operator", s)]
  | space s => [("space", s)]

/-- The word that may be an operator or a command. -/
def word? : Lexeme → Option String
  | name s | operator s => some s
  | _ => none

end Lexeme

namespace Lexer

open Pattern

/-- The operators and commands spelled as words. -/
def words : List String :=
  Operator.words.map (·.1) ++ Command.words.map (·.1)

/-- The operators and commands spelled as symbols. -/
def symbols : List String :=
  Operator.symbols.map (·.1) ++ Command.symbols.map (·.1)

/-- The text after a given beginning. -/
def after? : List Char → List Char → Option (List Char)
  | [], cs => some cs
  | _ :: _, [] => none
  | w :: ws, c :: cs => if w = c then after? ws cs else none

/-- The first character passes the test, if there is one. -/
def startsWith (p : Char → Bool) : List Char → Bool
  | [] => false
  | c :: _ => p c

/-- An operator or command word that is not the beginning of a longer one, nor a radix. -/
def word? (cs : List Char) : Option (List Char) :=
  words.findSome? fun w =>
    (after? w.toList cs).filter fun rest => !startsWith (fun c => isWord c || c = '#') rest

/-- A number ends where no word character, point or number sign follows. -/
def endsNumber (rest : List Char) : Bool :=
  !startsWith (fun c => isWord c || c = '.' || c = '#') rest

/-- The digits of all radices serve in a number that names its radix. -/
def prefixed : Pattern :=
  seq [orElse (seq [one isLetter, one isLetter, one isLetter]) (one Digit.isAny), char '#',
    opt (char '-'), many Digit.isAny, opt (seq [char '.', many Digit.isAny]),
    opt (seq [char '/', many1 Digit.isAny]),
    opt (seq [char Radix.exponentMark, opt (char '-'), many1 Digit.isAny])]

/-- The marks that introduce an exponent in a radix. -/
def isExponentMark (R : Radix) (c : Char) : Bool :=
  c = Radix.exponentMark || (c = 'e' && Radix.letterMarksExponent R.val)

/-- A number in the radix itself: digits with a point among them or in front, a second such number
after a bar, an exponent. -/
def plain (R : Radix) : Pattern :=
  let digits := many1 R.isDigit
  let fractional := opt (seq [char '.', many R.isDigit])
  seq [orElse (seq [digits, fractional]) (seq [char '.', digits]),
    opt (seq [char '/', digits, fractional]),
    opt (seq [one (isExponentMark R), opt (char '-'), digits])]

/-- A number. -/
def number (R : Radix) : Pattern :=
  before (orElse prefixed (plain R)) endsNumber

/-- The inside of a quoted name, up to the quote that is not escaped, and what follows it. -/
def quotedRest? : List Char → Option (List Char × List Char)
  | [] => none
  | '\'' :: cs => some ([], cs)
  | '\\' :: c :: cs => (quotedRest? cs).map fun (inner, rest) => ('\\' :: c :: inner, rest)
  | '\\' :: [] => none
  | c :: cs => (quotedRest? cs).map fun (inner, rest) => (c :: inner, rest)

/-- A variable in quotes, or a single character after a backslash. -/
def quoted? : List Char → Option (List Char × List Char)
  | '\'' :: cs => quotedRest? cs
  | '\\' :: c :: cs => if isSpace c then none else some ([c], cs)
  | _ => none

/-- A name. -/
def name : Pattern :=
  andThen (one isNameStart) (many isWord)

/-- Spaces. -/
def spaces : Pattern :=
  many1 isSpace

/-- The beginning of `cs` that `rest` leaves over. -/
def taken (cs rest : List Char) : String :=
  String.ofList (cs.take (cs.length - rest.length))

/-- An operator or command symbol. -/
def symbol? : List Char → Option (List Char)
  | [] => none
  | c :: cs => if symbols.contains (String.singleton c) then some cs else none

/-- A lexeme of the kind `make`, if something is left over after it. -/
def lexeme? (make : String → Lexeme) (cs : List Char) (rest? : Option (List Char)) :
    Option (Lexeme × List Char) :=
  rest?.map fun rest => (make (taken cs rest), rest)

/-- A quoted variable. -/
def quotedLexeme? (cs : List Char) : Option (Lexeme × List Char) :=
  (quoted? cs).map fun (inner, rest) => (.quoted (taken cs rest) (String.ofList inner), rest)

/-- The lexeme that a text begins with, and what follows it. -/
def next? (R : Radix) (cs : List Char) : Option (Lexeme × List Char) :=
  (lexeme? .name cs (word? cs)).or <|
  (lexeme? .number cs ((number R).first? cs)).or <|
  (quotedLexeme? cs).or <|
  (lexeme? .name cs (name.first? cs)).or <|
  (lexeme? .operator cs (symbol? cs)).or <|
  lexeme? .space cs (spaces.first? cs)

/-! ## No lexeme is empty -/

/-- A prefix that was taken off stood in front. -/
theorem suffix_of_after? {ws cs rest : List Char} (h : after? ws cs = some rest) :
    cs = ws ++ rest := by
  induction ws generalizing cs with
  | nil => simpa [after?] using h
  | cons w ws ih =>
    match cs with
    | [] => simp [after?] at h
    | c :: cs =>
      simp only [after?] at h
      split at h
      · rename_i hc
        subst hc
        rw [ih h, List.cons_append]
      · simp at h

/-- No word is empty. -/
theorem words_nonempty : ∀ w ∈ words, w.toList ≠ [] := by
  decide

/-- Reading a word leaves over a shorter end of the text. -/
theorem word?_shorter {cs rest : List Char} (h : word? cs = some rest) :
    rest <:+ cs ∧ rest.length < cs.length := by
  obtain ⟨w, hw, h⟩ := List.exists_of_findSome?_eq_some h
  have h := suffix_of_after? (Option.filter_eq_some_iff.mp h).1
  have hl : w.toList ≠ [] := words_nonempty w hw
  subst h
  refine ⟨List.suffix_append _ _, ?_⟩
  have := List.length_pos_iff.mpr hl
  simp only [List.length_append]
  omega

/-- A number with a radix prefix is not empty. -/
theorem strict_prefixed : Strict prefixed := by
  refine strict_seq (strict_orElse (strict_seq (strict_one _) ?_) (strict_one _)) ?_
  · intro b hb
    simp only [List.mem_cons, List.not_mem_nil, or_false] at hb
    rcases hb with rfl | rfl <;> exact (strict_one _).suffix
  · intro b hb
    simp only [List.mem_cons, List.not_mem_nil, or_false] at hb
    rcases hb with rfl | rfl | rfl | rfl | rfl | rfl
    · exact (strict_char _).suffix
    · exact suffix_opt (strict_char _).suffix
    · exact suffix_many _
    · exact suffix_opt
        (strict_seq (strict_char _) fun b hb => List.mem_singleton.mp hb ▸ suffix_many _).suffix
    · exact suffix_opt
        (strict_seq (strict_char _) fun b hb =>
          List.mem_singleton.mp hb ▸ (strict_many1 _).suffix).suffix
    · refine suffix_opt (strict_seq (strict_char _) fun b hb => ?_).suffix
      simp only [List.mem_cons, List.not_mem_nil, or_false] at hb
      rcases hb with rfl | rfl
      · exact suffix_opt (strict_char _).suffix
      · exact (strict_many1 _).suffix

/-- A number without a prefix is not empty. -/
theorem strict_plain (R : Radix) : Strict (plain R) := by
  have hf : Suffix (opt (seq [char '.', many R.isDigit])) :=
    suffix_opt
      (strict_seq (strict_char _) fun b hb => List.mem_singleton.mp hb ▸ suffix_many _).suffix
  have hd : Strict (many1 R.isDigit) := strict_many1 _
  refine strict_seq (strict_orElse (strict_seq hd ?_) (strict_seq (strict_char _) ?_)) ?_
  · exact fun b hb => List.mem_singleton.mp hb ▸ hf
  · exact fun b hb => List.mem_singleton.mp hb ▸ hd.suffix
  · intro b hb
    simp only [List.mem_cons, List.not_mem_nil, or_false] at hb
    rcases hb with rfl | rfl
    · refine suffix_opt (strict_seq (strict_char _) fun b hb => ?_).suffix
      simp only [List.mem_cons, List.not_mem_nil, or_false] at hb
      rcases hb with rfl | rfl
      · exact hd.suffix
      · exact hf
    · refine suffix_opt (strict_seq (strict_one _) fun b hb => ?_).suffix
      simp only [List.mem_cons, List.not_mem_nil, or_false] at hb
      rcases hb with rfl | rfl
      · exact suffix_opt (strict_char _).suffix
      · exact hd.suffix

/-- No number is empty. -/
theorem strict_number (R : Radix) : Strict (number R) :=
  strict_before (strict_orElse strict_prefixed (strict_plain R)) _

/-- No name is empty. -/
theorem strict_name : Strict name :=
  strict_andThen (strict_one _) (suffix_many _)

/-- Reading up to the closing quotation mark leaves over a shorter end of the text. -/
theorem quotedRest?_shorter {cs inner rest : List Char} (h : quotedRest? cs = some (inner, rest)) :
    rest <:+ cs ∧ rest.length < cs.length := by
  fun_induction quotedRest? cs generalizing inner rest with
  | case1 => simp at h
  | case2 cs =>
    simp only [Option.some.injEq, Prod.mk.injEq] at h
    rw [← h.2]
    exact ⟨List.suffix_cons _ _, Nat.lt_succ_self _⟩
  | case3 c cs ih =>
    obtain ⟨⟨i, r⟩, hr, he⟩ := Option.map_eq_some_iff.mp h
    simp only [Prod.mk.injEq] at he
    obtain ⟨h₁, h₂⟩ := ih hr
    rw [← he.2]
    exact ⟨h₁.trans ((List.suffix_cons _ _).trans (List.suffix_cons _ _)), by
      simp only [List.length_cons]
      omega⟩
  | case4 => simp at h
  | case5 c cs _ _ _ ih =>
    obtain ⟨⟨i, r⟩, hr, he⟩ := Option.map_eq_some_iff.mp h
    simp only [Prod.mk.injEq] at he
    obtain ⟨h₁, h₂⟩ := ih hr
    rw [← he.2]
    exact ⟨h₁.trans (List.suffix_cons _ _), by
      simp only [List.length_cons]
      omega⟩

/-- Reading a quotation leaves over a shorter end of the text. -/
theorem quoted?_shorter {cs inner rest : List Char} (h : quoted? cs = some (inner, rest)) :
    rest <:+ cs ∧ rest.length < cs.length := by
  unfold quoted? at h
  split at h
  · obtain ⟨h₁, h₂⟩ := quotedRest?_shorter h
    exact ⟨h₁.trans (List.suffix_cons _ _), by
      simp only [List.length_cons]
      omega⟩
  · split at h
    · simp at h
    · simp only [Option.some.injEq, Prod.mk.injEq] at h
      rw [← h.2]
      exact ⟨(List.suffix_cons _ _).trans (List.suffix_cons _ _), by
        simp only [List.length_cons]
        omega⟩
  · simp at h

/-- Reading an operator sign leaves over a shorter end of the text. -/
theorem symbol?_shorter {cs rest : List Char} (h : symbol? cs = some rest) :
    rest <:+ cs ∧ rest.length < cs.length := by
  unfold symbol? at h
  split at h
  · simp at h
  · split at h
    · simp only [Option.some.injEq] at h
      rw [← h]
      exact ⟨List.suffix_cons _ _, Nat.lt_succ_self _⟩
    · simp at h

/-- A lexeme takes something from the text. -/
theorem next?_shorter {R : Radix} {cs rest : List Char} {l : Lexeme}
    (h : next? R cs = some (l, rest)) : rest <:+ cs ∧ rest.length < cs.length := by
  have lexeme : ∀ {make : String → Lexeme} {rest? : Option (List Char)},
      (∀ r, rest? = some r → r <:+ cs ∧ r.length < cs.length) →
        lexeme? make cs rest? = some (l, rest) → rest <:+ cs ∧ rest.length < cs.length := by
    intro make rest? hr h
    obtain ⟨r, hr', he⟩ := Option.map_eq_some_iff.mp h
    simp only [Prod.mk.injEq] at he
    rw [← he.2]
    exact hr r hr'
  unfold next? at h
  rcases Option.or_eq_some_iff.mp h with h | ⟨_, h⟩
  · exact lexeme (fun r => word?_shorter) h
  rcases Option.or_eq_some_iff.mp h with h | ⟨_, h⟩
  · exact lexeme (fun r => first?_of_strict (strict_number R)) h
  rcases Option.or_eq_some_iff.mp h with h | ⟨_, h⟩
  · obtain ⟨⟨i, r⟩, hr, he⟩ := Option.map_eq_some_iff.mp h
    simp only [Prod.mk.injEq] at he
    rw [← he.2]
    exact quoted?_shorter hr
  rcases Option.or_eq_some_iff.mp h with h | ⟨_, h⟩
  · exact lexeme (fun r => first?_of_strict strict_name) h
  rcases Option.or_eq_some_iff.mp h with h | ⟨_, h⟩
  · exact lexeme (fun r => symbol?_shorter) h
  · exact lexeme (fun r => first?_of_strict (strict_many1 isSpace)) h

/-- The lexemes of a text, and the error at the first place where none begins. -/
def lexChars (R : Radix) (cs : List Char) : List Lexeme × Option Error :=
  if cs.isEmpty then ([], none)
  else
    match _h : next? R cs with
    | none => ([], some (.unlexable (String.ofList (trim cs))))
    | some (l, rest) =>
      let (ls, error?) := lexChars R rest
      (l :: ls, error?)
termination_by cs.length
decreasing_by exact (next?_shorter _h).2

end Lexer

/-- The lexemes of a line, and the error at the first place where none begins. -/
def lex (R : Radix) (line : String) : List Lexeme × Option Error :=
  Lexer.lexChars R line.toList

end StackAlgebra
