/-!
# Patterns

A pattern says how a text may begin. It is the list of all texts that can be left over after such a
beginning, in order of preference: the first is what a reader takes who tries longer repetitions
before shorter ones and earlier alternatives before later ones, and the others are what that reader
falls back on when what follows does not fit. What is left over is always an end of the text
(`Pattern.Suffix`), and a shorter one where the pattern takes something (`Pattern.Strict`).
-/

namespace StackAlgebra

/-- How a text may begin, by what may be left over. -/
abbrev Pattern := List Char → List (List Char)

namespace Pattern

/-- One character of a class. -/
def one (p : Char → Bool) : Pattern
  | [] => []
  | c :: cs => if p c then [cs] else []

/-- A given character. -/
def char (c : Char) : Pattern :=
  one (· = c)

/-- Nothing. -/
def empty : Pattern :=
  fun cs => [cs]

/-- First `a`, then `b`. -/
def andThen (a b : Pattern) : Pattern :=
  fun cs => (a cs).flatMap b

/-- `a`, or else `b`. -/
def orElse (a b : Pattern) : Pattern :=
  fun cs => a cs ++ b cs

/-- All patterns one after the other. -/
def seq : List Pattern → Pattern
  | [] => empty
  | a :: as => andThen a (seq as)

/-- `a` or nothing. -/
def opt (a : Pattern) : Pattern :=
  orElse a empty

/-- Any number of characters of a class, as many as possible first. -/
def many (p : Char → Bool) : Pattern
  | [] => [[]]
  | c :: cs => if p c then many p cs ++ [c :: cs] else [c :: cs]

/-- One or more characters of a class. -/
def many1 (p : Char → Bool) : Pattern :=
  andThen (one p) (many p)

/-- `a`, if what is left over passes the test. -/
def before (a : Pattern) (test : List Char → Bool) : Pattern :=
  fun cs => (a cs).filter test

/-- What the reader leaves over, if the text begins as the pattern says. -/
def first? (a : Pattern) (cs : List Char) : Option (List Char) :=
  (a cs).head?

/-! ## What is left over -/

/-- The pattern leaves over an end of the text. -/
def Suffix (a : Pattern) : Prop :=
  ∀ cs, ∀ rest ∈ a cs, rest <:+ cs

/-- The pattern leaves over less than the text. -/
def Strict (a : Pattern) : Prop :=
  ∀ cs, ∀ rest ∈ a cs, rest <:+ cs ∧ rest.length < cs.length

/-- A strict pattern leaves over an end of the text. -/
theorem Strict.suffix {a : Pattern} (h : Strict a) : Suffix a :=
  fun cs rest hr => (h cs rest hr).1

/-- A character of a class is a strict pattern. -/
theorem strict_one (p : Char → Bool) : Strict (one p) := by
  intro cs rest h
  match cs with
  | [] => simp [one] at h
  | c :: cs =>
    simp only [one] at h
    split at h
    · rw [List.mem_singleton] at h
      subst h
      exact ⟨List.suffix_cons _ _, Nat.lt_succ_self _⟩
    · simp at h

/-- A single character is a strict pattern. -/
theorem strict_char (c : Char) : Strict (char c) :=
  strict_one _

/-- The empty pattern leaves over the text itself. -/
theorem suffix_empty : Suffix empty := by
  intro cs rest h
  exact List.mem_singleton.mp h ▸ List.suffix_refl _

/-- One pattern after another leaves over an end of the text. -/
theorem suffix_andThen {a b : Pattern} (ha : Suffix a) (hb : Suffix b) : Suffix (andThen a b) := by
  intro cs rest h
  obtain ⟨mid, hm, hr⟩ := List.mem_flatMap.mp h
  exact (hb mid rest hr).trans (ha cs mid hm)

/-- One pattern after another is strict if the first one is. -/
theorem strict_andThen {a b : Pattern} (ha : Strict a) (hb : Suffix b) : Strict (andThen a b) := by
  intro cs rest h
  obtain ⟨mid, hm, hr⟩ := List.mem_flatMap.mp h
  obtain ⟨h₁, h₂⟩ := ha cs mid hm
  have h₃ := hb mid rest hr
  exact ⟨h₃.trans h₁, Nat.lt_of_le_of_lt h₃.length_le h₂⟩

/-- Either of two patterns leaves over an end of the text. -/
theorem suffix_orElse {a b : Pattern} (ha : Suffix a) (hb : Suffix b) : Suffix (orElse a b) := by
  intro cs rest h
  rcases List.mem_append.mp h with h | h
  · exact ha cs rest h
  · exact hb cs rest h

/-- Either of two strict patterns is strict. -/
theorem strict_orElse {a b : Pattern} (ha : Strict a) (hb : Strict b) : Strict (orElse a b) := by
  intro cs rest h
  rcases List.mem_append.mp h with h | h
  · exact ha cs rest h
  · exact hb cs rest h

/-- A pattern or nothing leaves over an end of the text. -/
theorem suffix_opt {a : Pattern} (ha : Suffix a) : Suffix (opt a) :=
  suffix_orElse ha suffix_empty

/-- Any number of characters leaves over an end of the text. -/
theorem suffix_many (p : Char → Bool) : Suffix (many p) := by
  intro cs
  induction cs with
  | nil => simp [many]
  | cons c cs ih =>
    intro rest h
    simp only [many] at h
    split at h
    · rcases List.mem_append.mp h with h | h
      · exact (ih rest h).trans (List.suffix_cons _ _)
      · exact List.mem_singleton.mp h ▸ List.suffix_refl _
    · exact List.mem_singleton.mp h ▸ List.suffix_refl _

/-- One or more characters are a strict pattern. -/
theorem strict_many1 (p : Char → Bool) : Strict (many1 p) :=
  strict_andThen (strict_one p) (suffix_many p)

/-- Patterns in a row leave over an end of the text. -/
theorem suffix_seq {as : List Pattern} (h : ∀ a ∈ as, Suffix a) : Suffix (seq as) := by
  induction as with
  | nil => exact suffix_empty
  | cons a as ih =>
    exact suffix_andThen (h a List.mem_cons_self) (ih fun b hb => h b (List.mem_cons_of_mem _ hb))

/-- Patterns in a row are strict if the first one is. -/
theorem strict_seq {a : Pattern} {as : List Pattern} (ha : Strict a) (h : ∀ b ∈ as, Suffix b) :
    Strict (seq (a :: as)) :=
  strict_andThen ha (suffix_seq h)

/-- A test of what follows keeps a pattern strict. -/
theorem strict_before {a : Pattern} (ha : Strict a) (test : List Char → Bool) :
    Strict (before a test) :=
  fun cs rest h => ha cs rest (List.mem_filter.mp h).1

/-- A reader of a strict pattern leaves over a shorter end of the text. -/
theorem first?_of_strict {a : Pattern} (ha : Strict a) {cs rest : List Char}
    (h : a.first? cs = some rest) : rest <:+ cs ∧ rest.length < cs.length :=
  ha cs rest (List.mem_of_mem_head? h)

end Pattern
end StackAlgebra
