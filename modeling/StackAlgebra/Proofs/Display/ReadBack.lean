import StackAlgebra.Proofs.Display.Quotient

/-!
# What is shown is read back

One lemma for each way in which exact display puts texts together says that the reader takes them
apart: calls and parentheses (`ReadsFull.call`, `ReadsFull.paren`), powers (`ReadsAtom.power`),
fractions (`Quotient.IsLegible.readsTerm`), sums (`readsFull_total`) and remainders
(`ReadsAtom.mod`). Each is about a text with anything behind it that does not go on with what has
been read (`Stops`, `Ends`), and leaves that behind. Nothing is assumed here of the expressions but
that their parts are read back.
-/

namespace StackAlgebra.Display

open Budgeted (EndsWith spent known)
open StackAlgebra.Expr (num coefficientOf nonNumbers)

variable {R : Radix} {e f b x y : Expr} {cs ds s : List Char} {c : Char}
  {marks : List Char} {v : Quotient}

/-! ## Marks -/

/-- A mark is taken off. -/
@[simp] theorem after?_cons (c : Char) (cs : List Char) : after? [c] (c :: cs) = some cs := by
  simp [after?, List.isPrefixOf?]

/-- Another character is no such mark. -/
theorem after?_of_ne {d : Char} (h : c ≠ d) (cs : List Char) : after? [c] (d :: cs) = none := by
  simp [after?, List.isPrefixOf?, h]

/-- A mark that has to stand there does. -/
@[simp] theorem expect_cons (c : Char) (cs : List Char) : expect [c] (c :: cs) = pure cs := by
  simp [expect]

/-- A text that ends, or goes on with neither a word, a parenthesis nor one of the marks. -/
def Stops (marks s : List Char) : Prop :=
  ∀ c ∈ s.head?, isToken c = false ∧ c ∉ '(' :: marks

/-- A text ends at its end. -/
theorem stops_nil : Stops marks [] := by
  simp [Stops]

/-- A text stops at a character that is neither part of a word nor a mark. -/
theorem stops_cons (ht : isToken c = false) (hm : c ∉ '(' :: marks) : Stops marks (c :: s) := by
  simpa [Stops] using ⟨ht, by simpa using hm⟩

/-- A parenthesis does not stand in a word. -/
theorem not_isToken_paren : isToken '(' = false ∧ isToken ')' = false := by
  decide

/-- A dot does not stand in a word. -/
theorem not_isToken_dot : isToken '·' = false := by
  decide +kernel

/-- What stops for several marks stops for some of them. -/
theorem Stops.mono {marks' : List Char} (h : Stops marks s) (hm : ∀ c ∈ marks', c ∈ marks) :
    Stops marks' s := by
  intro c hc
  obtain ⟨ht, hn⟩ := h c hc
  refine ⟨ht, fun hc => hn ?_⟩
  rcases List.mem_cons.mp hc with rfl | hc
  · exact List.mem_cons_self
  · exact List.mem_cons_of_mem _ (hm c hc)

/-- None of the marks stands where the text stops. -/
theorem Stops.after? (h : Stops marks s) (hc : c ∈ '(' :: marks) : after? [c] s = none := by
  cases s with
  | nil => rfl
  | cons d s =>
    refine after?_of_ne ?_ s
    rintro rfl
    exact (h c rfl).2 hc

/-- A word ends where no other character of one stands. -/
theorem span_token (hw : cs.all isToken = true) (h : ∀ c ∈ s.head?, isToken c = false) :
    (cs ++ s).takeWhile isToken = cs ∧ (cs ++ s).dropWhile isToken = s := by
  have hs : s.takeWhile isToken = [] ∧ s.dropWhile isToken = s := by
    cases s with
    | nil => exact ⟨rfl, rfl⟩
    | cons c s =>
      have hc : isToken c = false := h c rfl
      exact ⟨List.takeWhile_cons_of_neg (by simp [hc]), List.dropWhile_cons_of_neg (by simp [hc])⟩
  rw [List.all_eq_true] at hw
  rw [List.takeWhile_append_of_pos hw, List.dropWhile_append_of_pos hw, hs.1, hs.2, List.append_nil]
  exact ⟨rfl, rfl⟩

/-! ## What is read -/

/-- The text is read as an atom, whatever stands behind it. -/
def ReadsAtom (R : Radix) (cs : List Char) (e : Expr) : Prop :=
  ∀ s, Stops [] s → EndsWith (fun n => readAtom R n (cs ++ s)) (.ok (e, s))

/-- The text is read as a factor. -/
def ReadsFactor (R : Radix) (cs : List Char) (e : Expr) : Prop :=
  ∀ s, Stops ['^'] s → EndsWith (fun n => readFactor R n (cs ++ s)) (.ok (e, s))

/-- A text behind an expression: nothing of it goes on with the expression. -/
structure Ends (s : List Char) : Prop where
  stops : Stops ['^', '·', '/', '+', '-'] s
  not_mod : after? [' ', 'm', 'o', 'd', ' '] s = none

/-- The text is read as an expression. -/
def ReadsFull (R : Radix) (cs : List Char) (e : Expr) : Prop :=
  ∀ s, Ends s → EndsWith (fun n => readFull R n (cs ++ s)) (.ok (e, s))

/-- A closing character ends an expression. -/
theorem ends_cons (ht : isToken c = false) (hm : c ∉ ['(', '^', '·', '/', '+', '-', ' ']) :
    Ends (c :: s) := by
  refine ⟨stops_cons ht fun h => hm ?_, ?_⟩
  · simp only [List.mem_cons, List.not_mem_nil, or_false] at h ⊢
    tauto
  · have hc : c ≠ ' ' := fun h => hm (by simp [h])
    simp [Display.after?, List.isPrefixOf?, hc.symm]

/-- No sign of a further term stands where an expression ends. -/
theorem Ends.splitTermSign (h : Ends s) : splitTermSign s = none := by
  unfold Display.splitTermSign
  split
  · exact absurd (h.stops _ rfl).2 (by decide)
  · exact absurd (h.stops _ rfl).2 (by decide)
  · rfl

/-- An expression ends where the text does. -/
theorem ends_nil : Ends [] := ⟨stops_nil, rfl⟩

/-- A closing parenthesis ends an expression. -/
theorem ends_close : Ends (')' :: s) := ends_cons (by decide) (by decide)

/-- A measure ends the angle in front of it. -/
theorem ends_measure (M : AngleMeasure) (s : List Char) : Ends (' ' :: M.name.toList ++ s) := by
  refine ⟨stops_cons (by decide) (by decide), ?_⟩
  cases M <;> simp [AngleMeasure.name, Display.after?, List.isPrefixOf?]

/-- A parenthesis is closed behind an expression. -/
theorem endsWith_close (e : Expr) (s : List Char) :
    EndsWith (fun _ => close e (')' :: s)) (.ok (e, s)) := by
  have hblank : Display.after? [' '] (')' :: s) = none := after?_of_ne (by decide) s
  cases e <;> (simp only [close, hblank, expect_cons]; exact .pure _)

/-- A parenthesis is closed behind a measure, which replaces the one of the function in front of
it. -/
theorem endsWith_close_measure {name : String} (hname : name.toList.all isToken = true)
    (f : AngleFunction) (x : Expr) (m : Option String) (s : List Char) :
    EndsWith (fun _ => close (.angle f x m) (' ' :: name.toList ++ ')' :: s))
      (.ok (.angle f x (some name), s)) := by
  obtain ⟨htake, hdrop⟩ := span_token hname (s := ')' :: s) (by simp [not_isToken_paren])
  simp only [close, List.cons_append, after?_cons, htake, hdrop, expect_cons, String.ofList_toList]
  exact .pure _

/-- Parentheses are taken off. -/
theorem ReadsFull.paren (h : ReadsFull R cs e) : ReadsAtom R ('(' :: cs ++ [')']) e := by
  intro s _
  apply EndsWith.of_succ
  simp only [readAtom, List.cons_append, after?_cons, List.append_assoc, List.nil_append]
  exact (h _ ends_close).bind (endsWith_close e s)

/-- A measure behind a function that gives an angle. -/
theorem ReadsFull.paren_measure {f : AngleFunction} {m : Option String} (M : AngleMeasure)
    (hname : M.name.toList.all isToken = true) (h : ReadsFull R cs (.angle f x m)) :
    ReadsAtom R ('(' :: cs ++ ' ' :: M.name.toList ++ [')']) (.angle f x (some M.name)) := by
  intro s _
  apply EndsWith.of_succ
  simp only [readAtom, List.cons_append, after?_cons, List.append_assoc, List.nil_append]
  exact (h _ (ends_measure M _)).bind (endsWith_close_measure hname f x m s)

/-- Bars are taken off. -/
theorem ReadsFull.bars (h : ReadsFull R cs x) :
    ReadsAtom R ('|' :: cs ++ ['|']) (.unary .abs x) := by
  intro s _
  have hparen (cs : List Char) : Display.after? ['('] ('|' :: cs) = none :=
    after?_of_ne (by decide) cs
  apply EndsWith.of_succ
  simp only [readAtom, List.cons_append, hparen, after?_cons, List.append_assoc, List.nil_append]
  refine (h _ (ends_cons (by decide) (by decide))).bind ?_
  simp only [expect_cons]
  exact .pure _

/-- The front of a word is neither a parenthesis nor a bar. -/
theorem after?_token (hw : cs.all isToken = true) (hne : cs ≠ []) (s : List Char) :
    Display.after? ['('] (cs ++ s) = none ∧ Display.after? ['|'] (cs ++ s) = none := by
  cases cs with
  | nil => exact absurd rfl hne
  | cons c cs =>
    have hc := List.all_eq_true.mp hw c List.mem_cons_self
    constructor
    · refine after?_of_ne ?_ _
      rintro rfl
      exact absurd hc (by decide)
    · refine after?_of_ne ?_ _
      rintro rfl
      exact absurd hc (by decide)

/-- A word or a number is read as what it stands for. -/
theorem readsAtom_token (hw : cs.all isToken = true) (hne : cs ≠ [])
    (h : readToken R cs = known (.ok e)) : ReadsAtom R cs e := by
  intro s hs
  obtain ⟨hparen, hbar⟩ := after?_token hw hne s
  obtain ⟨htake, hdrop⟩ := span_token hw fun c hc => (hs c hc).1
  apply EndsWith.of_succ
  simp only [readAtom, hparen, hbar, htake, hdrop, hs.after? List.mem_cons_self, h]
  exact (EndsWith.known _).bind (.pure _)

/-- A call is read as its function and what it is called on. -/
theorem readsAtom_called {name : String} (hw : name.toList.all isToken = true) (hne : name ≠ "")
    (h : ∀ s, EndsWith (fun n => readCall R n name (cs ++ s)) (.ok (e, s))) :
    ReadsAtom R (called name cs) e := by
  intro s _
  have hne' : name.toList ≠ [] := by simpa using hne
  obtain ⟨hparen, hbar⟩ := after?_token hw hne' ('(' :: (cs ++ s))
  obtain ⟨htake, hdrop⟩ := span_token hw (s := '(' :: (cs ++ s)) (by simp [not_isToken_paren])
  apply EndsWith.of_succ
  simp only [readAtom, called, List.append_assoc, List.cons_append, hparen, hbar, htake, hdrop,
    after?_cons, String.ofList_toList]
  exact h s

/-- A function of one operand is read back. -/
theorem ReadsFull.call {name : String} (h : ReadsFull R cs x) (hw : name.toList.all isToken = true)
    (hne : name ≠ "") (hlog : name ≠ "log") (hcall : callOf? name x = some e) :
    ReadsAtom R (called name (cs ++ [')'])) e := by
  refine readsAtom_called hw hne fun s => ?_
  apply EndsWith.of_succ
  simp only [readCall, List.append_assoc, List.cons_append, List.nil_append, if_neg hlog]
  refine (h _ ends_close).bind ?_
  simp only [hcall]
  exact endsWith_close e s

/-- A function of an angle in a measure is read back. -/
theorem ReadsFull.call_measure {f : AngleFunction} {m : Option String} (h : ReadsFull R cs x)
    (hw : f.name.toList.all isToken = true) (hne : f.name ≠ "") (hlog : f.name ≠ "log")
    (hcall : callOf? f.name x = some (.angle f x m)) (M : AngleMeasure)
    (hname : M.name.toList.all isToken = true) :
    ReadsAtom R (called f.name (cs ++ ' ' :: M.name.toList ++ [')']))
      (.angle f x (some M.name)) := by
  refine readsAtom_called hw hne fun s => ?_
  apply EndsWith.of_succ
  simp only [readCall, List.append_assoc, List.cons_append, List.nil_append, if_neg hlog]
  refine (h _ (ends_measure M _)).bind ?_
  simp only [hcall]
  exact endsWith_close_measure hname f x m s

/-- A logarithm is read back. -/
theorem ReadsFull.call_log (hb : ReadsFull R cs b) (hx : ReadsFull R ds x) :
    ReadsAtom R (called "log" (cs ++ ')' :: '(' :: ds ++ [')'])) (.log x b) := by
  refine readsAtom_called (by decide) (by decide) fun s => ?_
  have hexpect (s : List Char) : expect [')', '('] (')' :: '(' :: s) = pure s := by
    simp [expect, Display.after?, List.isPrefixOf?]
  apply EndsWith.of_succ
  simp only [readCall, List.append_assoc, List.cons_append, List.nil_append, if_true]
  refine (hb _ ends_close).bind ?_
  simp only [hexpect]
  refine (EndsWith.pure _).bind ?_
  exact (hx _ ends_close).bind (endsWith_close _ s)

/-! ## Factors -/

/-- An atom without an exponent is a factor. -/
theorem ReadsAtom.factor (h : ReadsAtom R cs e) : ReadsFactor R cs e := by
  intro s hs
  apply EndsWith.of_succ
  simp only [readFactor]
  refine (h s (hs.mono (by simp))).bind ?_
  simp only [hs.after? (c := '^') (by simp)]
  exact .pure _

/-- An atom with an exponent is a power. -/
theorem ReadsAtom.power (hb : ReadsAtom R cs b) (hx : ReadsFactor R ds x) :
    ReadsFactor R (cs ++ '^' :: ds) (.power b x) := by
  intro s hs
  apply EndsWith.of_succ
  simp only [readFactor, List.append_assoc, List.cons_append]
  refine (hb _ (stops_cons (by decide) (by decide))).bind ?_
  simp only [after?_cons]
  exact (hx s hs).bind (.pure _)

/-- A dot ends the factor in front of it. -/
theorem stops_factors {css : List (List Char)} (hs : Stops ['^', '·'] s) :
    Stops ['^'] (css.flatMap ('·' :: ·) ++ s) := by
  cases css with
  | nil => exact hs.mono (by simp)
  | cons cs css =>
    rw [List.flatMap_cons, List.cons_append, List.cons_append]
    exact stops_cons not_isToken_dot (by decide)

/-! ## Fractions -/

/-- The text is read as a fraction with this sign in front. -/
def ReadsTerm (R : Radix) (negative : Bool) (cs : List Char) (e : Expr) : Prop :=
  ∀ s, Stops ['^', '·', '/'] s → EndsWith (fun n => readTerm R n (negative, cs ++ s)) (.ok (e, s))

/-- No fraction begins with a minus sign. -/
theorem splitSign_of_endsWith {negative : Bool} {r : Expr × List Char}
    (h : EndsWith (fun n => readTerm R n (negative, cs)) (.ok r)) :
    Radix.splitSign cs = (false, cs) := by
  unfold Radix.splitSign
  split
  · -- There would be no word to read.
    rename_i cs
    obtain ⟨least, h⟩ := h
    have h := h (least + 3) (by omega)
    have hparen : Display.after? ['('] ('-' :: cs) = none := after?_of_ne (by decide) cs
    have hbar : Display.after? ['|'] ('-' :: cs) = none := after?_of_ne (by decide) cs
    have hminus : isToken '-' = false := by decide
    have hword : ('-' :: cs).takeWhile isToken = [] ∧
        ('-' :: cs).dropWhile isToken = '-' :: cs := by
      simp [hminus]
    simp only [readTerm, readFactor, readAtom, hparen, hbar, hword.1, hword.2, readToken,
      if_true] at h
    have herror : some (Except.error (Error.unlexable (String.ofList []))) = some (Except.ok r) := h
    cases herror
  · rfl

/-- Where there is no dot, no further factor stands. -/
theorem endsWith_no_factors (hs : Stops ['^', '·'] s) :
    EndsWith (fun n => readFactors R n s) (.ok ([], s)) := by
  apply EndsWith.of_succ
  simp only [readFactors, hs.after? (c := '·') (by simp)]
  exact .pure _

/-- Further factors are read back. -/
theorem endsWith_factors {fs : List Expr} (h : ∀ f ∈ fs, ReadsFactor R (child R 2 f) f)
    (hs : Stops ['^', '·'] s) :
    EndsWith
      (fun n => readFactors R n ((fs.map (child R 2)).flatMap ('·' :: ·) ++ s)) (.ok (fs, s)) := by
  induction fs with
  | nil => exact endsWith_no_factors hs
  | cons f fs ih =>
    apply EndsWith.of_succ
    simp only [readFactors, List.map_cons, List.flatMap_cons, List.cons_append, List.append_assoc,
      after?_cons]
    refine (h f List.mem_cons_self _ (stops_factors hs)).bind ?_
    exact (ih fun g hg => h g (List.mem_cons_of_mem _ hg)).bind (.pure _)

/-- Factors with dots between them are read back, and what is below the bar behind them. -/
theorem endsWith_term (negative : Bool) {top gs : List Expr} (hne : top ≠ [])
    (h : ∀ f ∈ top, ReadsFactor R (child R 2 f) f) {tail : List Char} (hs : Stops ['^', '·'] tail)
    (htail : EndsWith (fun n => readBottom R n tail) (.ok (gs, s))) :
    EndsWith (fun n => readTerm R n (negative, dots (top.map (child R 2)) ++ tail))
      (.ok (Quotient.value ⟨negative, top, gs⟩, s)) := by
  cases top with
  | nil => exact absurd rfl hne
  | cons f fs =>
    apply EndsWith.of_succ
    simp only [readTerm, List.map_cons, dots_cons, List.append_assoc]
    refine (h f List.mem_cons_self _ (stops_factors hs)).bind ?_
    refine (endsWith_factors (fun g hg => h g (List.mem_cons_of_mem _ hg)) hs).bind ?_
    exact htail.bind (.pure _)

/-- Where there is no bar, nothing is below it. -/
theorem endsWith_no_bar (hs : Stops ['^', '·', '/'] s) :
    EndsWith (fun n => readBottom R n s) (.ok ([], s)) := by
  apply EndsWith.of_succ
  simp only [readBottom, hs.after? (c := '/') (by simp)]
  exact .pure _

/-- A single factor is a fraction. -/
theorem ReadsFactor.term (h : ReadsFactor R cs e) : ReadsTerm R false cs e := by
  intro s hs
  apply EndsWith.of_succ
  simp only [readTerm]
  refine (h s (hs.mono (by simp))).bind ?_
  refine (endsWith_no_factors (hs.mono (by simp))).bind ?_
  refine (endsWith_no_bar hs).bind ?_
  rw [value_single]
  exact .pure _

/-- What it takes for a fraction to be read back: its factors are read back, none below the bar is a
product, and several of them are factors of a product of their own. -/
structure Quotient.IsLegible (R : Radix) (v : Quotient) : Prop where
  top_ne_nil : v.top ≠ []
  top : ∀ f ∈ v.top, ReadsFactor R (child R 2 f) f
  bottom : ∀ g ∈ v.bottom, ReadsFactor R (child R 2 g) g
  not_isProduct : ∀ g ∈ v.bottom, g.isProduct = false
  group : 2 ≤ v.bottom.length → Quotient.value ⟨false, v.bottom, []⟩ = .product (Expr.sort v.bottom)
  settled : ∀ f ∈ nonNumbers v.top ++ (nonNumbers v.bottom).map reciprocal, f.IsSettled

/-- The sign of a term ends the one in front of it. -/
theorem stops_terms (R : Radix) (vs : List Quotient) (hs : Ends s) : Stops ['^', '·', '/']
    ((vs.flatMap fun v => (if v.negative then '-' else '+') :: v.body R) ++ s) := by
  cases vs with
  | nil => exact hs.stops.mono (by simp)
  | cons v vs =>
    rw [List.flatMap_cons, List.cons_append]
    cases v.negative
    · exact stops_cons (by decide) (by decide)
    · exact stops_cons (by decide) (by decide)

/-- A text with the sign in front of it. -/
theorem endsWith_signed {negative : Bool} (h : ReadsTerm R negative cs e)
    (hs : Stops ['^', '·', '/'] s) :
    EndsWith (fun n => readTerm R n (Radix.splitSign (sign negative ++ cs ++ s))) (.ok (e, s)) := by
  have hsign : Radix.splitSign (sign negative ++ cs ++ s) = (negative, cs ++ s) := by
    cases negative with
    | true => rfl
    | false => exact splitSign_of_endsWith (h s hs)
  rw [hsign]
  exact h s hs

/-- A fraction that stands alone is read back. -/
theorem ReadsTerm.full {negative : Bool} (h : ReadsTerm R negative cs e) :
    ReadsFull R (sign negative ++ cs) e := by
  intro s hs
  have hno : splitTermSign s = none := hs.splitTermSign
  apply EndsWith.of_succ
  simp only [readFull]
  refine (endsWith_signed h (hs.stops.mono (by simp))).bind ?_
  refine EndsWith.bind (a := ([], s)) ?_ ?_
  · apply EndsWith.of_succ
    simp only [readTerms, hno]
    exact .pure _
  · simp only [hs.not_mod]
    exact .pure _

/-- The factors below a bar are read back, several of them in order. -/
theorem endsWith_bottom (h : v.IsLegible R) (hs : Stops ['^', '·', '/'] s) :
    ∃ gs, v.bottom.Perm gs ∧
      EndsWith (fun n => readBottom R n (bar (v.bottom.map (child R 2)) ++ s)) (.ok (gs, s)) := by
  have hread {cs : List Char} {g : Expr} (hg : ReadsFactor R cs g) :
      EndsWith (fun n => readBottom R n ('/' :: cs ++ s)) (.ok (g.factors, s)) := by
    apply EndsWith.of_succ
    simp only [readBottom, List.cons_append, after?_cons]
    exact (hg s (hs.mono (by simp))).bind (.pure _)
  match hb : v.bottom with
  | [] => exact ⟨[], .refl _, endsWith_no_bar hs⟩
  | [g] =>
    have hmem : g ∈ v.bottom := by simp [hb]
    refine ⟨[g], .refl _, ?_⟩
    have := hread (h.bottom g hmem)
    rwa [Expr.factors_of_not_isProduct (h.not_isProduct g hmem)] at this
  | g :: g' :: gs =>
    have h2 : 2 ≤ v.bottom.length := by simp [hb]
    have hne : v.bottom ≠ [] := by simp [hb]
    rw [← hb]
    refine ⟨Expr.sort v.bottom, (Expr.perm_sort _).symm, ?_⟩
    -- In parentheses they read as a product.
    have hterm : ReadsTerm R false (dots (v.bottom.map (child R 2)))
        (.product (Expr.sort v.bottom)) := by
      intro s hs
      rw [← h.group h2]
      exact endsWith_term false hne h.bottom (hs.mono (by simp)) (endsWith_no_bar hs)
    have := hread hterm.full.paren.factor
    rwa [hb] at this ⊢

/-- A bar ends the factors in front of it. -/
theorem stops_bar {css : List (List Char)} (hs : Stops ['^', '·', '/'] s) :
    Stops ['^', '·'] (bar css ++ s) := by
  match css with
  | [] => exact hs.mono (by simp)
  | [cs] => exact stops_cons (by decide) (by decide)
  | _ :: _ :: _ => exact stops_cons (by decide) (by decide)

/-- A fraction is read back as its value. -/
theorem Quotient.IsLegible.readsTerm (h : v.IsLegible R) :
    ReadsTerm R v.negative (v.body R) v.value := by
  intro s hs
  obtain ⟨gs, hperm, hread⟩ := endsWith_bottom h hs
  have hterm := endsWith_term v.negative h.top_ne_nil h.top (stops_bar hs) hread
  rw [← value_perm hperm h.settled] at hterm
  rwa [Quotient.body, List.append_assoc]

/-! ## Sums -/

/-- Further terms are read back. -/
theorem endsWith_terms {vs : List Quotient} (h : ∀ v ∈ vs, v.IsLegible R) (hs : Ends s) :
    EndsWith (fun n => readTerms R n
      ((vs.flatMap fun v => (if v.negative then '-' else '+') :: v.body R) ++ s))
      (.ok (vs.map Quotient.value, s)) := by
  induction vs with
  | nil =>
    apply EndsWith.of_succ
    simp only [readTerms, List.flatMap_nil, List.nil_append, hs.splitTermSign]
    exact .pure _
  | cons v vs ih =>
    have hsign (cs : List Char) :
        splitTermSign ((if v.negative then '-' else '+') :: cs) = some (v.negative, cs) := by
      cases v.negative <;> rfl
    apply EndsWith.of_succ
    simp only [readTerms, List.flatMap_cons, List.cons_append, List.append_assoc, hsign]
    refine ((h v List.mem_cons_self).readsTerm _ (stops_terms R vs hs)).bind ?_
    exact (ih fun w hw => h w (List.mem_cons_of_mem _ hw)).bind (.pure _)

/-- Signed fractions are read back as their total. -/
theorem readsFull_total {vs : List Quotient} (hne : vs ≠ []) (h : ∀ v ∈ vs, v.IsLegible R) :
    ReadsFull R (total R vs) (totalOf (vs.map Quotient.value)) := by
  intro s hs
  cases vs with
  | nil => exact absurd rfl hne
  | cons v vs =>
    have hterm := endsWith_signed (h v List.mem_cons_self).readsTerm (stops_terms R vs hs)
    have hterms := endsWith_terms (fun w hw => h w (List.mem_cons_of_mem _ hw)) hs
    apply EndsWith.of_succ
    simp only [readFull, total, List.append_assoc] at hterm ⊢
    refine hterm.bind ?_
    refine hterms.bind ?_
    simp only [hs.not_mod]
    exact .pure _

/-- A remainder is read back. -/
theorem ReadsAtom.mod {d : Expr} (hx : ReadsAtom R cs x) (hd : ReadsAtom R ds d) :
    ReadsFull R (cs ++ [' ', 'm', 'o', 'd', ' '] ++ ds) (.mod x d) := by
  intro s hs
  have hstops : Stops ['^', '·', '/'] ([' ', 'm', 'o', 'd', ' '] ++ ds ++ s) :=
    stops_cons (by decide) (by decide)
  have hmod : Display.after? [' ', 'm', 'o', 'd', ' '] ([' ', 'm', 'o', 'd', ' '] ++ ds ++ s) =
      some (ds ++ s) := by
    simp [Display.after?, List.isPrefixOf?]
  have hterm := endsWith_signed hx.factor.term hstops
  apply EndsWith.of_succ
  simp only [readFull, sign, Bool.false_eq_true, if_false, List.nil_append,
    List.append_assoc] at hterm hmod ⊢
  refine hterm.bind ?_
  refine EndsWith.bind (a := ([], [' ', 'm', 'o', 'd', ' '] ++ (ds ++ s))) ?_ ?_
  · apply EndsWith.of_succ
    simp only [readTerms, splitTermSign, List.cons_append]
    exact .pure _
  · simp only [hmod]
    exact (hd s (hs.stops.mono (by simp))).bind (.pure _)

end StackAlgebra.Display
