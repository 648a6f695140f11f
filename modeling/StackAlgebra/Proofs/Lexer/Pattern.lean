import StackAlgebra.Lexer.Pattern

/-!
# What a reader takes first

A reader of a pattern takes the longest repetition and the earliest alternative that there is
(`Pattern.first?`). Here is what this comes to for each way of building patterns: first one pattern
and then another (`first?_andThen`), alternatives (`first?_orElse_of_left`, `first?_opt_of_none`),
repetitions (`first?_many`) and tests of what is left over (`first?_before`).

Whatever a reader takes, first or falling back, is the text of something (`Takes`): of a character,
a list of characters, a pair of what two patterns take, or nothing. This says what kind of text it
is. Conversely a reader may take such a text wherever it stands (`Admits`). And there are characters
that no reader of a pattern goes past (`StopsAt`), so that what follows them makes no difference.
-/

namespace StackAlgebra.Pattern

variable {a b : Pattern} {p : Char → Bool} {test : List Char → Bool} {c : Char}
  {cs mid rest text : List Char}

/-- A reader fails exactly where the text does not begin as the pattern says. -/
theorem first?_eq_none_iff : a.first? cs = none ↔ a cs = [] :=
  List.head?_eq_none_iff

/-- A character of the class is taken. -/
theorem first?_one (h : p c = true) (cs : List Char) : (one p).first? (c :: cs) = some cs := by
  rw [first?, one, if_pos h, List.head?_cons]

/-- Nothing is taken where no character of the class stands. -/
theorem first?_one_eq_none (h : ∀ c ∈ cs.head?, p c = false) : (one p).first? cs = none := by
  cases cs with
  | nil => rfl
  | cons c cs => rw [first?, one, if_neg (by simp [h c rfl]), List.head?_nil]

/-- The second pattern reads on where the first has stopped. -/
theorem first?_andThen (ha : a.first? cs = some mid) (hb : b.first? mid = some rest) :
    (andThen a b).first? cs = some rest := by
  obtain ⟨_, ha⟩ := List.head?_eq_some_iff.mp ha
  obtain ⟨_, hb⟩ := List.head?_eq_some_iff.mp hb
  rw [first?, andThen, ha, List.flatMap_cons, hb, List.cons_append, List.head?_cons]

/-- Both patterns have to fit. -/
theorem first?_andThen_eq_none (ha : a.first? cs = none) : (andThen a b).first? cs = none := by
  rw [first?_eq_none_iff] at ha ⊢
  rw [andThen, ha, List.flatMap_nil]

/-- The first alternative wins where it fits. -/
theorem first?_orElse_of_left (ha : a.first? cs = some rest) :
    (orElse a b).first? cs = some rest := by
  obtain ⟨_, ha⟩ := List.head?_eq_some_iff.mp ha
  rw [first?, orElse, ha, List.cons_append, List.head?_cons]

/-- The second alternative is taken where the first does not fit. -/
theorem first?_orElse_of_none (ha : a.first? cs = none) : (orElse a b).first? cs = b.first? cs := by
  rw [first?, orElse, first?_eq_none_iff.mp ha, List.nil_append, first?]

/-- Neither alternative need fit. -/
theorem first?_orElse_eq_none (ha : a.first? cs = none) (hb : b.first? cs = none) :
    (orElse a b).first? cs = none :=
  (first?_orElse_of_none ha).trans hb

/-- What does not fit is left out where it may be. -/
theorem first?_opt_of_none (ha : a.first? cs = none) : (opt a).first? cs = some cs :=
  first?_orElse_of_none ha

/-- As many characters of the class are taken as there are. -/
theorem first?_many (htext : ∀ c ∈ text, p c = true) (hrest : ∀ c ∈ rest.head?, p c = false) :
    (many p).first? (text ++ rest) = some rest := by
  induction text with
  | nil =>
    cases rest with
    | nil => rfl
    | cons c rest =>
      rw [List.nil_append, first?, many, if_neg (by simp [hrest c rfl]), List.head?_cons]
  | cons c text ih =>
    obtain ⟨hc, htext⟩ := List.forall_mem_cons.mp htext
    obtain ⟨_, ih⟩ := List.head?_eq_some_iff.mp (ih htext)
    rw [List.cons_append, first?, many, if_pos hc, ih, List.cons_append, List.head?_cons]

/-- What is left over begins where the characters of the class end. -/
theorem first?_many_dropWhile (p : Char → Bool) (cs : List Char) :
    (many p).first? cs = some (cs.dropWhile p) := by
  induction cs with
  | nil => rfl
  | cons c cs ih =>
    obtain ⟨_, ih⟩ := List.head?_eq_some_iff.mp ih
    rw [first?, many, List.dropWhile_cons]
    split
    · rw [ih, List.cons_append, List.head?_cons]
    · rw [List.head?_cons]

/-- As many characters of the class are taken as there are, if there are any. -/
theorem first?_many1 (hne : text ≠ []) (htext : ∀ c ∈ text, p c = true)
    (hrest : ∀ c ∈ rest.head?, p c = false) : (many1 p).first? (text ++ rest) = some rest := by
  cases text with
  | nil => exact absurd rfl hne
  | cons c text =>
    obtain ⟨hc, htext⟩ := List.forall_mem_cons.mp htext
    exact first?_andThen (first?_one hc _) (first?_many htext hrest)

/-- The first choice stands if what it leaves over passes the test. -/
theorem first?_before (ha : a.first? cs = some rest) (htest : test rest = true) :
    (before a test).first? cs = some rest := by
  obtain ⟨_, ha⟩ := List.head?_eq_some_iff.mp ha
  rw [first?, before, ha, List.filter_cons_of_pos htest, List.head?_cons]

/-- What does not fit fits under no test. -/
theorem first?_before_eq_none (ha : a.first? cs = none) : (before a test).first? cs = none := by
  rw [first?_eq_none_iff] at ha ⊢
  rw [before, ha, List.filter_nil]

/-! ## What is taken -/

section Takes

variable {α β : Type} {f : α → List Char} {g : β → List Char}

/-- Each text that the pattern takes is the text of something. -/
def Takes (a : Pattern) (f : α → List Char) : Prop :=
  ∀ cs, ∀ rest ∈ a cs, ∃ x, cs = f x ++ rest

/-- The same texts may be those of something else. -/
theorem Takes.of_exists (h : Takes a f) (hg : ∀ x, ∃ y, g y = f x) : Takes a g := by
  intro cs rest hrest
  obtain ⟨x, rfl⟩ := h cs rest hrest
  obtain ⟨y, hy⟩ := hg x
  exact ⟨y, by rw [hy]⟩

/-- A text is the text of itself. -/
theorem Takes.asText (h : Takes a f) : Takes a id :=
  h.of_exists fun x => ⟨f x, rfl⟩

/-- One character is taken. -/
theorem takes_one (p : Char → Bool) : Takes (one p) fun c : {c // p c = true} => [c.val] := by
  intro cs rest hrest
  cases cs with
  | nil => cases hrest
  | cons c cs =>
    by_cases hc : p c = true
    · rw [one, if_pos hc] at hrest
      exact ⟨⟨c, hc⟩, by rw [List.mem_singleton.mp hrest, List.singleton_append]⟩
    · rw [one, if_neg hc] at hrest
      cases hrest

/-- A given character is taken. -/
theorem takes_char (c : Char) : Takes (char c) fun _ : Unit => [c] :=
  (takes_one _).of_exists fun x => ⟨(), congrArg ([·]) (of_decide_eq_true x.property).symm⟩

/-- Nothing is taken. -/
theorem takes_empty : Takes empty fun _ : Unit => [] :=
  fun _ _ hrest => ⟨(), (List.mem_singleton.mp hrest).symm⟩

/-- What the two patterns take stands one behind the other. -/
theorem Takes.andThen (ha : Takes a f) (hb : Takes b g) :
    Takes (andThen a b) fun x : α × β => f x.1 ++ g x.2 := by
  intro cs rest hrest
  obtain ⟨mid, hfirst, hsecond⟩ := List.mem_flatMap.mp hrest
  obtain ⟨x, rfl⟩ := ha cs mid hfirst
  obtain ⟨y, rfl⟩ := hb mid rest hsecond
  exact ⟨(x, y), (List.append_assoc _ _ _).symm⟩

/-- What one of two patterns takes is the text of something if that is so for both. -/
theorem Takes.orElse (ha : Takes a f) (hb : Takes b f) : Takes (orElse a b) f :=
  fun cs rest hrest =>
  (List.mem_append.mp hrest).elim (ha cs rest) (hb cs rest)

/-- What may be left out is taken or nothing is. -/
theorem Takes.opt (ha : Takes a f) : Takes (opt a) fun x : Option α => x.elim [] f :=
  Takes.orElse (ha.of_exists fun x => ⟨some x, rfl⟩) (takes_empty.of_exists fun _ => ⟨none, rfl⟩)

/-- Characters of the class are taken. -/
theorem takes_many (p : Char → Bool) :
    Takes (many p) fun cs : List {c // p c = true} => cs.map (·.val) := by
  intro cs
  induction cs with
  | nil =>
    intro rest hrest
    exact ⟨[], (List.mem_singleton.mp hrest).symm⟩
  | cons c cs ih =>
    intro rest hrest
    by_cases hc : p c = true
    · rw [many, if_pos hc] at hrest
      rcases List.mem_append.mp hrest with hlonger | hrest
      · obtain ⟨text, rfl⟩ := ih rest hlonger
        exact ⟨⟨c, hc⟩ :: text, rfl⟩
      · exact ⟨[], (List.mem_singleton.mp hrest).symm⟩
    · rw [many, if_neg hc] at hrest
      exact ⟨[], (List.mem_singleton.mp hrest).symm⟩

/-- Characters of the class are taken, at least one. -/
theorem takes_many1 (p : Char → Bool) :
    Takes (many1 p) fun cs : {cs : List {c // p c = true} // cs ≠ []} => cs.val.map (·.val) :=
  ((takes_one p).andThen (takes_many p)).of_exists fun x =>
    ⟨⟨x.1 :: x.2, List.cons_ne_nil _ _⟩, rfl⟩

/-- A test of what follows does not change what is taken. -/
theorem Takes.before (ha : Takes a f) (test : List Char → Bool) : Takes (before a test) f :=
  fun cs rest hrest =>
  ha cs rest (List.mem_filter.mp hrest).1

/-! ## What can be taken -/

/-- The text of anything can be taken, whatever follows it. -/
def Admits (a : Pattern) (f : α → List Char) : Prop :=
  ∀ x rest, rest ∈ a (f x ++ rest)

/-- The texts of fewer things can be taken. -/
theorem Admits.of_exists (h : Admits a f) (hg : ∀ y, ∃ x, f x = g y) : Admits a g := by
  intro y rest
  obtain ⟨x, hx⟩ := hg y
  rw [← hx]
  exact h x rest

/-- One character of the class can be taken. -/
theorem admits_one (p : Char → Bool) : Admits (one p) fun c : {c // p c = true} => [c.val] := by
  intro c rest
  rw [List.singleton_append, one, if_pos c.property]
  exact List.mem_singleton.mpr rfl

/-- The given character can be taken. -/
theorem admits_char (c : Char) : Admits (char c) fun _ : Unit => [c] :=
  (admits_one _).of_exists fun _ => ⟨⟨c, decide_eq_true rfl⟩, rfl⟩

/-- It can be left at nothing. -/
theorem admits_empty : Admits empty fun _ : Unit => [] :=
  fun _ _ => List.mem_singleton.mpr rfl

/-- What the two patterns can take can be taken one behind the other. -/
theorem Admits.andThen (ha : Admits a f) (hb : Admits b g) :
    Admits (andThen a b) fun x : α × β => f x.1 ++ g x.2 := by
  intro x rest
  rw [List.append_assoc]
  exact List.mem_flatMap.mpr ⟨g x.2 ++ rest, ha x.1 _, hb x.2 rest⟩

/-- What the first alternative can take can be taken. -/
theorem Admits.orElse_left (ha : Admits a f) (b : Pattern) : Admits (orElse a b) f :=
  fun x rest => List.mem_append_left _ (ha x rest)

/-- What the second alternative can take can be taken. -/
theorem Admits.orElse_right (a : Pattern) (hb : Admits b f) : Admits (orElse a b) f :=
  fun x rest => List.mem_append_right _ (hb x rest)

/-- What one of two patterns can take can be taken. -/
theorem Admits.orElse (ha : Admits a f) (hb : Admits b g) : Admits (orElse a b) (Sum.elim f g)
  | .inl x, rest => ha.orElse_left b x rest
  | .inr y, rest => hb.orElse_right a y rest

/-- What can be taken may be left out. -/
theorem Admits.opt (ha : Admits a f) : Admits (opt a) fun x : Option α => x.elim [] f := by
  intro x rest
  cases x with
  | none => exact admits_empty.orElse_right a () rest
  | some x => exact ha.orElse_left empty x rest

/-- Characters of the class can be taken, also fewer than there are. -/
theorem admits_many (p : Char → Bool) :
    Admits (many p) fun cs : List {c // p c = true} => cs.map (·.val) := by
  intro cs rest
  induction cs with
  | nil =>
    cases rest with
    | nil => exact List.mem_singleton.mpr rfl
    | cons c rest =>
      show c :: rest ∈ many p (c :: rest)
      rw [many]
      split
      · exact List.mem_append_right _ (List.mem_singleton.mpr rfl)
      · exact List.mem_singleton.mpr rfl
  | cons c cs ih =>
    show rest ∈ many p (c.val :: (cs.map (·.val) ++ rest))
    rw [many, if_pos c.property]
    exact List.mem_append_left _ ih

/-- Characters of the class can be taken, at least one. -/
theorem admits_many1 (p : Char → Bool) :
    Admits (many1 p) fun cs : {cs : List {c // p c = true} // cs ≠ []} => cs.val.map (·.val) := by
  refine ((admits_one p).andThen (admits_many p)).of_exists fun cs => ?_
  obtain ⟨c, cs', hcs⟩ := List.exists_cons_of_ne_nil cs.property
  exact ⟨(c, cs'), by rw [hcs, List.map_cons, List.singleton_append]⟩

end Takes

/-! ## Where a reader stops -/

/-- No reader of the pattern goes past the character: what follows it is left over, and makes no
difference. -/
def StopsAt (c : Char) (a : Pattern) : Prop :=
  ∀ cs rest, a (cs ++ c :: rest) = (a cs).map (· ++ c :: rest)

/-- The first choice is the same in front of such a character. -/
theorem StopsAt.first? (h : StopsAt c a) (cs rest : List Char) :
    a.first? (cs ++ c :: rest) = (a.first? cs).map (· ++ c :: rest) := by
  rw [Pattern.first?, h, List.head?_map, Pattern.first?]

/-- A class of characters stops at a character that does not belong to it. -/
theorem stopsAt_one (h : p c = false) : StopsAt c (one p) := by
  intro cs rest
  cases cs with
  | nil => exact if_neg (by simp [h])
  | cons d cs =>
    rw [List.cons_append, one, one]
    split <;> rfl

/-- A given character stops at any other. -/
theorem stopsAt_char {d : Char} (h : c ≠ d) : StopsAt c (char d) :=
  stopsAt_one (decide_eq_false h)

/-- Nothing is taken anyway. -/
theorem stopsAt_empty : StopsAt c empty :=
  fun _ _ => rfl

/-- Patterns stop one behind the other. -/
theorem StopsAt.andThen (ha : StopsAt c a) (hb : StopsAt c b) : StopsAt c (andThen a b) := by
  intro cs rest
  have hb : (fun mid => b (mid ++ c :: rest)) = fun mid => (b mid).map (· ++ c :: rest) :=
    funext fun mid => hb mid rest
  rw [Pattern.andThen, ha, Pattern.andThen, List.flatMap_map, List.map_flatMap, hb]

/-- Alternatives stop where both do. -/
theorem StopsAt.orElse (ha : StopsAt c a) (hb : StopsAt c b) : StopsAt c (orElse a b) := by
  intro cs rest
  rw [Pattern.orElse, ha, hb, Pattern.orElse, List.map_append]

/-- What may be left out stops where it does if it is not. -/
theorem StopsAt.opt (ha : StopsAt c a) : StopsAt c (opt a) :=
  ha.orElse stopsAt_empty

/-- A repetition stops at a character that does not belong to the class. -/
theorem stopsAt_many (h : p c = false) : StopsAt c (many p) := by
  intro cs rest
  induction cs with
  | nil => exact if_neg (by simp [h])
  | cons d cs ih =>
    rw [List.cons_append, many, many, ih]
    split
    · rw [List.map_append, List.map_singleton, List.cons_append]
    · rfl

/-- So does a repetition that is not empty. -/
theorem stopsAt_many1 (h : p c = false) : StopsAt c (many1 p) :=
  (stopsAt_one h).andThen (stopsAt_many h)

/-- A test stops nothing if it comes out at the character as at the end of the text. -/
theorem StopsAt.before (ha : StopsAt c a) (htest : ∀ cs rest, test (cs ++ c :: rest) = test cs) :
    StopsAt c (before a test) := by
  intro cs rest
  rw [Pattern.before, ha, Pattern.before, List.filter_map]
  congr 1
  exact List.filter_congr fun mid _ => htest mid rest

end StackAlgebra.Pattern
