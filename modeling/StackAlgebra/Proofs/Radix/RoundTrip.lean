import StackAlgebra.Display.Render
import StackAlgebra.Proofs.Radix.Digits
import StackAlgebra.Radix.Reader

/-!
# Written numbers are read back

What is written for a rational, in full or as a fraction of whole numbers, is read as that rational
(`writeExact_roundTrip`). The reader takes a text apart from the outside in, at marks: blanks, sign,
radix, exponent, fraction bar, point. None of them is a digit (`IsFigure`), also not the letter `e`
where it marks an exponent, so that each split comes out where the writer put the parts together,
and what is left are digits, which denote what was written.
-/

namespace StackAlgebra.Radix

variable {R : Radix}

/-! ## Digits and marks -/

/-- The digit of a value has that value. -/
theorem value?_ofValue {d : ℕ} (h : d < 64) : Digit.value? (Digit.ofValue d) = some d := by
  have h64 : ∀ d < 64, Digit.value? (Digit.ofValue d) = some d := by decide
  exact h64 d h

/-- A radix reads the digits below it. -/
theorem digitValue?_ofValue {d : ℕ} (h : d < R.val) : R.digitValue? (Digit.ofValue d) = some d := by
  rw [digitValue?, value?_ofValue (lt_alphabet h), Option.filter_some, if_pos (by simpa using h)]

/-- A digit of the radix is none of the characters it does not read. -/
theorem ofValue_ne {d : ℕ} (hd : d < R.val) {c : Char} (hc : R.digitValue? c = none) :
    Digit.ofValue d ≠ c := by
  rintro rfl
  rw [digitValue?_ofValue hd] at hc
  cases hc

/-- The characters that a number is taken apart at. -/
def marks : List Char :=
  ['-', '#', exponentMark, '/', '.']

/-- No mark is a digit. -/
theorem digitValue?_of_mem_marks {c : Char} (h : c ∈ marks) : R.digitValue? c = none := by
  have hnone : Digit.value? c = none := by
    simp only [marks, List.mem_cons, List.not_mem_nil, or_false] at h
    rcases h with rfl | rfl | rfl | rfl | rfl <;> decide
  rw [digitValue?, hnone, Option.filter_none]

/-- Where the letter `e` marks an exponent, it is no digit. -/
theorem digitValue?_of_letterMarksExponent (h : letterMarksExponent R.val) :
    R.digitValue? 'e' = none := by
  have he : Digit.value? 'e' = some 14 := by decide
  rw [digitValue?, he, Option.filter_some, if_neg]
  rw [decide_eq_true_iff]
  intro hR
  -- In a radix above fourteen the letter is among the digits kept.
  have hkept : 'e' ∈ Digit.alphabet.take R.val :=
    (List.take_prefix_take_left (by omega : 15 ≤ R.val)).subset (by decide)
  have hpos : ¬(R.val : ℤ) < 0 := by omega
  simp [letterMarksExponent, hpos, hkept] at h

/-- A character that stands in an unsigned number: a digit, a point or a fraction bar. -/
def IsFigure (R : Radix) (c : Char) : Prop :=
  (∃ d < R.val, c = Digit.ofValue d) ∨ c = '.' ∨ c = '/'

/-- The text of digits has digits only. -/
theorem exists_of_mem_digitText {ds : List ℕ} (hds : ∀ d ∈ ds, d < R.val) {c : Char}
    (hc : c ∈ digitText ds) : ∃ d < R.val, c = Digit.ofValue d := by
  obtain ⟨d, hd, rfl⟩ := List.mem_map.mp hc
  exact ⟨d, hds d hd, rfl⟩

/-- A character that is no digit does not stand in the text of digits. -/
theorem not_mem_digitText {ds : List ℕ} (hds : ∀ d ∈ ds, d < R.val) {c : Char}
    (hc : R.digitValue? c = none) : c ∉ digitText ds := by
  intro h
  obtain ⟨d, hd, rfl⟩ := exists_of_mem_digitText hds h
  exact ofValue_ne hd hc rfl

/-- The figures of a number are no blanks, signs, radix or exponent marks. -/
structure IsUnmarked (R : Radix) (c : Char) : Prop where
  blank : isBlank c = false
  sign : c ≠ '-'
  radix : c ≠ '#'
  exponent : c ≠ exponentMark
  letter : letterMarksExponent R.val → c ≠ 'e'

/-- No figure is a mark around a number. -/
theorem IsFigure.isUnmarked {c : Char} (h : R.IsFigure c) : R.IsUnmarked c := by
  rcases h with ⟨d, hd, rfl⟩ | rfl | rfl
  · have hblank : ∀ d < 64, isBlank (Digit.ofValue d) = false := by decide
    exact {
      blank := hblank d (lt_alphabet hd)
      sign := ofValue_ne hd (digitValue?_of_mem_marks (by simp [marks]))
      radix := ofValue_ne hd (digitValue?_of_mem_marks (by simp [marks]))
      exponent := ofValue_ne hd (digitValue?_of_mem_marks (by simp [marks]))
      letter := fun h => ofValue_ne hd (digitValue?_of_letterMarksExponent h) }
  · exact ⟨by decide, by decide, by decide, by decide, fun _ => by decide⟩
  · exact ⟨by decide, by decide, by decide, by decide, fun _ => by decide⟩

/-! ## Splitting at marks -/

/-- Without the mark there is nothing to split. -/
theorem splitAt?_of_not_mem {mark : Char} {cs : List Char} (h : mark ∉ cs) :
    splitAt? mark cs = none := by
  induction cs with
  | nil => rfl
  | cons c cs ih =>
    rw [List.mem_cons, not_or] at h
    rw [splitAt?, if_neg (Ne.symm h.1), ih h.2, Option.map_none]

/-- The split is at the first mark. -/
theorem splitAt?_append {mark : Char} {before : List Char} (after : List Char) (h : mark ∉ before) :
    splitAt? mark (before ++ mark :: after) = some (before, after) := by
  induction before with
  | nil => rw [List.nil_append, splitAt?, if_pos rfl]
  | cons c before ih =>
    rw [List.mem_cons, not_or] at h
    rw [List.cons_append, splitAt?, if_neg (Ne.symm h.1), ih h.2, Option.map_some]

/-- A text without the mark of a radix names none. -/
theorem splitRadix?_of_not_mem {cs : List Char} (h : '#' ∉ cs) : splitRadix? cs = none := by
  have hshort : splitShortRadix? cs = none := by
    unfold splitShortRadix?
    split
    · simp at h
    · rfl
  unfold splitRadix?
  split
  · simp at h
  · exact hshort

/-- A text without marks of an exponent has none. -/
theorem splitExponent_of_isUnmarked {cs : List Char} (h : ∀ c ∈ cs, R.IsUnmarked c) :
    R.splitExponent cs = (cs, none) := by
  have hmark : splitAt? exponentMark cs = none :=
    splitAt?_of_not_mem fun hc => (h _ hc).exponent rfl
  unfold splitExponent
  rw [hmark]
  split_ifs with hletter
  · rw [splitAt?_of_not_mem fun hc => (h _ hc).letter hletter rfl]
    rfl
  · rfl

/-- A text without blanks is not shortened. -/
theorem trim_of_forall {cs : List Char} (h : ∀ c ∈ cs, isBlank c = false) : trim cs = cs := by
  have hdrop : ∀ ds : List Char, (∀ c ∈ ds, isBlank c = false) → ds.dropWhile isBlank = ds := by
    intro ds hds
    cases ds with
    | nil => rfl
    | cons d ds => simp [hds d List.mem_cons_self]
  rw [trim, trimOff, hdrop cs h, hdrop cs.reverse (by simpa using h), List.reverse_reverse]

/-! ## Reading digits -/

/-- Digits are read as the number they denote. -/
theorem readNat_digitText {ds : List ℕ} (hds : ∀ d ∈ ds, d < R.val) :
    R.readNat (digitText ds) = .ok (R.ofDigits ds) := by
  rw [readNat, ofDigits]
  -- Digits may stand before these, so that zero is any number that was read so far.
  generalize 0 = value
  induction ds generalizing value with
  | nil => rfl
  | cons d ds ih =>
    obtain ⟨hd, hds⟩ := List.forall_mem_cons.mp hds
    rw [digitText, List.map_cons, List.foldlM_cons, digitValue?_ofValue hd]
    exact ih hds (value * R.val + d)

/-- There is no point among digits. -/
theorem count_point {ds : List ℕ} (hds : ∀ d ∈ ds, d < R.val) : (digitText ds).count '.' = 0 :=
  List.count_eq_zero.mpr (not_mem_digitText hds (digitValue?_of_mem_marks (by simp [marks])))

/-- Digits are read as a whole number where there may be a point. -/
theorem readPoint_digitText {ds : List ℕ} (hds : ∀ d ∈ ds, d < R.val) (hne : ds ≠ []) :
    R.readPoint (digitText ds) = .ok (R.ofDigits ds : ℚ) := by
  have hpoint : splitAt? '.' (digitText ds) = none :=
    splitAt?_of_not_mem (not_mem_digitText hds (digitValue?_of_mem_marks (by simp [marks])))
  have htext : digitText ds ≠ [] := by simpa [digitText] using hne
  unfold readPoint
  rw [count_point hds, if_neg (by decide), hpoint, Option.getD_none]
  simp only [htext, false_and, if_false, readNat_digitText hds]
  simp [readNat]

/-- Digits before and after a point, not both of them missing. -/
theorem readPoint_point {ds es : List ℕ} (hds : ∀ d ∈ ds, d < R.val) (hes : ∀ d ∈ es, d < R.val)
    (hne : ds ≠ [] ∨ es ≠ []) :
    R.readPoint (digitText ds ++ '.' :: digitText es) =
      .ok (R.ofDigits ds + R.ofDigits es / (R.val : ℚ) ^ es.length) := by
  have hpoint := splitAt?_append (digitText es)
    (not_mem_digitText hds (digitValue?_of_mem_marks (c := '.') (by simp [marks])))
  have htext : ¬(digitText ds = [] ∧ digitText es = []) := by
    simpa [digitText, imp_iff_not_or] using hne
  unfold readPoint
  rw [List.count_append, List.count_cons_self, count_point hds, count_point hes,
    if_neg (by decide), hpoint, Option.getD_some]
  simp only [if_neg htext, readNat_digitText hds, readNat_digitText hes]
  simp [digitText]
  rfl

/-- An unsigned number without exponent is read, with and without a minus in front. -/
theorem readNumeral_of_readFraction {cs : List Char} {q : ℚ} (hne : cs ≠ [])
    (hcs : ∀ c ∈ cs, R.IsFigure c) (h : R.readFraction cs = .ok q) :
    R.readNumeral cs = .ok q ∧ R.readNumeral ('-' :: cs) = .ok (-q) := by
  have hmarks : ∀ c ∈ cs, R.IsUnmarked c := fun c hc => (hcs c hc).isUnmarked
  have hread : R.readUnsigned cs = .ok q := by
    unfold readUnsigned
    simp only [splitExponent_of_isUnmarked hmarks, h]
    rfl
  have hradix : splitRadix? cs = none := splitRadix?_of_not_mem fun hc => (hmarks _ hc).radix rfl
  have hblank : ∀ c ∈ cs, isBlank c = false := fun c hc => (hmarks c hc).blank
  have hsign : splitSign cs = (false, cs) := by
    unfold splitSign
    split
    · exact absurd rfl (hmarks '-' (by simp)).sign
    · rfl
  have hminus : trim ('-' :: cs) = '-' :: cs :=
    trim_of_forall (List.forall_mem_cons.mpr ⟨by decide, hblank⟩)
  constructor
  · unfold readNumeral
    rw [trim_of_forall hblank, hsign]
    simp only [if_neg hne, hradix, hread]
    rfl
  · unfold readNumeral
    rw [hminus, splitSign]
    simp only [if_neg hne, hradix, hread]
    rfl

/-- The sign of a rational is read back. -/
theorem readNumeral_signed {cs : List Char} {q : ℚ} (hne : cs ≠ []) (hcs : ∀ c ∈ cs, R.IsFigure c)
    (h : R.readFraction cs = .ok |q|) : R.readNumeral (signed q cs) = .ok q := by
  obtain ⟨hplus, hminus⟩ := readNumeral_of_readFraction hne hcs h
  unfold signed
  split_ifs with hq
  · rw [hminus, abs_of_neg hq, neg_neg]
  · rw [hplus, abs_of_nonneg (not_lt.mp hq)]

/-! ## Written numbers -/

/-- Digits are figures. -/
theorem isFigure_digitText {ds : List ℕ} (hds : ∀ d ∈ ds, d < R.val) :
    ∀ c ∈ digitText ds, R.IsFigure c :=
  fun _ hc => .inl (exists_of_mem_digitText hds hc)

/-- There is a text for every number. -/
theorem writeNat_ne_nil (n : ℕ) : R.writeNat n ≠ [] := by
  simpa [writeNat, digitText] using R.digits_ne_nil n

/-- A number is written with digits. -/
theorem isFigure_writeNat (n : ℕ) : ∀ c ∈ R.writeNat n, R.IsFigure c :=
  isFigure_digitText fun _ => lt_of_mem_digits

/-- No mark stands in a number written with digits. -/
theorem not_mem_writeNat (n : ℕ) {c : Char} (hc : R.digitValue? c = none) : c ∉ R.writeNat n :=
  not_mem_digitText (fun _ => lt_of_mem_digits) hc

/-- A written number is read back where there may be a point. -/
theorem readPoint_writeNat (n : ℕ) : R.readPoint (R.writeNat n) = .ok (n : ℚ) := by
  rw [writeNat, readPoint_digitText (fun _ => lt_of_mem_digits) (R.digits_ne_nil n),
    ofDigits_digits]

/-- The digits before and after the point of a fraction, if they end, denote the fraction. -/
theorem whole_add_fraction {n d places : ℕ} (hd : 0 < d) (h : d ∣ R.val ^ places) :
    ((n / d : ℕ) : ℚ) + (R.ofDigits (R.fractionDigits places (n % d) d) : ℚ) /
      (R.val : ℚ) ^ places = (n : ℚ) / d := by
  have hlong := ofDigits_fractionDigits_of_dvd (R := R) (Nat.mod_lt n hd) (h.mul_left (n % d))
  have hR : (R.val : ℚ) ^ places ≠ 0 := pow_ne_zero _ (Nat.cast_ne_zero.mpr R.val_pos.ne')
  have hd0 : (d : ℚ) ≠ 0 := Nat.cast_ne_zero.mpr hd.ne'
  have hfraction : (R.ofDigits (R.fractionDigits places (n % d) d) : ℚ) / (R.val : ℚ) ^ places =
      (n % d : ℕ) / d := by
    rw [div_eq_div_iff hR hd0]
    exact_mod_cast hlong
  rw [hfraction, eq_div_iff hd0, add_mul, div_mul_cancel₀ _ hd0]
  exact_mod_cast Nat.div_add_mod' n d

/-- The magnitude of a rational is the fraction of its numerator's magnitude. -/
theorem abs_eq_natAbs_div (q : ℚ) : |q| = (q.num.natAbs : ℚ) / q.den := by
  rw [Rat.abs_def]
  exact (Rat.divInt_eq_div _ _).trans (by simp)

/-- A number written in full is read back. -/
theorem readNumeral_of_writeExact? {q : ℚ} {cs : List Char} (h : R.writeExact? q = some cs) :
    R.readNumeral cs = .ok q := by
  rw [writeExact?, Option.map_eq_some_iff] at h
  obtain ⟨places, hplaces, rfl⟩ := h
  have hmod : q.num.natAbs % q.den < q.den := Nat.mod_lt _ q.den_pos
  simp only
  split_ifs with h0
  · -- A whole number.
    subst h0
    have hden : q.den = 1 := Nat.dvd_one.mp (dvd_pow_of_placesOf? q.den_pos hplaces)
    rw [hden, Nat.div_one, List.append_nil]
    refine readNumeral_signed (writeNat_ne_nil _) (isFigure_writeNat _) ?_
    rw [readFraction,
      splitAt?_of_not_mem (not_mem_writeNat _ (digitValue?_of_mem_marks (by simp [marks])))]
    simp only [readPoint_writeNat, abs_eq_natAbs_div, hden, Nat.cast_one, div_one]
  · have hfigures : ∀ d ∈ R.fractionDigits places (q.num.natAbs % q.den) q.den, d < R.val :=
      fun _ => lt_of_mem_fractionDigits hmod
    refine readNumeral_signed (by simp) ?_ ?_
    · intro c hc
      rcases List.mem_append.mp hc with hc | hc
      · exact isFigure_writeNat _ c hc
      · rcases List.mem_cons.mp hc with rfl | hc
        · exact .inr (.inl rfl)
        · exact isFigure_digitText hfigures c hc
    · have hbar : '/' ∉ R.writeNat (q.num.natAbs / q.den) ++
          '.' :: digitText (R.fractionDigits places (q.num.natAbs % q.den) q.den) := by
        have hnone : R.digitValue? '/' = none := digitValue?_of_mem_marks (by simp [marks])
        simp [not_mem_writeNat _ hnone, not_mem_digitText hfigures hnone]
      rw [readFraction, splitAt?_of_not_mem hbar]
      simp only [writeNat]
      rw [readPoint_point (fun _ => lt_of_mem_digits) hfigures (.inl (R.digits_ne_nil _)),
        ofDigits_digits, length_fractionDigits,
        whole_add_fraction q.den_pos (dvd_pow_of_placesOf? q.den_pos hplaces), abs_eq_natAbs_div]

/-- A number written as a fraction of whole numbers is read back. -/
theorem readNumeral_fraction (q : ℚ) :
    R.readNumeral (R.writeInt q.num ++ '/' :: R.writeNat q.den) = .ok q := by
  have htext : R.writeInt q.num ++ '/' :: R.writeNat q.den =
      signed q (R.writeNat q.num.natAbs ++ '/' :: R.writeNat q.den) := by
    unfold writeInt signed
    simp only [Rat.num_neg]
    split_ifs <;> rfl
  rw [htext]
  refine readNumeral_signed (by simp) ?_ ?_
  · intro c hc
    rcases List.mem_append.mp hc with hc | hc
    · exact isFigure_writeNat _ c hc
    · rcases List.mem_cons.mp hc with rfl | hc
      · exact .inr (.inr rfl)
      · exact isFigure_writeNat _ c hc
  · have hden : (q.den : ℚ) ≠ 0 := Nat.cast_ne_zero.mpr q.den_nz
    rw [readFraction,
      splitAt?_append _ (not_mem_writeNat _ (digitValue?_of_mem_marks (by simp [marks])))]
    simp only [readPoint_writeNat]
    rw [abs_eq_natAbs_div]
    exact if_neg hden

/-- Whatever is written without loss is read back. -/
theorem readNumeral_write (q : ℚ) : R.readNumeral (R.write q) = .ok q := by
  unfold write
  split
  · next cs h => exact readNumeral_of_writeExact? h
  · exact readNumeral_fraction q

/-- A number is displayed without loss as it is written. -/
theorem render_num (q : ℚ) :
    Display.render R .exact (.num q) = .ok (String.ofList (R.write q)) := by
  have hpieces : Display.pieces .exact (.num q) = .ok [.number q] := by
    simp only [Display.pieces, Display.Mode.isApprox, Display.layout]
    rfl
  unfold Display.render
  rw [hpieces]
  simp [Display.write, Display.Piece.write, Display.writeNumber]

/-- A rational is written in full exactly if its expansion in the radix ends, and what is written is
read back; where it does not end, writing fails for that reason. Displayed exactly, with digits or
as a fraction of whole numbers, every rational is read back. -/
theorem writeExact_roundTrip (R : Radix) (q : ℚ) :
    (R.writeExact q = .error (.nonTerminating q.abs R) ↔ ¬R.HasFiniteExpansion q) ∧
      ((∃ t, R.writeExact q = .ok t ∧ R.readNumeral t = .ok q) ↔ R.HasFiniteExpansion q) ∧
      ∃ s, Display.render R .exact (.num q) = .ok s ∧ R.readNumeral s.toList = .ok q := by
  have hnone : R.writeExact? q = none ↔ ¬R.HasFiniteExpansion q := by
    rw [writeExact?, Option.map_eq_none_iff, places?_eq_none_iff]
  refine ⟨?_, ?_, _, render_num q, by rw [String.toList_ofList, readNumeral_write]⟩
  · rw [← hnone]
    unfold writeExact
    cases R.writeExact? q with
    | none => simp
    | some cs => simp
  · rw [← not_iff_not, ← hnone]
    unfold writeExact
    cases h : R.writeExact? q with
    | none => simp
    | some cs => simp [readNumeral_of_writeExact? h]

end StackAlgebra.Radix
