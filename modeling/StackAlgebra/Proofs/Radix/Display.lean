import Mathlib.Data.List.Basic
import StackAlgebra.Proofs.Radix.RoundTrip

/-!
# Displayed numbers

A number is displayed exactly as a sign and figures: digits, and perhaps a point or a fraction bar
with more digits behind it (`write_eq_signed`). A radix may stand in front with a number sign behind
it; what follows is read in that radix, whatever the radix of the reader (`readNumeral_named`).
-/

namespace StackAlgebra.Radix

variable {R : Radix} {q : ℚ} {cs : List Char}

/-! ## Figures -/

/-- The text of a number that is not negative: digits, or digits on both sides of a point or a
fraction bar. -/
inductive IsMagnitude (R : Radix) : List Char → Prop
  | whole {ds : List ℕ} (hne : ds ≠ []) (hds : ∀ d ∈ ds, d < R.val) : IsMagnitude R (digitText ds)
  | parts {mark : Char} {ds es : List ℕ} (hmark : mark = '.' ∨ mark = '/')
      (hne : ds ≠ []) (hne' : es ≠ []) (hds : ∀ d ∈ ds, d < R.val) (hes : ∀ d ∈ es, d < R.val) :
      IsMagnitude R (digitText ds ++ mark :: digitText es)

/-- A magnitude is not empty. -/
theorem IsMagnitude.ne_nil (h : R.IsMagnitude cs) : cs ≠ [] := by
  cases h with
  | whole hne _ => simpa [digitText] using hne
  | parts => simp

/-- A magnitude consists of figures. -/
theorem IsMagnitude.isFigure (h : R.IsMagnitude cs) : ∀ c ∈ cs, R.IsFigure c := by
  intro c hc
  cases h with
  | whole hne hds => exact isFigure_digitText hds c hc
  | parts hmark hne hne' hds hes =>
    rcases List.mem_append.mp hc with hc | hc
    · exact isFigure_digitText hds c hc
    · rcases List.mem_cons.mp hc with rfl | hc
      · exact .inr hmark
      · exact isFigure_digitText hes c hc

/-- What is written in full has digits around its point. -/
theorem exists_of_writeExact?_eq_some (h : R.writeExact? q = some cs) :
    ∃ body, R.IsMagnitude body ∧ cs = signed q body := by
  rw [writeExact?, Option.map_eq_some_iff] at h
  obtain ⟨places, -, rfl⟩ := h
  have hmod : q.num.natAbs % q.den < q.den := Nat.mod_lt _ q.den_pos
  refine ⟨_, ?_, rfl⟩
  split_ifs with h0
  · rw [List.append_nil]
    exact .whole (R.digits_ne_nil _) fun _ => lt_of_mem_digits
  · refine .parts (.inl rfl) (R.digits_ne_nil _) (List.ne_nil_of_length_pos ?_)
      (fun _ => lt_of_mem_digits) fun _ => lt_of_mem_fractionDigits hmod
    rw [length_fractionDigits]
    exact Nat.pos_of_ne_zero h0

/-- A number is written as a sign and a magnitude. -/
theorem write_eq_signed (R : Radix) (q : ℚ) :
    ∃ body, R.IsMagnitude body ∧ R.write q = signed q body := by
  unfold write
  split
  · next cs h => exact exists_of_writeExact?_eq_some h
  · refine ⟨R.writeNat q.num.natAbs ++ '/' :: R.writeNat q.den, ?_, ?_⟩
    · exact .parts (.inr rfl) (R.digits_ne_nil _) (R.digits_ne_nil _) (fun _ => lt_of_mem_digits)
        fun _ => lt_of_mem_digits
    · unfold writeInt signed
      simp only [Rat.num_neg]
      split_ifs <;> rfl

/-- A written number has no blanks and no number sign. -/
theorem not_blank_of_mem_write {c : Char} (h : c ∈ R.write q) : isBlank c = false ∧ c ≠ '#' := by
  obtain ⟨body, hbody, hwrite⟩ := R.write_eq_signed q
  have hfigure : ∀ c ∈ body, isBlank c = false ∧ c ≠ '#' := fun c hc =>
    ⟨(hbody.isFigure c hc).isUnmarked.blank, (hbody.isFigure c hc).isUnmarked.radix⟩
  rw [hwrite, signed] at h
  split_ifs at h
  · rcases List.mem_cons.mp h with rfl | h
    · decide
    · exact hfigure c h
  · exact hfigure c h

/-! ## Radices by name -/

/-- The abbreviation of a radix is three letters. -/
theorem exists_name_eq (R : Radix) : ∃ a b c, R.name.toList = [a, b, c] ∧
    ∀ x ∈ [a, b, c], isLetter x = true ∧ isBlank x = false ∧ x ≠ '-' := by
  have hthree : ∀ s ∈ abbreviations, s.toList.length = 3 := by decide +kernel
  -- The letters of a text are looked at one by one: all characters together are too many to decide.
  have hletters : ∀ s ∈ abbreviations,
      s.toList.all (fun x => isLetter x && !isBlank x && x != '-') = true := by
    decide +kernel
  have hmem : R.name ∈ abbreviations := List.get_mem _ _
  obtain ⟨a, b, c, hname⟩ := List.length_eq_three.mp (hthree _ hmem)
  refine ⟨a, b, c, hname, fun x hx => ?_⟩
  have hletter := List.all_eq_true.mp (hletters _ hmem) x (hname ▸ hx)
  simpa [and_assoc] using hletter

/-- There are no blanks in the abbreviation of a radix. -/
theorem not_blank_of_mem_name (R : Radix) {c : Char} (h : c ∈ R.name.toList) :
    isBlank c = false := by
  obtain ⟨_, _, _, hname, hletters⟩ := R.exists_name_eq
  exact (hletters c (hname ▸ h)).2.1

/-- A radix is found by its abbreviation. -/
theorem ofName?_name (R : Radix) : ofName? R.name = some R := by
  have hfind : ∀ i : Fin abbreviations.length, abbreviations.idxOf? (abbreviations.get i) =
      some i.val := by
    decide +kernel
  have hval : R.val - 2 + 2 = R.val := Nat.sub_add_cancel R.two_le
  rw [ofName?, name, hfind, Option.bind_some, hval, ofNat?, dif_pos ⟨R.two_le, R.le_max⟩]

/-- A radix is read from its abbreviation. -/
theorem read_name (R : Radix) : read R.name.toList = .ok R := by
  have htrim : trim R.name.toList = R.name.toList := trim_of_forall fun _ => R.not_blank_of_mem_name
  unfold read
  simp only [htrim, String.ofList_toList, ofName?_name]

/-- The abbreviation of a radix and a number sign are split off, and there is no sign in front of
them. -/
theorem splitRadix?_named (R : Radix) (cs : List Char) :
    splitRadix? (R.name.toList ++ '#' :: cs) = some (R.name.toList, cs) ∧
      ∀ c ∈ (R.name.toList ++ '#' :: cs).head?, c ≠ '-' := by
  obtain ⟨a, b, c, hname, hletters⟩ := R.exists_name_eq
  simp only [List.forall_mem_cons, List.not_mem_nil, false_implies, implies_true,
    and_true] at hletters
  obtain ⟨⟨ha, -, hminus⟩, ⟨hb, -⟩, hc, -⟩ := hletters
  rw [hname]
  refine ⟨?_, ?_⟩
  · simp only [List.cons_append, List.nil_append, splitRadix?, ha, hb, hc, Bool.and_self, if_true]
  · simpa using hminus

/-- Without a minus in front there is nothing to drop. -/
theorem dropWhile_of_head (h : ∀ c ∈ cs.head?, c ≠ '-') : cs.dropWhile (· = '-') = cs := by
  cases cs with
  | nil => rfl
  | cons c cs => rw [List.dropWhile_cons_of_neg (by simpa using h c rfl)]

/-- Without a minus in front there is no sign. -/
theorem splitSign_of_head (h : ∀ c ∈ cs.head?, c ≠ '-') : splitSign cs = (false, cs) := by
  unfold splitSign
  split
  · exact absurd rfl (h '-' rfl)
  · rfl

/-- What stands behind the abbreviation of a radix and a number sign is read in that radix. -/
theorem readNumeral_named (R shown : Radix) (hblank : ∀ c ∈ cs, isBlank c = false)
    (hmark : '#' ∉ cs) :
    R.readNumeral (shown.name.toList ++ '#' :: cs) = shown.readNumeral cs := by
  obtain ⟨hsplit, hhead⟩ := splitRadix?_named shown cs
  have htrim : trim (shown.name.toList ++ '#' :: cs) = shown.name.toList ++ '#' :: cs := by
    refine trim_of_forall fun x hx => ?_
    rcases List.mem_append.mp hx with hx | hx
    · exact shown.not_blank_of_mem_name hx
    · rcases List.mem_cons.mp hx with rfl | hx
      · decide
      · exact hblank x hx
  have hbody : '#' ∉ (splitSign cs).2 := by
    unfold splitSign
    split
    · exact fun h => hmark (List.mem_cons_of_mem _ h)
    · exact hmark
  unfold readNumeral
  rw [htrim, trim_of_forall hblank, splitSign_of_head hhead]
  -- The sign behind the number sign is the one that the number has by itself.
  rcases hcs : splitSign cs with ⟨negative, body⟩
  rw [hcs] at hbody
  have hne : shown.name.toList ++ '#' :: cs ≠ [] := by simp
  simp only [if_neg hne, hsplit, read_name, splitRadix?_of_not_mem hbody]
  simp only [bind, Except.bind, hcs, Bool.false_bne]

end StackAlgebra.Radix
