import StackAlgebra.Calculator.Input
import StackAlgebra.Proofs.Display.ReadBack
import StackAlgebra.Proofs.NormalForm.Simplify

/-!
# Exact display is unambiguous

The text of a settled expression is read back as this expression (`endsWith_read`), so that
different canonical forms are never shown as the same text (`render_exact_eq_iff`). This takes a
radix in which no symbol of a constant is a number, names of variables that are neither (`IsName`),
and measures for the functions of angles. The words of the notation itself need no protection: the
name of a function stands in front of a parenthesis, and a remainder or a measure behind a blank,
where no variable does.

The proof goes through the expression from its leaves on. A node stands by itself, in parentheses or
as a factor (`Readable`); numbers and words are read as atoms, powers as factors, and everything
with a coefficient, a sign or a bar through the fraction that it is shown as
(`readsFull_of_isLegible`).
-/

namespace StackAlgebra.Display

open Budgeted (EndsWith known)
open StackAlgebra.Expr (num coefficientOf nonNumbers)

variable {R : Radix} {e f b x d : Expr} {q : Rat}

/-! ## Numbers -/

/-- A digit of a radix up to twelve stands in words. -/
theorem isToken_ofValue (hR : R.val ≤ 12) {d : Nat} (hd : d < R.val) :
    isToken (Digit.ofValue d) = true := by
  have h12 : ∀ d < 12, isToken (Digit.ofValue d) = true := by decide
  exact h12 d (by omega)

/-- What is written for a number that is not negative is digits and a point. -/
theorem exists_of_mem_write {cs : List Char} (h0 : 0 ≤ q) (h : R.writeExact? q = some cs) :
    cs ≠ [] ∧ ∀ c ∈ cs, (∃ d < R.val, c = Digit.ofValue d) ∨ c = '.' := by
  rw [Radix.writeExact?, Option.map_eq_some_iff] at h
  obtain ⟨places, -, rfl⟩ := h
  have hmod : q.num.natAbs % q.den < q.den := Nat.mod_lt _ q.den_pos
  rw [signed_eq_sign, sign, if_neg (by simpa using h0), List.nil_append]
  refine ⟨fun hnil => Radix.writeNat_ne_nil _ (List.append_eq_nil_iff.mp hnil).1, fun c hc => ?_⟩
  rcases List.mem_append.mp hc with hc | hc
  · exact .inl (Radix.exists_of_mem_digitText (fun _ => Radix.lt_of_mem_digits) hc)
  · split_ifs at hc
    · cases hc
    · rcases List.mem_cons.mp hc with rfl | hc
      · exact .inr rfl
      · exact .inl (Radix.exists_of_mem_digitText (fun _ => Radix.lt_of_mem_fractionDigits hmod) hc)

/-- A number that is not negative and whose digits end is read back. -/
theorem readsAtom_number (hR : R.val ≤ 12) (h0 : 0 ≤ q) (h : (R.writeExact? q).isSome) :
    ReadsAtom R (R.write q) (num q) := by
  obtain ⟨cs, hcs⟩ := Option.isSome_iff_exists.mp h
  have hwrite : R.write q = cs := by simp only [Radix.write, hcs]
  obtain ⟨hne, hmem⟩ := exists_of_mem_write h0 hcs
  rw [hwrite]
  refine readsAtom_token (List.all_eq_true.mpr fun c hc => ?_) hne ?_
  · rcases hmem c hc with ⟨d, hd, rfl⟩ | rfl
    · exact isToken_ofValue hR hd
    · decide
  · have hall : (cs.all fun c => R.isDigit c || c == '.') = true := by
      refine List.all_eq_true.mpr fun c hc => ?_
      rcases hmem c hc with ⟨d, hd, rfl⟩ | rfl
      · simp [Radix.isDigit, Radix.digitValue?_ofValue hd]
      · simp
    rw [readToken, if_neg hne, if_pos hall, Radix.readNumeral_of_writeExact? hcs]
    rfl

/-- A natural number is read back. -/
theorem readsFactor_natural (hR : R.val ≤ 12) (n : Nat) :
    ReadsFactor R (child R 2 (num n)) (num n) := by
  have h0 : (0 : Rat) ≤ n := Nat.cast_nonneg n
  rw [child_num h0]
  exact (readsAtom_number hR h0 (by rw [writeExact?_natCast]; rfl)).factor

/-! ## Names -/

/-- A name that a variable can have without being taken for something else: an identifier, but no
symbol of a constant and no digits of the radix. -/
structure IsName (R : Radix) (x : String) : Prop where
  identifier : Input.isIdentifier x.toList = true
  not_symbol : ∀ c : Constant, c.symbol ≠ x
  not_digits : ¬ ∀ c ∈ x.toList, R.isDigit c = true

/-- A variable is read back. -/
theorem readsAtom_var {x : String} (h : IsName R x) : ReadsAtom R x.toList (.var x) := by
  obtain ⟨hid, hsymbol, hdigits⟩ := h
  have hne : x.toList ≠ [] := by
    intro hnil
    rw [hnil] at hid
    cases hid
  have hword : ∀ c ∈ x.toList, isWord c = true := by
    intro c hc
    cases hx : x.toList with
    | nil => exact absurd hx hne
    | cons a cs =>
      rw [hx] at hid hc
      simp only [Input.isIdentifier, isNameStart, Bool.and_eq_true, List.all_eq_true] at hid
      rcases List.mem_cons.mp hc with rfl | hc
      · exact hid.1.1.1
      · exact hid.2 c hc
  have hpoint : isWord '.' = false := by decide
  have hall : ¬ (x.toList.all fun c => R.isDigit c || c == '.') = true := by
    intro hall
    refine hdigits fun c hc => ?_
    have hc' := List.all_eq_true.mp hall c hc
    rw [Bool.or_eq_true, beq_iff_eq] at hc'
    rcases hc' with h | rfl
    · exact h
    · exact absurd (hword _ hc) (by simp [hpoint])
  have hfind : Constant.all.find? (·.symbol = x) = none := by
    simpa using fun c _ => hsymbol c
  refine readsAtom_token (List.all_eq_true.mpr fun c hc => by simp [isToken, hword c hc]) hne ?_
  rw [readToken, if_neg hne, if_neg hall, String.ofList_toList, hfind]
  rfl

/-- A constant is read back. -/
theorem readsAtom_const (hR : R.val ≤ 12) (c : Constant) :
    ReadsAtom R c.symbol.toList (.const c) := by
  have htoken : c.symbol.toList.all isToken = true := by
    cases c <;> decide +kernel
  have hne : c.symbol.toList ≠ [] := by
    cases c <;> decide
  have hfind : Constant.all.find? (·.symbol = c.symbol) = some c := by
    cases c <;> decide
  -- Each symbol has a character that is neither a point nor a digit below twelve.
  have hletter : (c.symbol.toList.any fun d => (Digit.value? d).all (12 ≤ ·) && d != '.') =
      true := by
    cases c <;> decide
  have hall : ¬ (c.symbol.toList.all fun d => R.isDigit d || d == '.') = true := by
    obtain ⟨d, hd, hdigit⟩ := List.any_eq_true.mp hletter
    rw [Bool.and_eq_true, bne_iff_ne] at hdigit
    intro hall
    have h := List.all_eq_true.mp hall d hd
    rw [Bool.or_eq_true, beq_iff_eq, or_iff_left hdigit.2, Radix.isDigit, Radix.digitValue?] at h
    obtain ⟨k, hk⟩ := Option.isSome_iff_exists.mp h
    obtain ⟨hvalue, hlt⟩ := Option.filter_eq_some_iff.mp hk
    have h12 := hdigit.1
    rw [hvalue] at h12
    simp only [Option.all_some, decide_eq_true_eq] at h12 hlt
    omega
  refine readsAtom_token htoken hne ?_
  rw [readToken, if_neg hne, if_neg hall, String.ofList_toList, hfind]
  rfl

/-! ## Nodes -/

/-- An expression is read back wherever it stands: alone, as an operand and as a factor. -/
structure Readable (R : Radix) (e : Expr) : Prop where
  full : ReadsFull R (text R e) e
  atom : ReadsAtom R (child R 0 e) e
  factor : ReadsFactor R (child R 1 e) e

/-- What stands by itself is readable if it is read back as an atom. -/
theorem Readable.of_atom (hl : looseness false e = 0) (hm : isMod e = false)
    (h : ReadsAtom R (text R e) e) : Readable R e where
  full := h.factor.term.full
  atom := by rwa [child_of_le hl.le hm]
  factor := by
    rw [child_of_le (by omega) hm]
    exact h.factor

/-- What stands in parentheses as an operand is readable if it is read back by itself. -/
theorem Readable.of_full (hl : 2 ≤ looseness false e ∨ isMod e = true)
    (h : ReadsFull R (text R e) e) :
    Readable R e where
  full := h
  atom := by
    rw [child_eq, if_pos (hl.imp_left fun h => by omega)]
    exact h.paren
  factor := by
    rw [child_eq, if_pos (hl.imp_left fun h => by omega)]
    exact h.paren.factor

/-- A power is readable if it is read back as a factor. -/
theorem Readable.of_factor (hl : looseness false e = 1) (hm : isMod e = false)
    (h : ReadsFactor R (text R e) e) : Readable R e where
  full := h.term.full
  atom := by
    rw [child_of_lt (by omega)]
    exact h.term.full.paren
  factor := by rwa [child_of_le hl.le hm]

/-- What is readable is read back as a factor of a fraction, unless it would be shown as a fraction
itself. -/
theorem Readable.of_ne (h : Readable R e) (hl : looseness false e ≠ 2) :
    ReadsFactor R (child R 2 e) e := by
  rw [child_congr 1 (by omega)]
  exact h.factor

/-! ## Fractions and numbers -/

/-- Everything but a sum or a remainder is read back if the fraction is that it is shown as. -/
theorem readsFull_of_isLegible (h : e.IsSettled) (hs : e.isSum = false) (hm : isMod e = false)
    (hv : (quotientOf R e).IsLegible R) : ReadsFull R (text R e) e := by
  have hfull := hv.readsTerm.full
  rwa [← text_eq_body hs hm, value_quotientOf h hs] at hfull

/-- A coefficient with factors above and below the bar is read back if the factors are. -/
theorem isLegible_scaled (hR : R.val ≤ 12) (c : Rat) {top bottom : List Expr}
    (ht : ∀ f ∈ top, f.isNum = false ∧ f.IsSettled ∧ ReadsFactor R (child R 2 f) f)
    (hb : ∀ g ∈ bottom, IsBelow g ∧ (reciprocal g).IsSettled ∧ ReadsFactor R (child R 2 g) g) :
    (Quotient.scaled c top bottom).IsLegible R := by
  have htn : ∀ f ∈ top, f.isNum = false := fun f hf => (ht f hf).1
  have hbn : ∀ g ∈ bottom, g.isNum = false := fun g hg => (hb g hg).1.not_isNum
  obtain ⟨-, h2, -, h4⟩ := parts_scaled (c := c) htn hbn
  constructor
  · simp only [Quotient.scaled]
    split_ifs with h
    · simp
    · exact fun hnil => h (.inr hnil)
  · intro f hf
    rcases mem_top_scaled hf with ⟨n, rfl⟩ | hf
    · exact readsFactor_natural hR n
    · exact (ht f hf).2.2
  · intro g hg
    rcases mem_bottom_scaled hg with ⟨n, rfl⟩ | hg
    · exact readsFactor_natural hR n
    · exact (hb g hg).2.2
  · intro g hg
    rcases mem_bottom_scaled hg with ⟨n, rfl⟩ | hg
    · rfl
    · exact (hb g hg).1.not_isProduct
  · exact value_group hbn
  · rw [h2, h4]
    refine List.forall_mem_append.mpr ⟨fun f hf => (ht f hf).2.1, ?_⟩
    exact List.forall_mem_map.mpr fun g hg => (hb g hg).2.1

/-- The fraction that a number is shown as is read back. -/
theorem isLegible_num (hR : R.val ≤ 12) (q : Rat) : (quotientOf R (num q)).IsLegible R := by
  rw [quotientOf]
  split_ifs with h
  · rw [writeExact?_abs, Option.isSome_map] at h
    have hread := (readsAtom_number hR (abs_nonneg q) h).factor
    rw [← child_num (abs_nonneg q)] at hread
    exact ⟨by simp, by simpa using hread, by simp, by simp, by simp,
      by simp [nonNumbers, Expr.isNum]⟩
  · have htop := readsFactor_natural hR q.num.natAbs
    have hbottom := readsFactor_natural hR q.den
    exact ⟨by simp, by simpa only [List.forall_mem_singleton] using htop, by simpa using hbottom,
      by simp [Expr.isProduct], by simp, by simp [nonNumbers, Expr.isNum]⟩

/-- A number is read back. -/
theorem readable_num (hR : R.val ≤ 12) (q : Rat) : Readable R (num q) := by
  by_cases hnat : 0 ≤ q ∧ q.den = 1
  · -- A natural number needs no parentheses.
    obtain ⟨n, rfl⟩ : ∃ n : Nat, q = n := by
      obtain ⟨n, hn⟩ := Int.eq_ofNat_of_zero_le (Rat.num_nonneg.mpr hnat.1)
      exact ⟨n, by rw [← (Rat.den_eq_one_iff q).mp hnat.2, hn, Int.cast_natCast]⟩
    refine .of_atom (by simp [looseness, hnat.1, hnat.2]) rfl ?_
    rw [text_num]
    exact readsAtom_number hR hnat.1 (by rw [writeExact?_natCast]; rfl)
  · refine .of_full (.inl ?_)
      (readsFull_of_isLegible (Expr.settled_num q) rfl rfl (isLegible_num hR q))
    rw [not_and_or, not_le] at hnat
    simp only [looseness, Bool.not_false, Bool.true_and, bne_iff_ne]
    rcases hnat with h | h
    · rw [if_pos h]
      decide
    · rw [if_pos h]
      split_ifs <;> decide

/-- How loosely what can stand in a fraction binds. -/
theorem looseness_ne_two (hn : e.isNum = false) (hp : e.isProduct = false)
    (hi : e.isInverse = false) :
    looseness false e ≠ 2 := by
  cases e with
  | num q => cases hn
  | product fs => cases hp
  | power b x => simp [looseness, hi]
  | _ => simp [looseness]

/-! ## Powers -/

/-- The name of a root is the name of a function that gives this power. -/
theorem rootName?_spec (b : Expr) {name : String} (h : rootName? x = some name) :
    callOf? name b = some (.power b x) ∧ name.toList.all isToken = true ∧ name ≠ "" ∧
    name ≠ "log" := by
  unfold rootName? at h
  split at h
  · split_ifs at h with h2 h3
    · rw [← Option.some.inj h, h2]
      exact ⟨rfl, by decide, by decide, by decide⟩
    · rw [← Option.some.inj h, h3]
      exact ⟨rfl, by decide, by decide, by decide⟩
  · cases h

/-- A power that is not shown below a bar is read back if base and exponent are. -/
theorem readable_power (h : (Expr.power b x).IsSettled) (hi : (Expr.power b x).isInverse = false)
    (hb : Readable R b) (hx : Readable R x) : Readable R (.power b x) := by
  have hl : looseness false (.power b x) = 1 := by simp [looseness, hi]
  refine .of_factor hl rfl ?_
  cases hroot : rootName? x with
  | none =>
    rw [text_power hi hroot]
    refine ReadsAtom.power ?_ hx.factor
    -- The base is no power, and anything else stands in parentheses or by itself.
    have hpower := (Expr.settled_power_iff.mp h).1.not_isPower
    rw [child_congr 0]
    · exact hb.atom
    · cases b with
      | power b' a => cases hpower
      | num q =>
        simp only [looseness]
        split_ifs <;> omega
      | _ => simp [looseness]
  | some name =>
    rw [text_root hi hroot]
    obtain ⟨hcall, htoken, hne, hlog⟩ := rootName?_spec b hroot
    exact (hb.full.call htoken hne hlog hcall).factor

/-- What stands below a bar for an inverse power is read back if its base is. -/
theorem readable_inverted (hR : R.val ≤ 12) (h : f.IsSettled) (hi : f.isInverse = true)
    (hb : ∀ c ∈ f.children, Readable R c) : Readable R f.inverted := by
  have hbelow := (isBelow_inverted h hi).1
  unfold Expr.inverted at hbelow ⊢
  split at hbelow
  · rename_i b q
    split_ifs at hbelow ⊢
    · exact hb b (by simp)
    · exact readable_power hbelow.settled hbelow.not_isInverse (hb b (by simp)) (readable_num hR _)
  · cases f with
    | power b x =>
      cases x with
      | num q => simp_all
      | _ => cases hi
    | _ => cases hi

/-- A factor below the bar is read back. -/
theorem readsFactor_inverted (hR : R.val ≤ 12) (h : f.IsSettled) (hi : f.isInverse = true)
    (hb : ∀ c ∈ f.children, Readable R c) :
    IsBelow f.inverted ∧ (reciprocal f.inverted).IsSettled ∧
    ReadsFactor R (child R 2 f.inverted) f.inverted := by
  obtain ⟨hbelow, hf⟩ := isBelow_inverted h hi
  refine ⟨hbelow, by rwa [hf], (readable_inverted hR h hi hb).of_ne ?_⟩
  exact looseness_ne_two hbelow.not_isNum hbelow.not_isProduct hbelow.not_isInverse

/-! ## Functions -/

/-- A measure of an angle. -/
theorem isToken_measure (M : AngleMeasure) : M.name.toList.all isToken = true := by
  cases M <;> decide +kernel

/-- The name of an angle function is called on an angle. -/
theorem callOf?_angle (f : AngleFunction) (x : Expr) :
    callOf? f.name x = some (.angle f x (some "rad")) ∧
    f.name.toList.all isToken = true ∧ f.name ≠ "" ∧ f.name ≠ "log" := by
  cases f <;> exact ⟨rfl, by decide, by decide, by decide⟩

/-- A function of an angle is read back with its measure. -/
theorem readable_angle {f : AngleFunction} (M : AngleMeasure) (hx : Readable R x) :
    Readable R (.angle f x (some M.name)) := by
  obtain ⟨hcall, htoken, hne, hlog⟩ := callOf?_angle f x
  refine .of_atom rfl rfl ?_
  by_cases hrad : M.name = "rad"
  · rw [hrad, text_angle_plain (by simp [measureText?])]
    exact hx.full.call htoken hne hlog hcall
  · have hmeasure : measureText? (some M.name) = some M.name := by simp [measureText?, hrad]
    cases hf : f.isInverse with
    | true =>
      rw [text_angle_to hmeasure hf]
      exact ReadsFull.paren_measure M (isToken_measure M)
        (hx.full.call htoken hne hlog hcall).factor.term.full
    | false =>
      rw [text_angle_of hmeasure hf]
      exact hx.full.call_measure htoken hne hlog hcall M (isToken_measure M)

/-- A logarithm is read back. -/
theorem readable_log (hx : Readable R x) (hb : Readable R b) : Readable R (.log x b) := by
  refine .of_atom rfl rfl ?_
  by_cases he : b = .const .euler
  · rw [he, text_ln]
    exact hx.full.call (by decide) (by decide) (by decide) rfl
  · rw [text_log he]
    exact hb.full.call_log hx.full

/-! ## All expressions -/

/-- The variables in an expression have names of their own, and its functions of angles have
measures. -/
def NamedNode (R : Radix) : Expr → Prop
  | .var x => IsName R x
  | .angle _ _ m => ∃ M, m.bind AngleMeasure.find? = some M
  | _ => True

/-- Every variable in the expression has a name of its own, and every function of an angle a
measure. -/
def IsNamed (R : Radix) (e : Expr) : Prop := e.Everywhere (NamedNode R)

/-- A measure that is there is the name of one. -/
theorem exists_eq_name {m : Option String} {M : AngleMeasure}
    (h : m.bind AngleMeasure.find? = some M) :
    m = some M.name := by
  obtain ⟨name, rfl, hM⟩ := Option.bind_eq_some_iff.mp h
  have hname := List.find?_some hM
  rw [of_decide_eq_true hname]

/-- The fraction that an expression is shown as is read back if its parts are, and the expression
itself where it is its own only factor. -/
theorem isLegible_quotientOf (hR : R.val ≤ 12) (h : e.IsSettled)
    (hchildren : ∀ c ∈ e.children, Readable R c ∧ ∀ d ∈ c.children, Readable R d)
    (hself : e.isNum = false → e.isProduct = false → e.isInverse = false → Readable R e) :
    (quotientOf R e).IsLegible R := by
  have alone (hn : e.isNum = false) (hp : e.isProduct = false) (hi : e.isInverse = false)
      (hq : quotientOf R e = ⟨false, [e], []⟩) : (quotientOf R e).IsLegible R := by
    have hread := (hself hn hp hi).of_ne (looseness_ne_two hn hp hi)
    rw [hq]
    exact ⟨by simp, by simpa using hread, by simp, by simp, by simp,
      by simpa [nonNumbers] using fun _ => h⟩
  cases e with
  | num q => exact isLegible_num hR q
  | product fs =>
    obtain ⟨hred, -, hfs⟩ := Expr.settled_product_iff.mp h
    refine isLegible_scaled hR _ (fun f hf => ?_) (List.forall_mem_map.mpr fun f hf => ?_)
    · obtain ⟨hmem, hf⟩ := List.mem_filter.mp hf
      rw [Bool.and_eq_true, Bool.not_eq_true', Bool.not_eq_true'] at hf
      refine ⟨hf.1, hfs f hmem, (hchildren f hmem).1.of_ne ?_⟩
      exact looseness_ne_two hf.1 (hred.not_isProduct f hmem) hf.2
    · obtain ⟨hmem, hi⟩ := List.mem_filter.mp hf
      exact readsFactor_inverted hR (hfs f hmem) hi (hchildren f hmem).2
  | power b x =>
    cases hi : (Expr.power b x).isInverse with
    | true =>
      rw [quotientOf, if_pos hi]
      · refine isLegible_scaled hR 1 (by simp) (List.forall_mem_singleton.mpr ?_)
        exact readsFactor_inverted hR h hi fun c hc => (hchildren c hc).1
      all_goals simp
    | false =>
      refine alone rfl rfl hi ?_
      rw [quotientOf, if_neg (by simp [hi])]
      all_goals simp
  | _ => exact alone rfl rfl rfl rfl

/-- Two terms or more make a sum. -/
theorem totalOf_of_two_le {ts : List Expr} (h : 2 ≤ ts.length) :
    totalOf ts = .sum (Expr.sort ts) := by
  match ts, h with
  | _ :: _ :: _, _ => rfl

/-- A settled sum is read back if the fractions of its terms are. -/
theorem readable_sum {ts : List Expr} (h : (Expr.sum ts).IsSettled)
    (hts : ∀ t ∈ ts, (quotientOf R t).IsLegible R) : Readable R (.sum ts) := by
  obtain ⟨hn, -, hsettled⟩ := Expr.settled_sum_iff.mp h
  -- The terms are shown in another order than the sum has them.
  have hperm : (numbersLast ts).Perm ts := by
    simpa [numbersLast] using List.filter_append_perm (fun t => !t.isNum) ts
  have hlen : 2 ≤ (numbersLast ts).length := hperm.length_eq ▸ hn.two_le
  have htotal : totalOf (numbersLast ts) = .sum ts := by
    rw [totalOf_of_two_le hlen, Expr.sort_eq_sort_of_settled hperm fun t ht =>
      hsettled t (hperm.mem_iff.mp ht), Expr.sort_of_pairwise (hn.increasing.imp le_of_lt)]
  have hvalue : ((numbersLast ts).map (quotientOf R)).map Quotient.value = numbersLast ts := by
    rw [List.map_map]
    refine (List.map_congr_left fun t ht => ?_).trans (List.map_id _)
    have ht := mem_numbersLast ht
    exact value_quotientOf (hsettled t ht) (hn.not_isSum t ht)
  have hne : (numbersLast ts).map (quotientOf R) ≠ [] := by
    rw [← List.length_pos_iff, List.length_map]
    omega
  refine .of_full (.inl (by simp [looseness])) ?_
  rw [text_sum h]
  have hfull := readsFull_total hne (List.forall_mem_map.mpr fun t ht => hts t (mem_numbersLast ht))
  rwa [hvalue, htotal] at hfull

/-- A settled expression is read back, and so are what it is made of and, if it is no sum, the
fraction that it is shown as. -/
theorem readable_all (hR : R.val ≤ 12) (h : e.IsSettled) (hn : IsNamed R e) :
    Readable R e ∧ (quotientOf R e).IsLegible R ∧ ∀ c ∈ e.children, Readable R c := by
  induction e using Expr.induction_on_children with
  | step e ih =>
    have ih := fun c hc => ih c hc (h.child hc) (hn.child hc)
    have hchildren : ∀ c ∈ e.children, Readable R c ∧ ∀ d ∈ c.children, Readable R d := fun c hc =>
      ⟨(ih c hc).1, (ih c hc).2.2⟩
    -- What is shown as a fraction is read back as one; anything else makes a fraction by itself.
    have whole (hl : looseness false e = 2) (hs : e.isSum = false) (hm : isMod e = false)
        (hv : (quotientOf R e).IsLegible R) : Readable R e :=
      .of_full (.inl hl.ge) (readsFull_of_isLegible h hs hm hv)
    suffices hself : Readable R e from
      ⟨hself, isLegible_quotientOf hR h hchildren fun _ _ _ => hself, fun c hc => (ih c hc).1⟩
    cases e with
    | num q => exact readable_num hR q
    | const c => exact .of_atom rfl rfl (by rw [text_const]; exact readsAtom_const hR c)
    | var x => exact .of_atom rfl rfl (by rw [text_var]; exact readsAtom_var hn.here)
    | sum ts => exact readable_sum h fun t ht => (ih t ht).2.1
    | product fs =>
      exact whole rfl rfl rfl (isLegible_quotientOf hR h hchildren fun _ hp => nomatch hp)
    | power b x =>
      cases hi : (Expr.power b x).isInverse with
      | true =>
        refine whole (by simp [looseness, hi]) rfl rfl
          (isLegible_quotientOf hR h hchildren fun _ _ hi' => ?_)
        rw [hi] at hi'
        cases hi'
      | false => exact readable_power h hi (hchildren b (by simp)).1 (hchildren x (by simp)).1
    | unary f x =>
      obtain ⟨rfl, -, -⟩ := Expr.settled_unary_iff.mp h
      refine .of_atom rfl rfl ?_
      rw [text_abs]
      exact (hchildren x (by simp)).1.full.bars
    | log x b => exact readable_log (hchildren x (by simp)).1 (hchildren b (by simp)).1
    | mod x d =>
      refine .of_full (.inr rfl) ?_
      rw [text_mod]
      exact (hchildren x (by simp)).1.atom.mod (hchildren d (by simp)).1.atom
    | angle f x m =>
      obtain ⟨M, hM⟩ := hn.here
      rw [exists_eq_name hM]
      exact readable_angle M (hchildren x (by simp)).1

/-- The text of a settled expression is read as that expression. -/
theorem endsWith_read (hR : R.val ≤ 12) (h : e.IsSettled) (hn : IsNamed R e) :
    EndsWith (fun n => read R n (text R e)) (.ok e) := by
  have hfull := (readable_all hR h hn).1.full [] ends_nil
  rw [List.append_nil] at hfull
  exact hfull.bind (.pure e)

/-- Canonical forms that are shown as the same text are the same. In a radix up to twelve, where no
constant is a digit, the text of exact display tells what is shown, provided that variables have
names of their own and functions of angles have measures. -/
theorem render_exact_eq_iff (hR : R.val ≤ 12) {a b : Expr} (ha : ∃ e : Expr, e.simplify = .ok a)
    (hb : ∃ e : Expr, e.simplify = .ok b) (hna : IsNamed R a) (hnb : IsNamed R b) :
    render R .exact a = render R .exact b ↔ a.same b = true := by
  obtain ⟨_, ha⟩ := ha
  obtain ⟨_, hb⟩ := hb
  have hsa := Expr.settled_simplify ha
  have hsb := Expr.settled_simplify hb
  rw [hsa.same_iff_eq hsb, render_exact, render_exact]
  constructor
  · intro heq
    have htext : text R a = text R b := String.ofList_injective (Except.ok.inj heq)
    have hread := endsWith_read hR hsa hna
    rw [htext] at hread
    exact Except.ok.inj (hread.unique (endsWith_read hR hsb hnb))
  · rintro rfl
    rfl

/-- The remainder of a magnitude is told from a logarithm. -/
theorem render_exact_eq_iff_mod_log :
    render .decimal .exact (.mod (.unary .abs (.var "x")) (.var "y")) =
      render .decimal .exact (.log (.var "x") (.const .pi)) ↔
    (Expr.mod (.unary .abs (.var "x")) (.var "y")).same (.log (.var "x") (.const .pi)) = true := by
  have hname (x : String) (hx : x = "x" ∨ x = "y") : IsName .decimal x := by
    rcases hx with rfl | rfl
    · exact ⟨by decide, fun c => by cases c <;> decide,
        fun h => absurd (h 'x' (by simp)) (by decide)⟩
    · exact ⟨by decide, fun c => by cases c <;> decide,
        fun h => absurd (h 'y' (by simp)) (by decide)⟩
  have hvar (x : String) (hx : x = "x" ∨ x = "y") : IsNamed .decimal (.var x) :=
    .intro (hname x hx) (by simp)
  have habs : IsNamed .decimal (.unary .abs (.var "x")) :=
    .intro trivial (List.forall_mem_singleton.mpr (hvar "x" (.inl rfl)))
  have hmod : IsNamed .decimal (.mod (.unary .abs (.var "x")) (.var "y")) :=
    .intro trivial (.pair habs (hvar "y" (.inr rfl)))
  have hlog : IsNamed .decimal (.log (.var "x") (.const .pi)) :=
    .intro trivial (.pair (hvar "x" (.inl rfl)) (.intro trivial (by simp)))
  exact render_exact_eq_iff (by decide)
    ⟨.mod (.unary .abs (.var "x")) (.var "y"), by with_unfolding_all rfl⟩
    ⟨.log (.var "x") (.const .pi), by with_unfolding_all rfl⟩ hmod hlog

end StackAlgebra.Display
