import StackAlgebra.Proofs.NormalForm.Settled
import StackAlgebra.Proofs.Radix.RoundTrip

/-!
# The text of exact display

What an expression is shown as in exact display (`text`), told from what its parts are shown as
(`child`). Everything but sums and remainders is shown as a fraction, of one factor if need be: a
sign, factors with dots between them, and perhaps a bar with factors below it. `quotientOf` says
which factors these are, and `text_eq_body` that they are shown. A sum is shown as the fractions of
its terms with their signs (`text_sum`).
-/

namespace StackAlgebra.Display

open StackAlgebra.Expr (num coefficientOf nonNumbers)

variable {R : Radix} {e b x d : Expr} {fs ts : List Expr} {bound : Nat}

/-! ## Pieces -/

/-- Pieces as text. -/
def written (R : Radix) (ps : List Piece) : List Char :=
  ps.flatMap (Piece.write R .exact)

/-- The text of an expression. -/
def text (R : Radix) (e : Expr) : List Char :=
  written R (layout false e)

/-- The text of an expression as the child of something that binds as tight as `bound`. -/
def child (R : Radix) (bound : Nat) (e : Expr) : List Char :=
  written R (enclose false bound e (layout false e))

/-- No pieces are no text. -/
@[simp] theorem written_nil : written R [] = [] := rfl

/-- A piece of text is written as it is. -/
@[simp] theorem written_text (s : String) (ps : List Piece) :
    written R (.text s :: ps) = s.toList ++ written R ps := rfl

/-- A number is written in the radix. -/
@[simp] theorem written_number (q : Rat) (ps : List Piece) :
    written R (.number q :: ps) = R.write q ++ written R ps := rfl

/-- Pieces are written one after another. -/
@[simp] theorem written_append (ps qs : List Piece) :
    written R (ps ++ qs) = written R ps ++ written R qs :=
  List.flatMap_append

/-- What stands between two texts is written between them. -/
@[simp] theorem written_between (left right : String) (ps : List Piece) :
    written R (between left right ps) = left.toList ++ written R ps ++ right.toList := by
  simp [between]

/-- Exact display always succeeds. -/
theorem render_exact (R : Radix) (e : Expr) : render R .exact e = .ok (String.ofList (text R e)) :=
  rfl

/-- A child is in parentheses if it binds looser than its parent. -/
theorem child_eq : child R bound e =
    if bound < looseness false e ∨ isMod e = true then '(' :: text R e ++ [')'] else text R e := by
  unfold child enclose text
  simp only [Bool.or_eq_true, decide_eq_true_eq]
  split_ifs
  · simp
  · rfl

/-- A child that binds tight enough stands without parentheses. -/
theorem child_of_le (h : looseness false e ≤ bound) (hm : isMod e = false) :
    child R bound e = text R e := by
  rw [child_eq, if_neg (by simp [hm, h])]

/-- A child that binds looser than its parent stands in parentheses. -/
theorem child_of_lt (h : bound < looseness false e) :
    child R bound e = '(' :: text R e ++ [')'] := by
  rw [child_eq, if_pos (.inl h)]

/-- A remainder always stands in parentheses. -/
theorem child_mod : child R bound (.mod x d) = '(' :: text R (.mod x d) ++ [')'] := by
  rw [child_eq, if_pos (.inr rfl)]

/-- Two bounds are the same to an expression that is not between them. -/
theorem child_congr (bound' : Nat) (h : bound < looseness false e ↔ bound' < looseness false e) :
    child R bound e = child R bound' e := by
  simp only [child_eq, h]

/-! ## Numbers -/

/-- The sign of a number or a fraction. -/
def sign (negative : Bool) : List Char :=
  if negative then ['-'] else []

/-- A sign in front of a magnitude. -/
theorem signed_eq_sign (q : Rat) (cs : List Char) : Radix.signed q cs = sign (q < 0) ++ cs := by
  simp only [Radix.signed, sign, decide_eq_true_eq]
  split_ifs <;> rfl

/-- The digits of a number end exactly if those of its magnitude do. -/
theorem writeExact?_abs (q : Rat) :
    R.writeExact? q = (R.writeExact? |q|).map (sign (q < 0) ++ ·) := by
  have habs : ¬ |q| < 0 := not_lt.mpr (abs_nonneg q)
  unfold Radix.writeExact? Radix.places?
  simp only [Rat.den_abs_eq_den, Rat.num_abs_eq_abs_num, Int.natAbs_abs, Option.map_map,
    signed_eq_sign, habs, decide_false]
  rfl

/-- A number in full has the digits of its magnitude behind its sign. -/
theorem write_of_isSome {q : Rat} (h : (R.writeExact? q).isSome) :
    R.write q = sign (q < 0) ++ R.write |q| := by
  rw [writeExact?_abs, Option.isSome_map] at h
  obtain ⟨cs, hcs⟩ := Option.isSome_iff_exists.mp h
  have hq : R.writeExact? q = some (sign (q < 0) ++ cs) := by
    rw [writeExact?_abs, hcs, Option.map_some]
  simp only [Radix.write, hcs, hq]

/-- A natural number in full is its digits. -/
theorem writeExact?_natCast (n : Nat) : R.writeExact? (n : Rat) = some (R.writeNat n) := by
  have hplaces : R.places? (n : Rat) = some 0 := by
    simp [Radix.places?, Radix.placesOf?]
  simp [Radix.writeExact?, hplaces, signed_eq_sign, sign]

/-- A natural number is written with its digits. -/
theorem write_natCast (n : Nat) : R.write n = R.writeNat n := by
  simp only [Radix.write, writeExact?_natCast]

/-- A number whose digits never end is written as a fraction. -/
theorem write_of_not_isSome {q : Rat} (h : ¬ (R.writeExact? q).isSome) :
    R.write q = sign (q < 0) ++ R.write q.num.natAbs ++ '/' :: R.write q.den := by
  rw [Option.not_isSome_iff_eq_none] at h
  rw [write_natCast, write_natCast]
  simp only [Radix.write, h, Radix.writeInt, sign, Rat.num_neg, decide_eq_true_eq]
  split_ifs <;> rfl

/-! ## Functions and powers -/

/-- A number as text. -/
@[simp] theorem text_num (q : Rat) : text R (num q) = R.write q := by
  simp [text, layout]

/-- A constant as text. -/
@[simp] theorem text_const (c : Constant) : text R (.const c) = c.symbol.toList := by
  simp [text, layout]

/-- A variable as text. -/
@[simp] theorem text_var (x : String) : text R (.var x) = x.toList := by
  simp [text, layout]

/-- An absolute value stands between bars. -/
theorem text_abs (x : Expr) : text R (.unary .abs x) = '|' :: text R x ++ ['|'] := by
  simp [text, layout]

/-- A function that is called on texts. -/
def called (name : String) (cs : List Char) : List Char :=
  name.toList ++ '(' :: cs

/-- A call as text. -/
theorem written_call (name : String) (ps : List Piece) :
    written R (call name ps) = called name (written R ps ++ [')']) := by
  simp [call, called]

/-- A logarithm to the base e is called without its base. -/
theorem text_ln (x : Expr) : text R (.log x (.const .euler)) = called "ln" (text R x ++ [')']) := by
  simp only [text, layout, written_call]

/-- Any other logarithm is called with its base first. -/
theorem text_log (h : b ≠ .const .euler) :
    text R (.log x b) = called "log" (text R b ++ ')' :: '(' :: text R x ++ [')']) := by
  unfold text
  rw [layout]
  · simp [written_call, called]
  · exact h

/-- A remainder as text. -/
theorem text_mod (x d : Expr) :
    text R (.mod x d) = child R 0 x ++ [' ', 'm', 'o', 'd', ' '] ++ child R 0 d := by
  simp [text, layout, child]

/-- An angle function without a measure, or in radians. -/
theorem text_angle_plain {f : AngleFunction} {m : Option String} (h : measureText? m = none) :
    text R (.angle f x m) = called f.name (text R x ++ [')']) := by
  simp only [text, layout, angleCall, h, written_call]

/-- The measure of an angle that is given stands after it. -/
theorem text_angle_of {f : AngleFunction} {m : Option String} {name : String}
    (h : measureText? m = some name) (hf : f.isInverse = false) :
    text R (.angle f x m) = called f.name (text R x ++ ' ' :: name.toList ++ [')']) := by
  simp [text, layout, angleCall, h, hf, written_call, called]

/-- The measure of an angle that is the answer stands after the call, and both are in
parentheses. -/
theorem text_angle_to {f : AngleFunction} {m : Option String} {name : String}
    (h : measureText? m = some name) (hf : f.isInverse = true) :
    text R (.angle f x m) = '(' :: called f.name (text R x ++ [')']) ++ ' ' :: name.toList ++
      [')'] := by
  simp [text, layout, angleCall, h, hf, written_call, called]

/-- A root. -/
theorem text_root {name : String} (hi : (Expr.power b x).isInverse = false)
    (h : rootName? x = some name) :
    text R (.power b x) = called name (text R b ++ [')']) := by
  unfold text
  rw [layout]
  simp only [hi, Bool.false_eq_true, dif_neg, not_false_eq_true, h, written_call]

/-- A power that is no root. -/
theorem text_power (hi : (Expr.power b x).isInverse = false) (h : rootName? x = none) :
    text R (.power b x) = child R 1 b ++ '^' :: child R 1 x := by
  unfold text
  rw [layout]
  simp [hi, h, child]

/-! ## Fractions -/

/-- Texts with dots between them. -/
def dots (css : List (List Char)) : List Char :=
  ['·'].intercalate css

/-- A single text has no dots. -/
@[simp] theorem dots_singleton (cs : List Char) : dots [cs] = cs := by
  simp [dots]

/-- The first text stands in front, each other one behind a dot. -/
theorem dots_cons (cs : List Char) (css : List (List Char)) :
    dots (cs :: css) = cs ++ css.flatMap ('·' :: ·) := by
  induction css generalizing cs with
  | nil => simp
  | cons ds css ih =>
    have h := ih ds
    rw [dots] at h ⊢
    rw [List.intercalate_cons_cons, h]
    simp

/-- Texts below a fraction bar, in parentheses if there are several. -/
def bar : List (List Char) → List Char
  | [] => []
  | [cs] => '/' :: cs
  | css => '/' :: '(' :: dots css ++ [')']

/-- A fraction with a sign: the factors above the bar, and those below it. -/
structure Quotient where
  negative : Bool
  top : List Expr
  bottom : List Expr

namespace Quotient

/-- A number times the factors `top` over the factors `bottom`. Its numerator goes to the top,
unless it is one and there is something else, and its denominator below the bar, unless that is
one. -/
def scaled (c : Rat) (top bottom : List Expr) : Quotient where
  negative := c < 0
  top := if c.num.natAbs ≠ 1 ∨ top = [] then num c.num.natAbs :: top else top
  bottom := if c.den ≠ 1 then num c.den :: bottom else bottom

/-- The text of a fraction, without its sign. -/
def body (R : Radix) (v : Quotient) : List Char :=
  dots (v.top.map (child R 2)) ++ bar (v.bottom.map (child R 2))

end Quotient

/-- Layouts with dots between them as text. -/
theorem written_dotted (pss : List (List Piece)) :
    written R (dotted pss) = dots (pss.map (written R)) := by
  unfold dotted dots
  induction pss with
  | nil => rfl
  | cons ps pss ih =>
    cases pss with
    | nil => simp [List.intercalate]
    | cons qs pss =>
      simp only [List.map_cons, List.intercalate_cons_cons] at ih ⊢
      simp [ih]

/-- Numbers that bind tight enough stand in a fraction without parentheses. -/
theorem child_num {q : Rat} (h : 0 ≤ q) : child R 2 (num q) = R.write q := by
  rw [child_of_le _ rfl, text_num]
  simp only [looseness, not_lt.mpr h, if_false]
  split_ifs <;> decide

/-- The magnitude of a rational has the magnitude of its numerator as its numerator, and its
denominator. -/
theorem num_den_abs (c : Rat) : c.abs.num = (c.num.natAbs : Int) ∧ c.abs.den = c.den := by
  rcases le_total 0 c with h | h
  · rw [Rat.abs_of_nonneg h]
    exact ⟨(Int.natAbs_of_nonneg (Rat.num_nonneg.mpr h)).symm, rfl⟩
  · rw [Rat.abs_of_nonpos h, Rat.neg_num, Rat.neg_den]
    have := Rat.num_nonpos.mpr h
    exact ⟨by omega, rfl⟩

/-- What is below a fraction bar as text. -/
theorem written_below (pss : List (List Piece)) :
    written R (match pss with
      | [] => []
      | [ps] => .text "/" :: ps
      | _ => .text "/" :: between "(" ")" (dotted pss)) = bar (pss.map (written R)) := by
  match pss with
  | [] => rfl
  | [ps] => rfl
  | ps :: qs :: pss => simp [written_dotted, bar]

/-- The factors of a fraction as layouts. -/
def enclosed (fs : List Expr) : List (List Piece) :=
  fs.map fun f => enclose false 2 f (layout false f)

/-- The factors of a fraction are written as operands of a product. -/
theorem written_enclosed (fs : List Expr) : (enclosed fs).map (written R) = fs.map (child R 2) := by
  rw [enclosed, List.map_map]
  rfl

/-- A fraction as text. -/
theorem written_fraction (c : Rat) (top bottom : List Expr) :
    written R (fraction false c (enclosed top) (enclosed bottom)) =
      sign (Quotient.scaled c top bottom).negative ++ (Quotient.scaled c top bottom).body R := by
  obtain ⟨hnum, hden⟩ := num_den_abs c
  have hwhole : written R [.number ((c.num.natAbs : Int) : Rat)] =
      child R 2 (num c.num.natAbs) := by
    rw [child_num (Nat.cast_nonneg _), written_number, written_nil, List.append_nil,
      Int.cast_natCast]
  have hbar : written R [.number (c.den : Rat)] = child R 2 (num c.den) := by
    rw [child_num (Nat.cast_nonneg _), written_number, written_nil, List.append_nil]
  have hempty : (enclosed top).isEmpty = true ↔ top = [] := by simp [enclosed]
  have hsign : written R (if c < 0 then [.text "-"] else []) = sign (decide (c < 0)) := by
    simp only [sign, decide_eq_true_eq, apply_ite (written R)]
    rfl
  have htop : (if ((c.num.natAbs : Int) : Rat) ≠ 1 ∨ top = [] then
      [.number ((c.num.natAbs : Int) : Rat)] :: enclosed top else enclosed top).map (written R) =
        (if c.num.natAbs ≠ 1 ∨ top = [] then num c.num.natAbs :: top else top).map (child R 2) := by
    have hone : ((c.num.natAbs : Int) : Rat) ≠ 1 ↔ c.num.natAbs ≠ 1 := by norm_cast
    rw [apply_ite (List.map (written R)), apply_ite (List.map (child R 2))]
    simp only [hone, List.map_cons, hwhole, written_enclosed]
  have hbottom :
      (if c.den ≠ 1 then [.number (c.den : Rat)] :: enclosed bottom else enclosed bottom).map
      (written R) = (if c.den ≠ 1 then num c.den :: bottom else bottom).map (child R 2) := by
    rw [apply_ite (List.map (written R)), apply_ite (List.map (child R 2))]
    simp only [List.map_cons, hbar, written_enclosed]
  unfold fraction Quotient.body Quotient.scaled
  simp only [hnum, hden, Bool.false_eq_true, if_false, Bool.not_false, Bool.true_and,
    Bool.or_eq_true, hempty, bne_iff_ne, written_append, written_dotted, List.append_assoc]
  refine congrArg₂ (· ++ ·) hsign (congrArg₂ (· ++ ·) (congrArg dots htop) ?_)
  exact (written_below _).trans (congrArg bar hbottom)

/-- The fraction that an expression is shown as. A number is one if its digits never end; anything
that is neither a number nor a product is its own only factor, unless it is shown below a bar. -/
def quotientOf (R : Radix) : Expr → Quotient
  | .num q =>
    if (R.writeExact? q).isSome then
      ⟨q < 0, [num |q|], []⟩ else ⟨q < 0, [num q.num.natAbs], [num q.den]⟩
  | .product fs => .scaled (coefficientOf fs) (above fs) ((below fs).map Expr.inverted)
  | e => if e.isInverse then .scaled 1 [] [e.inverted] else ⟨false, [e], []⟩

/-- The layout of a product. -/
theorem layout_product (fs : List Expr) : layout false (.product fs) =
    fraction false (coefficientOf fs) (enclosed (above fs))
      (enclosed ((below fs).map Expr.inverted)) := by
  rw [layout]
  simp [enclosed, Function.comp_def]

/-- The layout of a power below a bar. -/
theorem layout_inverse (h : (Expr.power b x).isInverse = true) : layout false (.power b x) =
    fraction false 1 (enclosed []) (enclosed [(Expr.power b x).inverted]) := by
  rw [layout, dif_pos h]
  rfl

/-- Everything but a sum or a remainder is shown as a fraction. -/
theorem text_eq_body (hs : e.isSum = false) (hm : isMod e = false) :
    text R e = sign (quotientOf R e).negative ++ (quotientOf R e).body R := by
  have atom {e : Expr} (hm : isMod e = false) (hl : looseness false e ≤ 2)
      (hq : quotientOf R e = ⟨false, [e], []⟩) :
      text R e = sign (quotientOf R e).negative ++ (quotientOf R e).body R := by
    rw [hq, Quotient.body]
    simp [sign, bar, child_of_le hl hm]
  cases e with
  | num q =>
    rw [text_num, quotientOf]
    split_ifs with h
    · simp [Quotient.body, bar, child_num (abs_nonneg q), write_of_isSome h]
    · have hn : (0 : Rat) ≤ q.num.natAbs := Nat.cast_nonneg _
      have hd : (0 : Rat) ≤ q.den := Nat.cast_nonneg _
      rw [write_of_not_isSome h, Quotient.body]
      simp only [List.map_cons, List.map_nil, child_num hn, child_num hd, dots_singleton, bar,
        List.append_assoc]
  | product fs => rw [text, layout_product, written_fraction, quotientOf]
  | power b x =>
    cases h : (Expr.power b x).isInverse with
    | true =>
      rw [text, layout_inverse h, written_fraction, quotientOf, if_pos h]
      all_goals simp
    | false =>
      refine atom rfl ?_ ?_
      · simp [looseness, h]
      · rw [quotientOf, if_neg (by simp [h])]
        all_goals simp
  | sum ts => cases hs
  | mod x d => cases hm
  | _ => exact atom rfl (by simp [looseness]) rfl

/-! ## Terms -/

/-- What stands beside a coefficient is shown as its factors. -/
theorem quotientOf_monic {r : Expr} (h : r.IsMonic) :
    quotientOf R r = .scaled 1 (above r.factors) ((below r.factors).map Expr.inverted) := by
  cases hp : r.isProduct with
  | true =>
    cases r with
    | product fs =>
      have hc : coefficientOf fs = 1 := Expr.coefficientOf_of_not_isNum h.not_isNum
      rw [quotientOf, Expr.factors, hc]
    | _ => cases hp
  | false =>
    have hn : r.isNum = false := h.not_isNum r (by simp [Expr.factors_of_not_isProduct hp])
    have hq : quotientOf R r =
        if r.isInverse then .scaled 1 [] [r.inverted] else ⟨false, [r], []⟩ := by
      cases r with
      | num q => cases hn
      | product fs => cases hp
      | _ => rfl
    have hone : ¬ (1 : Rat) < 0 := by decide
    rw [hq, Expr.factors_of_not_isProduct hp, above, below]
    cases hi : r.isInverse with
    | true => simp [hi, hn]
    | false => simp [hi, hn, Quotient.scaled, hone]

/-- A term is shown as its coefficient and the factors beside it. -/
theorem quotientOf_term {r : Expr} (h : r.IsMonic) (c : Rat) :
    quotientOf R (Canonical.term c r) =
      .scaled c (above r.factors) ((below r.factors).map Expr.inverted) := by
  by_cases hc : c = 1
  · rw [Canonical.term, if_pos hc, hc, quotientOf_monic h]
  · rw [h.term_of_ne_one hc, quotientOf, coefficientOf, Expr.coefficientOf_of_not_isNum h.not_isNum,
      mul_one]
    rfl

/-- The sign of the coefficient does not show in what stands behind it. -/
theorem body_scaled_neg (c : Rat) (top bottom : List Expr) :
    (Quotient.scaled (-c) top bottom).body R = (Quotient.scaled c top bottom).body R := by
  simp only [Quotient.scaled, Quotient.body, Rat.neg_num, Rat.neg_den, Int.natAbs_neg]

/-- A term is shown with a minus sign if its coefficient is negative. -/
theorem negative_quotientOf (e : Expr) : (quotientOf R e).negative = e.isNegative := by
  have hone : ¬ (1 : Rat) < 0 := by decide
  cases e with
  | num q =>
    rw [quotientOf]
    split_ifs <;> rfl
  | product fs => rfl
  | power b x =>
    rw [quotientOf]
    · split_ifs <;> simp [Quotient.scaled, Expr.isNegative, Expr.splitCoefficient, hone]
    all_goals simp
  | _ => simp [quotientOf, Expr.isInverse, Expr.isNegative, Expr.splitCoefficient, hone]

/-- A term that is not negative is shown as its fraction. -/
theorem child_of_not_isNegative (hs : e.isSum = false) (hn : e.isNegative = false) :
    child R 3 e = (quotientOf R e).body R := by
  cases hm : isMod e with
  | true =>
    cases e with
    | mod x d => simp [quotientOf, Expr.isInverse, Quotient.body, bar, child_mod]
    | _ => cases hm
  | false =>
    have hl : looseness false e ≤ 3 := by
      cases e with
      | num q =>
        have hq : ¬ q < 0 := of_decide_eq_false hn
        simp only [looseness, if_neg hq]
        split_ifs <;> decide
      | power b x =>
        rw [looseness]
        split_ifs <;> decide
      | _ => simp [looseness]
    rw [child_of_le hl hm, text_eq_body hs hm, negative_quotientOf, hn]
    rfl

/-- What is shown behind the minus sign of a negative term is its fraction. -/
theorem child_negated (h : e.IsSettled) (hs : e.isSum = false) (hn : e.isNegative = true) :
    child R 3 e.negated = (quotientOf R e).body R := by
  cases hnum : e.isNum with
  | true =>
    obtain ⟨q, rfl⟩ := Expr.exists_eq_num hnum
    have hq : q < 0 := of_decide_eq_true hn
    have hsome : (R.writeExact? (-q)).isSome = (R.writeExact? q).isSome := by
      rw [writeExact?_abs q, writeExact?_abs (-q), abs_neg, Option.isSome_map, Option.isSome_map]
    have hpos : (num (-q)).isNegative = false := by
      simp [Expr.isNegative, Expr.splitCoefficient, hq.le]
    rw [show (num q).negated = num (-q) from rfl, child_of_not_isNegative rfl hpos, quotientOf,
      quotientOf, hsome, abs_neg, Rat.neg_num, Rat.neg_den, Int.natAbs_neg]
    split_ifs <;> rfl
  | false =>
    obtain ⟨c, r, -, hr, rfl⟩ := h.exists_term hnum hs
    have hc : c < 0 := by simpa [Expr.isNegative, hr.splitCoefficient_term] using hn
    have hneg : (Canonical.term c r).negated = Canonical.term (-c) r := by
      rw [Expr.negated, hr.splitCoefficient_term]
      simp only
      split_ifs with h1
      · rw [h1, neg_neg, Canonical.term, if_pos rfl]
      · rw [hr.term_of_ne_one fun h => h1 (neg_eq_iff_eq_neg.mp h)]
    have hpos : (Canonical.term (-c) r).isNegative = false := by
      simp [Expr.isNegative, hr.splitCoefficient_term, hc.le]
    rw [hneg, child_of_not_isNegative (hr.kind_term (-c)).2 hpos, quotientOf_term hr,
      quotientOf_term hr, body_scaled_neg]

/-! ## Sums -/

/-- Fractions behind each other, with a plus in front of each but the first that has no minus. -/
def total (R : Radix) : List Quotient → List Char
  | [] => []
  | v :: vs =>
    sign v.negative ++ v.body R ++ vs.flatMap fun v => (if v.negative then '-' else '+') :: v.body R

/-- The layout of a sum. -/
theorem layout_sum (ts : List Expr) : layout false (.sum ts) = signed ((numbersLast ts).map fun t =>
    if t.isNegative then (true, enclose false 3 t.negated (layout false t.negated))
    else (false, enclose false 3 t (layout false t))) := by
  rw [layout]
  simp

/-- The terms behind the first one are shown with their signs in front. -/
theorem written_following {shown : Expr → Bool × List Piece} {fraction : Expr → Quotient}
    (h : ∀ t ∈ ts, (shown t).1 = (fraction t).negative ∧
      written R (shown t).2 = (fraction t).body R) :
    written R
      ((ts.map shown).flatMap fun (negative, ps) => .text (if negative then "-" else "+") :: ps) =
        (ts.map fraction).flatMap fun v => (if v.negative then '-' else '+') :: v.body R := by
  induction ts with
  | nil => rfl
  | cons t ts ih =>
    obtain ⟨hneg, hbody⟩ := h t List.mem_cons_self
    simp only [List.map_cons, List.flatMap_cons, written_append, written_text, hneg, hbody,
      ih fun t ht => h t (List.mem_cons_of_mem _ ht)]
    split_ifs <;> rfl

/-- Signed layouts that show fractions together show all of them. -/
theorem written_signed {shown : Expr → Bool × List Piece} {fraction : Expr → Quotient}
    (h : ∀ t ∈ ts, (shown t).1 = (fraction t).negative ∧
      written R (shown t).2 = (fraction t).body R) :
    written R (signed (ts.map shown)) = total R (ts.map fraction) := by
  cases ts with
  | nil => rfl
  | cons t ts =>
    obtain ⟨hneg, hbody⟩ := h t List.mem_cons_self
    simp only [List.map_cons, signed, total, written_append, hneg, hbody,
      written_following fun t ht => h t (List.mem_cons_of_mem _ ht), apply_ite (written R)]
    rfl

/-- A settled sum is shown as the fractions of its terms. -/
theorem text_sum (h : (Expr.sum ts).IsSettled) :
    text R (.sum ts) = total R ((numbersLast ts).map (quotientOf R)) := by
  obtain ⟨hn, -, hts⟩ := Expr.settled_sum_iff.mp h
  rw [text, layout_sum]
  refine written_signed fun t ht => ?_
  have ht := mem_numbersLast ht
  rw [negative_quotientOf]
  cases hneg : t.isNegative with
  | true => exact ⟨rfl, child_negated (hts t ht) (hn.not_isSum t ht) hneg⟩
  | false => exact ⟨rfl, child_of_not_isNegative (hn.not_isSum t ht) hneg⟩

end StackAlgebra.Display
