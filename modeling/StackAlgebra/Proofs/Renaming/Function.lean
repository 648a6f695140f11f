import StackAlgebra.Proofs.Renaming.Product
import StackAlgebra.Proofs.NormalForm.Function

/-!
# Functions under new names

The functions of the expression language ask of their operands which forms they have and which are
the same, so that under injective new names each of them comes to its relabelled result, like the
products and powers that it asks for. There are no names in a full turn and in the tabulated values
of sine and tangent, nor in anything that is computed from them alone (`relabel_of_product_eq_ok`).
-/

namespace StackAlgebra

namespace Expr

/-- Renaming makes nothing an even number. -/
@[simp] theorem isEven_relabel (s : String → String) (e : Expr) :
    (e.relabel s).isEven = e.isEven := by
  cases e <;> simp [isEven]

end Expr

namespace Canonical

open StackAlgebra.Expr (num relabel)

variable {s : String → String} {fs : List Expr} {x b r : Expr} {name : Option String}

/-! ## Absolute values -/

/-- Forms show that expressions are never negative if each of them does. -/
theorem areNonnegative_eq_all (es : List Expr) : areNonnegative es = es.all isNonnegative := by
  induction es with
  | nil => rfl
  | cons e es ih => rw [areNonnegative, ih, List.all_cons]

/-- What the form of an expression shows does not depend on names. -/
theorem isNonnegative_relabel (s : String → String) (e : Expr) :
    isNonnegative (e.relabel s) = isNonnegative e := by
  induction e using Expr.induction_on_children with
  | step e ih =>
    have all {es : List Expr} (hes : ∀ x ∈ es, x ∈ e.children) :
        areNonnegative (Expr.sort (es.map (relabel s))) = areNonnegative es := by
      rw [areNonnegative_eq_all, areNonnegative_eq_all, (Expr.perm_sort _).all_eq, List.all_map,
        Bool.eq_iff_iff, List.all_eq_true, List.all_eq_true]
      exact forall₂_congr fun x hx => by rw [Function.comp_apply, ih x (hes x hx)]
    cases e with
    | sum ts =>
      rw [Expr.relabel_sum, isNonnegative, isNonnegative]
      exact all fun _ hx => hx
    | product fs =>
      rw [Expr.relabel_product, isNonnegative, isNonnegative]
      exact all fun _ hx => hx
    | power b a =>
      rw [Expr.relabel_power, isNonnegative, isNonnegative, ih b (by simp), Expr.isEven_relabel]
    | unary f x => cases f <;> rfl
    | _ => rfl

/-- The absolute value beside a coefficient gets the new names. -/
theorem absRest_relabel (s : String → String) (x : Expr) :
    absRest (x.relabel s) = (absRest x).relabel s := by
  rw [absRest, isNonnegative_relabel, absRest]
  split_ifs <;> rfl

/-- The absolute value of a settled expression comes to its relabelled result. -/
theorem reaches_abs (hs : s.Injective) (hx : x.IsSettled) (h : abs x = .ok r) :
    Reaches (abs (x.relabel s)) (r.relabel s) := by
  cases hn : x.isNum with
  | true =>
    obtain ⟨q, rfl⟩ := Expr.exists_eq_num hn
    rw [← Except.ok.inj h]
    exact .inl rfl
  | false =>
    have hn' : (x.relabel s).isNum = false := by rwa [Expr.isNum_relabel]
    cases hp : isNonnegative x with
    | true =>
      rw [abs_of_isNonnegative hn hp] at h
      rw [← Except.ok.inj h]
      exact .inl (abs_of_isNonnegative hn' ((isNonnegative_relabel s x).trans hp))
    | false =>
      obtain ⟨c, rest, hsplit, hrest⟩ := splitCoefficient_spec hx hn
      have hsplit' : (x.relabel s).splitCoefficient = (c, some (rest.relabel s)) := by
        rw [Expr.splitCoefficient_relabel, hsplit]
        rfl
      rw [abs_eq hn hp hsplit] at h
      rw [abs_eq hn' ((isNonnegative_relabel s x).trans hp) hsplit', absRest_relabel]
      split_ifs at h ⊢ with h1
      · rw [← Except.ok.inj h]
        exact .inl rfl
      · have hsettled : ∀ f ∈ [num c.abs, absRest rest], f.IsSettled := by
          simpa using ⟨Expr.settled_num _, settled_absRest (hrest h1).1⟩
        exact reaches_product hs hsettled h

/-! ## Logarithms and remainders -/

/-- An expression is the power of another by its form if it is so under new names. -/
theorem exponentOf?_relabel (hs : s.Injective) (x b : Expr) :
    exponentOf? (x.relabel s) (b.relabel s) = (exponentOf? x b).map (relabel s) := by
  unfold exponentOf?
  rw [Expr.isOne_relabel, Expr.same_relabel hs]
  split_ifs
  · rfl
  · rfl
  · cases x with
    | power c a =>
      simp only [Expr.relabel_power, Expr.same_relabel hs]
      split_ifs <;> rfl
    | sum ts => simp
    | product fs => simp
    | _ => rfl

/-- A base is refused under new names if it was before. -/
theorem checkBase_relabel (s : String → String) (b : Expr) :
    checkBase (b.relabel s) = checkBase b := by
  cases b <;> simp [checkBase]

/-- An operand is refused under new names if it was before. -/
theorem checkOperand_relabel (s : String → String) (x : Expr) :
    checkOperand (x.relabel s) = checkOperand x := by
  cases x <;> simp [checkOperand]

/-- The logarithm of numbers has no names in it. -/
theorem relabel_of_numberLog_eq_ok {p q : Rat} (h : numberLog p q = .ok r) : r.relabel s = r := by
  rcases numberLog_eq_ok h with ⟨k, rfl⟩ | rfl <;> rfl

/-- A logarithm other than that of a number to a number stands where it is not refused and nothing
is seen by its form. -/
theorem log_eq (hb : checkBase b = .ok ()) (hx : checkOperand x = .ok ())
    (he : exponentOf? x b = none) (hn : ¬ (x.isNum = true ∧ b.isNum = true)) :
    log x b = .ok (.log x b) := by
  unfold log
  rw [hb, hx, he]
  cases x with
  | num p =>
    cases b with
    | num q => exact absurd ⟨rfl, rfl⟩ hn
    | _ => rfl
  | _ => rfl

/-- The logarithm comes to its relabelled result. -/
theorem log_relabel (hs : s.Injective) (h : log x b = .ok r) :
    log (x.relabel s) (b.relabel s) = .ok (r.relabel s) := by
  have hlog := h
  unfold log at h
  obtain ⟨⟨⟩, hb, h⟩ := bind_eq_ok_iff.mp h
  obtain ⟨⟨⟩, hx, h⟩ := bind_eq_ok_iff.mp h
  have hb' : checkBase (b.relabel s) = .ok () := (checkBase_relabel s b).trans hb
  have hx' : checkOperand (x.relabel s) = .ok () := (checkOperand_relabel s x).trans hx
  have he' := exponentOf?_relabel hs x b
  cases he : exponentOf? x b with
  | some e =>
    rw [he] at h he'
    unfold log
    rw [hb', hx', he', ← Except.ok.inj h]
    rfl
  | none =>
    rw [he] at h he'
    by_cases hn : x.isNum = true ∧ b.isNum = true
    · obtain ⟨p, rfl⟩ := Expr.exists_eq_num hn.1
      obtain ⟨q, rfl⟩ := Expr.exists_eq_num hn.2
      rw [relabel_of_numberLog_eq_ok h]
      exact hlog
    · rw [log_eq hb hx he hn] at hlog
      rw [← Except.ok.inj hlog]
      exact log_eq hb' hx' he' (by simpa using hn)

/-- The remainder of anything but a number by a number is seen by its form, or stands. -/
theorem mod_eq {d : Expr} (hd : d.isZero = false) (hn : ¬ (x.isNum = true ∧ d.isNum = true)) :
    mod x d = if x.isZero || x.same d then .ok (num 0) else .ok (.mod x d) := by
  unfold mod
  rw [hd, if_neg Bool.false_ne_true]
  cases x with
  | num p =>
    cases d with
    | num q => exact absurd ⟨rfl, rfl⟩ hn
    | _ => rfl
  | _ => rfl

/-- The remainder comes to its relabelled result. -/
theorem mod_relabel (hs : s.Injective) {d : Expr} (h : mod x d = .ok r) :
    mod (x.relabel s) (d.relabel s) = .ok (r.relabel s) := by
  by_cases hn : x.isNum = true ∧ d.isNum = true
  · obtain ⟨p, rfl⟩ := Expr.exists_eq_num hn.1
    obtain ⟨q, rfl⟩ := Expr.exists_eq_num hn.2
    rw [Expr.relabel_num, Expr.relabel_num, h]
    rcases mod_eq_ok h with ⟨k, rfl⟩ | rfl <;> rfl
  · cases hd : d.isZero with
    | true =>
      unfold mod at h
      rw [hd, if_pos rfl] at h
      cases h
    | false =>
      rw [mod_eq hd hn] at h
      rw [mod_eq (by rwa [Expr.isZero_relabel]) (by simpa using hn), Expr.isZero_relabel,
        Expr.same_relabel hs]
      split_ifs at h ⊢ <;> exact congrArg _ (congrArg (relabel s) (Except.ok.inj h))

/-! ## Values without names -/

/-- There are no names in a product of settled expressions without names. -/
theorem relabel_of_product_eq_ok (hs : s.Injective) (hfs : ∀ f ∈ fs, f.IsSettled)
    (hn : ∀ f ∈ fs, f.relabel s = f) (h : product fs = .ok r) : r.relabel s = r := by
  have hr := reaches_product hs hfs h
  rw [List.map_congr_left hn, List.map_id'] at hr
  exact (hr.eq_of_eq_ok h).symm

/-- There are no names in the tabulated values. -/
theorem relabel_of_mem_tabulated (s : String → String) {e : Expr} (h : e ∈ tabulated) :
    e.relabel s = e := by
  have hnames : ∀ e ∈ tabulated, e.names = [] := by
    simp [tabulated, SpecialAngle.sines, SpecialAngle.tangents, SpecialAngle.root, Expr.names,
      Expr.namesOf]
  exact Expr.relabel_of_names_eq_nil (hnames e h) (settled_tabulated h).inOrder

/-- There are no names in a full turn. -/
theorem relabel_fullTurn (s : String → String) (m : AngleMeasure) :
    (fullTurn m).relabel s = fullTurn m := by
  refine Expr.relabel_of_names_eq_nil ?_ (settled_fullTurn m).inOrder
  unfold fullTurn
  split_ifs <;> rfl

/-- There are no names in a tabulated value with its sign. -/
theorem relabel_of_toExpr_eq_ok (hs : s.Injective) {v : SpecialAngle.Value}
    (hv : v.magnitude ∈ tabulated) (h : v.toExpr = .ok r) : r.relabel s = r := by
  rcases toExpr_eq_ok h with rfl | h
  · exact relabel_of_mem_tabulated s hv
  · refine relabel_of_product_eq_ok hs ?_ ?_ h
    · simpa using ⟨Expr.settled_num _, settled_tabulated hv⟩
    · simpa using relabel_of_mem_tabulated s hv

/-- There are no names in a number of turns. -/
theorem relabel_of_ofTurns_eq_ok (hs : s.Injective) {t : Rat} {m : AngleMeasure}
    (h : ofTurns t m = .ok r) :
    r.relabel s = r := by
  have hsettled : ∀ f ∈ [num t, fullTurn m], f.IsSettled := by
    simpa using ⟨Expr.settled_num t, settled_fullTurn m⟩
  exact relabel_of_product_eq_ok hs hsettled (by simpa using relabel_fullTurn s m) h

/-! ## Angles -/

/-- An angle comes to its relabelled number of turns. -/
theorem reaches_toTurns (hs : s.Injective) (hx : x.IsSettled) {m : AngleMeasure} {t : Expr}
    (h : toTurns x m = .ok t) : Reaches (toTurns (x.relabel s) m) (t.relabel s) := by
  unfold toTurns at h ⊢
  obtain ⟨p, hp, h⟩ := bind_eq_ok_iff.mp h
  have hps := settled_power (settled_fullTurn m) (Expr.settled_num _) hp
  -- A turn to the power of minus one has no names in it.
  have hpower := reaches_power hs (settled_fullTurn m) (Expr.settled_num (-1)) hp
  rw [relabel_fullTurn, Expr.relabel_num] at hpower
  refine hpower.bind ?_
  have hsettled : ∀ f ∈ [x, p], f.IsSettled := by simpa using ⟨hx, hps⟩
  exact reaches_product hs hsettled h

/-- A function of an angle comes to its relabelled result. -/
theorem reaches_ofAngle (hs : s.Injective) {f : AngleFunction} (hx : x.IsSettled)
    (h : ofAngle f x name = .ok r) :
    Reaches (ofAngle f (x.relabel s) name) (r.relabel s) := by
  unfold ofAngle at h ⊢
  obtain ⟨m, hm, h⟩ := bind_eq_ok_iff.mp h
  obtain ⟨t, ht, h⟩ := bind_eq_ok_iff.mp h
  refine Reaches.bind (.inl hm) ((reaches_toTurns hs hx ht).bind ?_)
  cases t with
  | num q =>
    obtain ⟨v, hv, h⟩ := bind_eq_ok_iff.mp h
    refine Reaches.bind (.inl hv) ?_
    cases v with
    | some v =>
      rw [relabel_of_toExpr_eq_ok hs (mem_of_specialValue? hv) h]
      exact .inl h
    | none =>
      rw [← Except.ok.inj h]
      exact .inl rfl
  | sum ts =>
    rw [← Except.ok.inj h, Expr.relabel_sum]
    exact .inl rfl
  | product fs =>
    rw [← Except.ok.inj h, Expr.relabel_product]
    exact .inl rfl
  | _ =>
    rw [← Except.ok.inj h]
    exact .inl rfl

/-- A table has a special angle under new names where it had one before. -/
theorem angle?_relabel (hs : s.Injective) (x : Expr) {table : List (Rat × Expr)}
    (h : ∀ p ∈ table, p.2 ∈ tabulated) :
    SpecialAngle.angle? (x.relabel s) table = SpecialAngle.angle? x table := by
  induction table with
  | nil => rfl
  | cons p table ih =>
    obtain ⟨t, v⟩ := p
    obtain ⟨hv, htable⟩ := List.forall_mem_cons.mp h
    -- What has no names is the same as an expression exactly if it is the same under new names.
    have same {w : Expr} (hw : w.relabel s = w) : w.same (x.relabel s) = w.same x := by
      rw [← Expr.same_relabel hs w x, hw]
    rw [SpecialAngle.angle?, SpecialAngle.angle?, same (relabel_of_mem_tabulated s hv), ih htable]
    cases hw : product [num (-1), v] with
    | error ε => rfl
    | ok w =>
      have hsettled : ∀ f ∈ [num (-1), v], f.IsSettled := by
        simpa using ⟨Expr.settled_num _, settled_tabulated hv⟩
      have hfixed :=
        relabel_of_product_eq_ok hs hsettled (by simpa using relabel_of_mem_tabulated s hv) hw
      dsimp only [bind, Except.bind]
      rw [same hfixed]

/-- An expression is the sine, cosine or tangent of a special angle under new names if it was
before. -/
theorem specialAngle?_relabel (hs : s.Injective) (f : AngleFunction) (x : Expr) :
    specialAngle? f (x.relabel s) = specialAngle? f x := by
  have hsines : ∀ p ∈ SpecialAngle.sines, p.2 ∈ tabulated := fun p hp =>
    List.mem_map_of_mem (List.mem_append_left _ hp)
  have htangents : ∀ p ∈ SpecialAngle.tangents, p.2 ∈ tabulated := fun p hp =>
    List.mem_map_of_mem (List.mem_append_right _ hp)
  cases f <;> simp only [specialAngle?, angle?_relabel hs x hsines, angle?_relabel hs x htangents]

/-- A number is refused as sine or cosine under new names if it was before. -/
theorem checkCosine_relabel (s : String → String) (f : AngleFunction) (x : Expr) :
    checkCosine f (x.relabel s) = checkCosine f x := by
  cases f <;> cases x <;> simp [checkCosine]

/-- The angle of a sine, cosine or tangent comes to its relabelled result. -/
theorem toAngle_relabel (hs : s.Injective) {f : AngleFunction} (h : toAngle f x name = .ok r) :
    toAngle f (x.relabel s) name = .ok (r.relabel s) := by
  unfold toAngle at h ⊢
  obtain ⟨u, hu, h⟩ := bind_eq_ok_iff.mp h
  obtain ⟨t, ht, h⟩ := bind_eq_ok_iff.mp h
  rw [checkCosine_relabel, specialAngle?_relabel hs]
  refine bind_eq_ok_iff.mpr ⟨u, hu, bind_eq_ok_iff.mpr ⟨t, ht, ?_⟩⟩
  cases t with
  | some t =>
    obtain ⟨m, hm, h⟩ := bind_eq_ok_iff.mp h
    rw [relabel_of_ofTurns_eq_ok hs h]
    exact bind_eq_ok_iff.mpr ⟨m, hm, h⟩
  | none =>
    rw [← Except.ok.inj h]
    rfl

/-- A function to or from angles comes to its relabelled result. -/
theorem reaches_angle (hs : s.Injective) {f : AngleFunction} (hx : x.IsSettled)
    (h : angle f x name = .ok r) :
    Reaches (angle f (x.relabel s) name) (r.relabel s) := by
  unfold angle at h ⊢
  split_ifs at h ⊢
  · exact .inl (toAngle_relabel hs h)
  · exact reaches_ofAngle hs hx h

/-! ## Functions of one operand -/

/-- A function of one settled operand comes to its relabelled result. -/
theorem reaches_unary (hs : s.Injective) {f : UnaryFunction} (hx : x.IsSettled)
    (h : unary f x = .ok r) :
    Reaches (unary f (x.relabel s)) (r.relabel s) := by
  cases f with
  | neg =>
    have hsettled : ∀ f ∈ [num (-1), x], f.IsSettled := by simpa using ⟨Expr.settled_num _, hx⟩
    exact reaches_product hs hsettled h
  | recip => exact reaches_power hs hx (Expr.settled_num (-1)) h
  | abs => exact reaches_abs hs hx h
  | sqrt => exact reaches_power hs hx (Expr.settled_num (1 / 2)) h
  | square => exact reaches_power hs hx (Expr.settled_num 2) h
  | ln => exact .inl (log_relabel hs h)

end Canonical
end StackAlgebra
