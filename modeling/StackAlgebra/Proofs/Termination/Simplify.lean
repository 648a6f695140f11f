import StackAlgebra.Proofs.NormalForm.Idempotence
import StackAlgebra.Proofs.Termination.Product

/-!
# The canonical form comes to an end

Whatever the expression, the procedures of `Proofs/Termination/Procedures` bring it to its canonical
form, or to the error that it fails with, within a large enough budget (`terminates`). Functions of
angles simplify tabulated values on their way, which hold no such functions themselves. So
expressions without functions of angles are shown to come to an end first (`IsPlain.endsWith`), and
all others from these.
-/

namespace StackAlgebra.Canonical

open Budgeted (EndsWith)
open StackAlgebra.Expr (num)

variable {x e : Expr} {c : Rat}

/-! ## Absolute values -/

/-- The absolute value of what stands beside a coefficient comes to an end. -/
theorem endsWith_absRest (h : x.IsMonic) : EndsWith (fun n => absWithin n x) (.ok (absRest x)) := by
  have hn : x.isNum = false := by
    have hk := (h.kind_term 1).1
    rwa [term, if_pos rfl] at hk
  obtain ⟨c, rest, hs, -⟩ := splitCoefficient_spec h.settled hn
  have hc : c = 1 := by
    have hone := coefficient_of_isMonic h
    rwa [hs] at hone
  apply EndsWith.of_succ
  unfold absRest
  cases x with
  | num q => cases hn
  | _ =>
    simp only [absWithin, hs, if_pos hc]
    split_ifs
    · exact .pure _
    · exact .pure _

/-- The absolute value of a settled expression comes to an end. -/
theorem endsWith_abs (hx : x.IsSettled) : EndsWith (fun n => absWithin n x) (abs x) := by
  cases hn : x.isNum with
  | true =>
    obtain ⟨q, rfl⟩ := Expr.exists_eq_num hn
    exact .of_succ (.pure _)
  | false =>
    obtain ⟨c, rest, hs, hrest⟩ := splitCoefficient_spec hx hn
    apply EndsWith.of_succ
    cases hp : isNonnegative x with
    | true =>
      rw [abs_of_isNonnegative hn hp]
      cases x with
      | num q => cases hn
      | _ =>
        simp only [absWithin, hp, if_true]
        exact .pure _
    | false =>
      rw [abs_eq hn hp hs]
      cases x with
      | num q => cases hn
      | _ =>
        simp only [absWithin, hp, hs, Bool.false_eq_true, if_false]
        by_cases h1 : c = 1
        · simp only [if_pos h1]
          exact .pure _
        · simp only [if_neg h1]
          refine (endsWith_absRest (hrest h1).1).bind ?_
          exact endsWith_product (by simpa using ⟨Expr.settled_num _, settled_absRest (hrest h1).1⟩)

/-- A function of one settled operand comes to an end. -/
theorem endsWith_unary (f : UnaryFunction) (hx : x.IsSettled) :
    EndsWith (fun n => unaryWithin n f x) (unary f x) := by
  cases f with
  | neg => exact endsWith_product (by simpa using ⟨Expr.settled_num _, hx⟩)
  | recip => exact endsWith_power hx (Expr.settled_num _)
  | abs => exact endsWith_abs hx
  | sqrt => exact endsWith_power hx (Expr.settled_num _)
  | square => exact endsWith_power hx (Expr.settled_num _)
  | ln => exact .known _

/-! ## One node after its children -/

/-- The canonical form of an expression comes to an end if those of its children do, and so does the
function of an angle that the expression may be. -/
theorem endsWith_node
    (hchildren : ∀ c ∈ e.children, EndsWith (fun n => simplifyWithin n c) c.simplify)
    (hangle : ∀ f x m, e = .angle f x m → ∀ r, x.simplify = .ok r →
      EndsWith (fun n => angleWithin (fun e => simplifyWithin n e) n f r m) (angle f r m)) :
    EndsWith (fun n => simplifyWithin n e) e.simplify := by
  have all {es : List Expr} (hes : ∀ x ∈ es, x ∈ e.children) :
      EndsWith (fun n => es.mapM fun x => simplifyWithin n x) (Expr.simplifyAll es) := by
    rw [Expr.simplifyAll_eq_mapM]
    exact .mapM fun x hx => hchildren x (hes x hx)
  have settled {es rs : List Expr} (h : Expr.simplifyAll es = .ok rs) : ∀ r ∈ rs, r.IsSettled :=
    Expr.settled_of_forall₂ (Expr.simplifyAll_eq_ok_iff.mp h)
  apply EndsWith.of_succ
  cases e with
  | num q => exact .pure _
  | const c => exact .pure _
  | var x => exact .pure _
  | sum ts =>
    simp only [simplifyWithin, Expr.simplify]
    exact (all fun _ h => h).bind_of_ok fun rs _ => endsWith_sum rs
  | product fs =>
    simp only [simplifyWithin, Expr.simplify]
    exact (all fun _ h => h).bind_of_ok fun rs hrs => endsWith_product (settled hrs)
  | power b a =>
    simp only [simplifyWithin, Expr.simplify]
    refine (hchildren b (by simp)).bind_of_ok fun b' hb => ?_
    refine (hchildren a (by simp)).bind_of_ok fun a' ha => ?_
    exact endsWith_power (Expr.settled_simplify hb) (Expr.settled_simplify ha)
  | unary f x =>
    simp only [simplifyWithin, Expr.simplify]
    exact (hchildren x (by simp)).bind_of_ok fun x' hx =>
      endsWith_unary f (Expr.settled_simplify hx)
  | log x b =>
    simp only [simplifyWithin, Expr.simplify]
    refine (hchildren x (by simp)).bind_of_ok fun x' _ => ?_
    exact (hchildren b (by simp)).bind_of_ok fun b' _ => .known _
  | mod x d =>
    simp only [simplifyWithin, Expr.simplify]
    refine (hchildren x (by simp)).bind_of_ok fun x' _ => ?_
    exact (hchildren d (by simp)).bind_of_ok fun d' _ => .known _
  | angle f x m =>
    simp only [simplifyWithin, Expr.simplify]
    exact (hchildren x (by simp)).bind_of_ok fun x' hx => hangle f x m rfl x' hx

/-! ## Tabulated values -/

/-- The node is no function of an angle, and if it is a product its factors have different bases. -/
def PlainNode : Expr → Prop
  | .angle _ _ _ => False
  | e => e.DistinctNode

/-- The expression holds no functions of angles, and the factors of its products have different
bases. -/
def IsPlain (e : Expr) : Prop := e.Everywhere PlainNode

/-- A plain expression has products with different bases. -/
theorem IsPlain.hasDistinctBases (h : IsPlain e) : e.HasDistinctBases := by
  refine Expr.Everywhere.mono (fun e he => ?_) h
  cases e with
  | angle f x m => cases he
  | _ => exact he

/-- The canonical form of a plain expression comes to an end. -/
theorem IsPlain.endsWith (h : IsPlain e) : EndsWith (fun n => simplifyWithin n e) e.simplify := by
  induction e using Expr.induction_on_children with
  | step e ih =>
    refine endsWith_node (fun c hc => ih c hc (h.child hc)) ?_
    rintro f x m rfl
    exact h.here.elim

/-- A plain expression that is settled comes to an end with itself. -/
theorem IsPlain.endsWith_self (h : IsPlain e) (hs : e.IsSettled) :
    EndsWith (fun n => simplifyWithin n e) (.ok e) := by
  rw [← Expr.simplify_fixed hs h.hasDistinctBases]
  exact h.endsWith

/-- A number is plain. -/
theorem plain_num (q : Rat) : IsPlain (num q) :=
  .intro trivial (by simp)

/-- A square root of a number is plain. -/
theorem plain_root (q : Rat) : IsPlain (SpecialAngle.root q) :=
  .intro trivial (Expr.Everywhere.pair (plain_num q) (plain_num _))

/-- A number and a plain expression make a plain sum. -/
theorem plain_num_add (hx : IsPlain x) : IsPlain (.sum [num c, x]) :=
  .intro trivial (Expr.Everywhere.pair (plain_num c) hx)

/-- A number times a plain expression other than a number is plain. -/
theorem plain_scaled (hx : IsPlain x) (hn : x.isNum = false) : IsPlain (.product [num c, x]) := by
  refine .intro ?_ (Expr.Everywhere.pair (plain_num c) hx)
  -- There is only one base.
  have hone : Expr.nonNumbers [num c, x] = [x] := by
    rw [Expr.nonNumbers, List.filter_cons_of_neg (by simp [Expr.isNum]),
      List.filter_cons_of_pos (by simp [hn])]
    rfl
  show Expr.AreDistinct ((Expr.nonNumbers [num c, x]).map Expr.base)
  rw [hone]
  exact List.pairwise_singleton _ _

/-- The tabulated values are plain. -/
theorem plain_tabulated (h : e ∈ tabulated) : IsPlain e := by
  simp only [tabulated, SpecialAngle.sines, SpecialAngle.tangents, List.cons_append,
    List.nil_append, List.map_cons, List.map_nil, List.mem_cons, List.not_mem_nil, or_false] at h
  rcases h with rfl | rfl | rfl | rfl | rfl | rfl | rfl | rfl | rfl | rfl | rfl
  · exact plain_num _
  · exact plain_num _
  · exact plain_scaled (plain_root 2) rfl
  · exact plain_scaled (plain_root 3) rfl
  · exact plain_num _
  · exact plain_num _
  · exact plain_num_add (plain_scaled (plain_root 3) rfl)
  · exact plain_scaled (plain_root 3) rfl
  · exact plain_num _
  · exact plain_root 3
  · exact plain_num_add (plain_root 3)

/-- A tabulated value comes to an end with itself. -/
theorem endsWith_tabulated (h : e ∈ tabulated) : EndsWith (fun n => simplifyWithin n e) (.ok e) :=
  (plain_tabulated h).endsWith_self (settled_tabulated h)

/-- A full turn comes to an end with itself. -/
theorem endsWith_fullTurn (m : AngleMeasure) :
    EndsWith (fun n => simplifyWithin n (fullTurn m)) (.ok (fullTurn m)) := by
  refine IsPlain.endsWith_self ?_ (settled_fullTurn m)
  unfold fullTurn
  split_ifs
  · exact plain_scaled (.intro trivial (by simp)) rfl
  · exact plain_num _

/-- A tabulated value with its sign comes to an end. -/
theorem endsWith_written {v : SpecialAngle.Value} (h : v.magnitude ∈ tabulated) :
    EndsWith (fun n => simplifyWithin n v.written) v.toExpr := by
  have hp := plain_tabulated h
  have hs : v.magnitude.simplify = .ok v.magnitude :=
    Expr.simplify_fixed (settled_tabulated h) hp.hasDistinctBases
  unfold SpecialAngle.Value.written SpecialAngle.Value.toExpr
  split_ifs
  · have hneg : product [num (-1), v.magnitude] =
        (Expr.product [num (-1), v.magnitude]).simplify := by
      simp only [Expr.simplify, Expr.simplifyAll, hs]
      rfl
    rw [hneg]
    refine endsWith_node ?_ (by rintro f x m ⟨⟩)
    exact List.forall_mem_cons.mpr
      ⟨(plain_num _).endsWith, List.forall_mem_singleton.mpr hp.endsWith⟩
  · exact endsWith_tabulated h

/-! ## Functions of angles -/

variable {f : AngleFunction} {name : Option String}

/-- The search in a table comes to an end. -/
theorem endsWith_findAngle (x : Expr) {table : List (Rat × Expr)}
    (h : ∀ p ∈ table, p.2 ∈ tabulated) :
    EndsWith (fun n => findAngleWithin (fun e => simplifyWithin n e) n x table)
      (SpecialAngle.angle? x table) := by
  induction table with
  | nil => exact .pure none
  | cons p table ih =>
    obtain ⟨t, v⟩ := p
    have hv : v ∈ tabulated := h (t, v) List.mem_cons_self
    simp only [findAngleWithin, SpecialAngle.angle?]
    refine (endsWith_tabulated hv).bind ?_
    split_ifs
    · exact .pure _
    · refine (endsWith_product
          (by simpa using ⟨Expr.settled_num _, settled_tabulated hv⟩)).bind_of_ok
        fun w _ => ?_
      split_ifs
      · exact .pure _
      · exact ih fun p hp => h p (List.mem_cons_of_mem _ hp)

/-- The tables hold tabulated values. -/
theorem mem_tabulated {p : Rat × Expr} (h : p ∈ SpecialAngle.sines ∨ p ∈ SpecialAngle.tangents) :
    p.2 ∈ tabulated :=
  List.mem_map_of_mem (List.mem_append.mpr h)

/-- The search for a special angle comes to an end. -/
theorem endsWith_specialAngle (f : AngleFunction) (x : Expr) :
    EndsWith (fun n => specialAngleWithin (fun e => simplifyWithin n e) n f x)
      (specialAngle? f x) := by
  have hsines := endsWith_findAngle x fun _ hp => mem_tabulated (.inl hp)
  have htangents := endsWith_findAngle x fun _ hp => mem_tabulated (.inr hp)
  cases f with
  | atan => exact htangents
  | acos =>
    simp only [specialAngleWithin, specialAngle?, map_eq_pure_bind]
    exact hsines.bind_of_ok fun t _ => .pure _
  | _ => exact hsines

/-- Sine, cosine or tangent of a settled angle comes to an end. -/
theorem endsWith_ofAngle (hx : x.IsSettled) :
    EndsWith (fun n => ofAngleWithin (fun e => simplifyWithin n e) n f x name)
      (ofAngle f x name) := by
  simp only [ofAngleWithin, ofAngle, toTurns, bind_assoc]
  refine (EndsWith.known _).bind_of_ok fun m _ => ?_
  refine (endsWith_fullTurn m).bind ?_
  refine (endsWith_power (settled_fullTurn m) (Expr.settled_num _)).bind_of_ok fun i hi => ?_
  have hi := settled_power (settled_fullTurn m) (Expr.settled_num _) hi
  refine (endsWith_product (by simpa using ⟨hx, hi⟩)).bind_of_ok fun t _ => ?_
  cases t with
  | num t =>
    refine (EndsWith.known _).bind_of_ok fun v hv => ?_
    cases v with
    | some v => exact endsWith_written (mem_of_specialValue? hv)
    | none => exact .pure _
  | _ => exact .pure _

/-- The angle of a sine, cosine or tangent comes to an end. -/
theorem endsWith_toAngle (x : Expr) :
    EndsWith (fun n => toAngleWithin (fun e => simplifyWithin n e) n f x name)
      (toAngle f x name) := by
  simp only [toAngleWithin, toAngle]
  refine (EndsWith.known _).bind_of_ok fun _ _ => ?_
  refine (endsWith_specialAngle f x).bind_of_ok fun t _ => ?_
  cases t with
  | none => exact .pure _
  | some t =>
    refine (EndsWith.known _).bind_of_ok fun m _ => ?_
    refine (endsWith_fullTurn m).bind ?_
    exact endsWith_product (by simpa using ⟨Expr.settled_num _, settled_fullTurn m⟩)

/-- A function to or from angles of a settled expression comes to an end. -/
theorem endsWith_angle (hx : x.IsSettled) :
    EndsWith (fun n => angleWithin (fun e => simplifyWithin n e) n f x name) (angle f x name) := by
  unfold angleWithin angle
  split_ifs
  · exact endsWith_toAngle x
  · exact endsWith_ofAngle hx

/-! ## All expressions -/

/-- The canonical form of an expression comes to an end. -/
theorem endsWith_simplify (e : Expr) : EndsWith (fun n => simplifyWithin n e) e.simplify := by
  induction e using Expr.induction_on_children with
  | step e ih =>
    exact endsWith_node ih fun f x m _ r hr => endsWith_angle (Expr.settled_simplify hr)

/-- From canonical arguments on, whatever is called comes to an end: the canonical form of any
expression, sums, products and powers, each with the result that it is defined to have. -/
structure AllEnd : Prop where
  simplify (e : Expr) : EndsWith (fun n => simplifyWithin n e) e.simplify
  sum (ts : List Expr) (h : ∀ t ∈ ts, ∃ e : Expr, Expr.simplify e = .ok t) :
    EndsWith (fun n => sumWithin n ts) (inOrder (sum ts))
  product (fs : List Expr) (h : ∀ f ∈ fs, ∃ e : Expr, Expr.simplify e = .ok f) :
    EndsWith (fun n => productWithin n fs) (product fs)
  power (b e : Expr) (hb : ∃ e : Expr, Expr.simplify e = .ok b)
    (he : ∃ d : Expr, Expr.simplify d = .ok e) :
    EndsWith (fun n => powerWithin n b e) (power b e)

/-- Every expression is brought to its canonical form, or to an error, and sums, products and powers
of canonical forms never run on for ever: with a large enough budget they all end. -/
theorem terminates : AllEnd where
  simplify := endsWith_simplify
  sum ts _ := endsWith_sum ts
  product _ h := endsWith_product fun f hf => (h f hf).elim fun _ => Expr.settled_simplify
  power _ _ hb he :=
    endsWith_power (hb.elim fun _ => Expr.settled_simplify) (he.elim fun _ => Expr.settled_simplify)

end StackAlgebra.Canonical
