import StackAlgebra.Error
import StackAlgebra.Proofs.Expr.Subexpression
import Mathlib.Data.List.Basic

/-!
# Computations within a budget

A loop or a recursion that is not known to end can be written down with a budget that each turn
spends one unit of. The computation then either ends, with a value or with an error, or the budget
is spent first (`Budgeted`). It terminates if a large enough budget is never spent: `EndsWith f x`
says that from some budget on `f` ends with the result `x`. Such computations may follow each other
(`EndsWith.bind`), and a large enough budget for each element of a list makes a large enough one for
all (`EndsWith.mapM`).

`workList` is the loop that takes expressions from a stack, and puts the children of some of them
back on it. It looks at the leaves below the expressions, the last one first, and ends when all have
been looked at (`endsWith_workList`).
-/

namespace StackAlgebra

/-- A computation within a budget: `none` if the budget is spent before it ends. -/
abbrev Budgeted (α : Type) := ExceptT Error Option α

namespace Budgeted

variable {α β σ : Type}

/-- The budget is spent. -/
def spent : Budgeted α :=
  ExceptT.mk none

/-- A result that takes nothing from the budget. -/
def known (x : Except Error α) : Budgeted α :=
  ExceptT.mk (some x)

/-- Within every budget that is large enough the computation ends, with the result `x`. -/
def EndsWith (f : Nat → Budgeted α) (x : Except Error α) : Prop :=
  ∃ least, ∀ n, least ≤ n → f n = known x

variable {f : Nat → Budgeted α} {g : Nat → α → Budgeted β} {x : Except Error α} {y : Except Error β}
  {ε : Error} {a : α}

/-- What takes nothing from the budget ends. -/
theorem EndsWith.known (x : Except Error α) : EndsWith (fun _ => known x) x :=
  ⟨0, fun _ _ => rfl⟩

/-- A value is a result. -/
theorem EndsWith.pure (a : α) : EndsWith (fun _ => pure a) (.ok a) :=
  ⟨0, fun _ _ => rfl⟩

/-- A computation ends if it does so with one unit more. -/
theorem EndsWith.of_succ (h : EndsWith (fun n => f (n + 1)) x) : EndsWith f x := by
  obtain ⟨least, h⟩ := h
  refine ⟨least + 1, fun n hn => ?_⟩
  obtain ⟨k, rfl⟩ : ∃ k, n = k + 1 := ⟨n - 1, by omega⟩
  exact h k (by omega)

/-- A computation ends with one result only. -/
theorem EndsWith.unique {y : Except Error α} (hx : EndsWith f x) (hy : EndsWith f y) : x = y := by
  obtain ⟨leastX, hx⟩ := hx
  obtain ⟨leastY, hy⟩ := hy
  have h : Budgeted.known x = Budgeted.known y := by
    rw [← hx (max leastX leastY) (by omega), hy _ (by omega)]
  exact Option.some.inj h

/-- Where the first computation ends with a value, both end as the second does from there. -/
theorem EndsWith.bind (hf : EndsWith f (.ok a)) (hg : EndsWith (fun n => g n a) y) :
    EndsWith (fun n => f n >>= g n) y := by
  obtain ⟨leastF, hf⟩ := hf
  obtain ⟨leastG, hg⟩ := hg
  refine ⟨max leastF leastG, fun n hn => ?_⟩
  have h1 : f n = Budgeted.known (.ok a) := hf n (by omega)
  have h2 : g n a = Budgeted.known y := hg n (by omega)
  show f n >>= g n = Budgeted.known y
  rw [h1, ← h2]
  rfl

/-- Where the first computation ends with an error, so do both. -/
theorem EndsWith.bind_error (hf : EndsWith f (.error ε)) :
    EndsWith (fun n => f n >>= g n) (.error ε) := by
  obtain ⟨least, hf⟩ := hf
  refine ⟨least, fun n hn => ?_⟩
  show f n >>= g n = Budgeted.known (.error ε)
  rw [hf n hn]
  rfl

/-- Two computations after each other end if the first one does, and the second one from each value
that the first can end with. -/
theorem EndsWith.bind_of_ok {k : α → Except Error β} (hf : EndsWith f x)
    (hg : ∀ a, x = .ok a → EndsWith (fun n => g n a) (k a)) :
    EndsWith (fun n => f n >>= g n) (x >>= k) := by
  cases x with
  | error ε => exact hf.bind_error
  | ok a => exact hf.bind (hg a rfl)

/-- A computation on each element of a list ends if it ends on every one. -/
theorem EndsWith.mapM {F : Nat → α → Budgeted β} {G : α → Except Error β} {l : List α}
    (h : ∀ a ∈ l, EndsWith (fun n => F n a) (G a)) :
    EndsWith (fun n => l.mapM (F n)) (l.mapM G) := by
  induction l with
  | nil => exact .pure []
  | cons a l ih =>
    simp only [List.mapM_cons]
    refine (h a List.mem_cons_self).bind_of_ok fun b _ => ?_
    refine (ih fun a ha => h a (List.mem_cons_of_mem _ ha)).bind_of_ok fun bs _ => ?_
    exact .pure (b :: bs)

/-! ## Work lists -/

/-- Take expressions from the stack `pending`, its top first. One that opens is replaced by its
children, of which the last is looked at first; any other one is taken into account. -/
def workList (open? : Expr → Option (List Expr)) (take : σ → Expr → σ) :
    Nat → List Expr → σ → Budgeted σ
  | 0, _, _ => spent
  | _ + 1, [], s => pure s
  | n + 1, e :: pending, s =>
    match open? e with
    | some es => workList open? take n (es.reverse ++ pending) s
    | none => workList open? take n pending (take s e)

variable {open? : Expr → Option (List Expr)} {take : σ → Expr → σ} {parts : Expr → List Expr}

/-- What opens falls into the parts of its children, and anything else is its own only part. -/
structure HasParts (open? : Expr → Option (List Expr)) (parts : Expr → List Expr) : Prop where
  children : ∀ e es, open? e = some es → ∀ c ∈ es, c ∈ e.children
  opened : ∀ e es, open? e = some es → parts e = es.flatMap parts
  leaf : ∀ e, open? e = none → parts e = [e]

/-- The loop goes on with the stack below an expression when all parts of the expression have been
taken into account. -/
theorem endsWith_workList_cons (hp : HasParts open? parts) {e : Expr} {pending : List Expr} {s : σ}
    {r : Except Error σ}
    (h : EndsWith (fun n => workList open? take n pending ((parts e).reverse.foldl take s)) r) :
    EndsWith (fun n => workList open? take n (e :: pending) s) r := by
  induction e using Expr.induction_on_children generalizing pending s with
  | step e ih =>
    apply EndsWith.of_succ
    cases ho : open? e with
    | none =>
      rw [hp.leaf e ho] at h
      simp only [workList, ho]
      exact h
    | some es =>
      -- The children lie on the stack now; the loop works them off one after the other.
      have hall (l : List Expr) (hl : ∀ c ∈ l, c ∈ e.children) {s : σ}
          (h : EndsWith (fun n => workList open? take n pending
            ((l.flatMap fun c => (parts c).reverse).foldl take s)) r) :
          EndsWith (fun n => workList open? take n (l ++ pending) s) r := by
        induction l generalizing s with
        | nil => exact h
        | cons c l ihl =>
          refine ih c (hl c List.mem_cons_self)
            (ihl (fun d hd => hl d (List.mem_cons_of_mem _ hd)) ?_)
          rwa [List.flatMap_cons, List.foldl_append] at h
      have hchildren : ∀ c ∈ es.reverse, c ∈ e.children := fun c hc =>
        hp.children e es ho c (List.mem_reverse.mp hc)
      rw [hp.opened e es ho, List.reverse_flatMap] at h
      simpa only [workList, ho] using hall es.reverse hchildren h

/-- The loop takes into account all parts of the expressions on the stack, and ends. -/
theorem endsWith_workList (hp : HasParts open? parts) (take : σ → Expr → σ) (es : List Expr)
    (s : σ) :
    EndsWith (fun n => workList open? take n es.reverse s)
      (.ok ((es.flatMap parts).reverse.foldl take s)) := by
  rw [List.reverse_flatMap]
  generalize es.reverse = pending
  induction pending generalizing s with
  | nil => exact .of_succ (.pure s)
  | cons e pending ih =>
    apply endsWith_workList_cons hp
    rw [List.flatMap_cons, List.foldl_append]
    exact ih _

end Budgeted
end StackAlgebra
