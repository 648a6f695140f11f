import StackAlgebra.Proofs.Calculator.Perform
import StackAlgebra.Proofs.NormalForm.Idempotence

/-!
# What always holds of the calculator

`Registers.Reachable` are the registers that a fresh calculator comes to by actions and lines, those
that fail included. `Registers.IsConsistent` says how they hang together: the cursor is at a
snapshot, and that snapshot is the stack; the first snapshot is the empty stack; a selection is that
of an entry; whatever is in a snapshot is in canonical form.

The invariant is proved of the states of the calculator (`Calculator.IsConsistent`), since what an
operation can do is known there (`Calculator.edit_of_perform`). The registers are always those of
such a state (`Registers.Reachable.exists_calculator`).
-/

namespace StackAlgebra

/-! ## The history -/

namespace History

variable {h : History} {stack : Stack}

/-- There is a snapshot at the cursor. -/
theorem cursor_lt (h : History) : h.cursor < h.snapshots.length :=
  (List.getElem?_eq_some_iff.mp h.getElem?_cursor).1

/-- Recording keeps the snapshots up to the cursor and adds one. -/
theorem snapshots_record :
    (h.record stack).snapshots = h.snapshots.take (h.cursor + 1) ++ [stack] := by
  have hkept : h.snapshots.take (h.cursor + 1) = h.past.reverse ++ [h.present] := by
    rw [snapshots, List.append_cons, List.take_left' (by rw [cursor, List.length_append,
      List.length_reverse, List.length_singleton])]
  rw [hkept, record, snapshots, List.reverse_cons]

/-- Recording keeps the first snapshot. -/
theorem head?_record : (h.record stack).snapshots.head? = h.snapshots.head? := by
  have hpos : 0 < h.snapshots.length := Nat.zero_lt_of_lt h.cursor_lt
  rw [snapshots_record, List.head?_append, List.head?_take, if_neg (Nat.succ_ne_zero _),
    List.head?_eq_getElem?, List.getElem?_eq_getElem hpos]
  rfl

end History

/-! ## States -/

namespace Calculator

variable {m m' : Calculator} {a : Action} {o : Outcome}

/-- The state is in order: the selection is that of an entry, the history starts from the empty
stack and holds canonical forms. -/
structure IsConsistent (m : Calculator) : Prop where
  selectsEntry : m.SelectsEntry
  starts : m.history.snapshots.head? = some []
  canonical : ∀ stack ∈ m.history.snapshots, ∀ entry ∈ stack, entry.expr.IsCanonicalForm

/-- A fresh calculator is in order. -/
theorem isConsistent_fresh (config : Config) : ({ config } : Calculator).IsConsistent where
  selectsEntry := by
    intro i hi
    cases hi
  starts := rfl
  canonical := by
    intro stack hstack entry hentry
    rw [List.mem_singleton.mp hstack] at hentry
    cases hentry

/-- What is on the stack is in canonical form. -/
theorem IsConsistent.isCanonicalForm {entry : Entry} (h : m.IsConsistent)
    (hentry : entry ∈ m.stack) :
    entry.expr.IsCanonicalForm :=
  h.canonical m.stack (List.mem_of_getElem? m.history.getElem?_cursor) entry hentry

/-- What is known is in canonical form. -/
theorem IsConsistent.of_known {entry : Entry} (h : m.IsConsistent) (hentry : m.Known entry) :
    entry.expr.IsCanonicalForm := by
  rcases hentry with ⟨old, hold, heq⟩ | hcanonical
  · exact heq ▸ h.isCanonicalForm hold
  · exact hcanonical

/-- An edit leaves the state in order. -/
theorem Edit.isConsistent (h : Edit m m') (hm : m.IsConsistent) : m'.IsConsistent := by
  refine ⟨h.selectsEntry hm.selectsEntry, ?_, ?_⟩
  · cases h with
    | commit stack selection hs he => exact History.head?_record.trans hm.starts
    | _ => exact hm.starts
  · cases h with
    | commit stack selection hs he =>
      intro s hmem entry hentry
      rw [Calculator.commit, History.snapshots_record, List.mem_append, List.mem_singleton] at hmem
      rcases hmem with hold | rfl
      · exact hm.canonical s (List.mem_of_mem_take hold) entry hentry
      · exact hm.of_known (he entry hentry)
    | _ => exact hm.canonical

/-- Going to another point of the history leaves the state in order. -/
theorem isConsistent_restore {history : History} (hm : m.IsConsistent)
    (h : history.snapshots = m.history.snapshots) : (m.restore history).IsConsistent where
  selectsEntry := selectsEntry_restore m history
  starts := h ▸ hm.starts
  canonical := h ▸ hm.canonical

/-- The state after an action. One that fails changes nothing. -/
def next (m : Calculator) (a : Action) : Calculator :=
  match m.perform a with
  | .ok o => o.calculator
  | .error _ => m

/-- An action leaves the state in order. -/
theorem isConsistent_perform (hm : m.IsConsistent) (h : m.perform a = .ok o) :
    o.calculator.IsConsistent := by
  cases a with
  | undo =>
    obtain rfl := Except.ok.inj h
    rcases undo_cases m with ⟨heq, -⟩ | ⟨history, hu, heq⟩
    · exact heq.symm ▸ hm
    · exact heq.symm ▸ isConsistent_restore hm (History.snapshots_of_undo? hu).1
  | redo =>
    obtain rfl := Except.ok.inj h
    rcases redo_cases m with ⟨heq, -⟩ | ⟨history, hr, heq⟩
    · exact heq.symm ▸ hm
    · exact heq.symm ▸ isConsistent_restore hm (History.snapshots_of_redo? hr).1
  | _ => exact (edit_of_perform (by simp) (by simp) h).isConsistent hm

/-- An action leaves the state in order, whether it fails or not. -/
theorem isConsistent_next (hm : m.IsConsistent) (a : Action) : (m.next a).IsConsistent := by
  unfold next
  cases h : m.perform a with
  | error ε => exact hm
  | ok o => exact isConsistent_perform hm h

/-- A line leaves the state in order. -/
theorem isConsistent_feedLine (hm : m.IsConsistent) (R : Radix) (line : String) :
    (m.feedLine R line).calculator.IsConsistent :=
  feedAll_invariant (fun hm h => isConsistent_perform hm h) hm _ _

end Calculator

/-! ## Registers -/

namespace Registers

open Calculator (registers next)

variable {r : Registers} {m : Calculator}

/-- The registers that a fresh calculator comes to by actions and lines, those that fail
included. -/
inductive Reachable : Registers → Prop where
  | fresh (config : Config) : Reachable { config }
  | action {r : Registers} (h : Reachable r) (a : Action) : Reachable
      (r.after (Procedure.perform a))
  | line {r : Registers} (h : Reachable r) (R : Radix) (line : String) :
      Reachable (r.after (Procedure.feedLine R line))

/-- The registers hang together. -/
structure IsConsistent (r : Registers) : Prop where
  cursor_nonneg : 0 ≤ r.cursor
  cursor_lt : r.cursor < r.snapshots.length
  starts : memberAt? r.snapshots 0 = some []
  current : memberAt? r.snapshots r.cursor = some r.stack
  selection : ∀ i, r.selection = some i → 0 ≤ i ∧ i < r.stack.length
  canonical : ∀ stack ∈ r.snapshots, ∀ entry ∈ stack, entry.expr.IsCanonicalForm
  /-- An entry is its own canonical form exactly if the factors of its products have different
  bases. -/
  simplify_iff : ∀ stack ∈ r.snapshots, ∀ entry ∈ stack,
    (entry.expr.simplify = .ok entry.expr ↔ entry.expr.HasDistinctBases)
  radix : ∀ stack ∈ r.snapshots, ∀ entry ∈ stack, ∀ R, entry.radix = some R → 2 ≤ R.val ∧ R.val ≤ 64
  config : (2 ≤ r.config.radix.val ∧ r.config.radix.val ≤ 64) ∧ 0 ≤ r.config.precision ∧
    AngleMeasure.find? r.config.angle.name = some r.config.angle

/-- The registers after an action are those of the state after it. -/
theorem after_perform (hm : m.SelectsEntry) (a : Action) :
    m.registers.after (Procedure.perform a) = (m.next a).registers := by
  rw [after, Procedure.run_perform hm]
  unfold Calculator.ending next
  cases m.perform a <;> rfl

/-- The registers after a lexeme are those after the action that it stands for. -/
theorem after_feed (r : Registers) (l : Lexeme) :
    r.after (Procedure.feed l) =
      (Calculator.actionOf? l).elim r fun a => r.after (Procedure.perform a) := by
  unfold after Procedure.feed
  cases Calculator.actionOf? l with
  | none => rfl
  | some a =>
    simp only [EStateM.run_bind, Option.elim_some]
    cases (Procedure.perform a).run r <;> rfl

/-- The registers after a line are those of the state after it. -/
theorem after_feedLine (hm : m.SelectsEntry) (R : Radix) (line : String) :
    m.registers.after (Procedure.feedLine R line) = (m.feedLine R line).calculator.registers := by
  rw [after, Procedure.run_feedLine hm]
  unfold Procedure.lineEnding
  cases (m.feedLine R line).error? <;> rfl

/-- Reachable registers are those of a state in order. -/
theorem Reachable.exists_calculator (h : r.Reachable) :
    ∃ m : Calculator, m.IsConsistent ∧ m.registers = r := by
  induction h with
  | fresh config => exact ⟨{ config }, Calculator.isConsistent_fresh config, rfl⟩
  | action _ a ih =>
    obtain ⟨m, hm, rfl⟩ := ih
    exact ⟨m.next a, Calculator.isConsistent_next hm a, (after_perform hm.selectsEntry a).symm⟩
  | line _ R line ih =>
    obtain ⟨m, hm, rfl⟩ := ih
    exact ⟨(m.feedLine R line).calculator, Calculator.isConsistent_feedLine hm R line,
      (after_feedLine hm.selectsEntry R line).symm⟩

/-- A measure is found by its name. -/
theorem find?_name (measure : AngleMeasure) : AngleMeasure.find? measure.name = some measure := by
  cases measure <;> rfl

/-- Reachable registers hang together, and are those of a state of the calculator. -/
theorem isConsistent_of_reachable (h : r.Reachable) :
    r.IsConsistent ∧ ∃ m : Calculator, m.registers = r := by
  obtain ⟨m, hm, rfl⟩ := h.exists_calculator
  refine ⟨?_, m, rfl⟩
  have hlt := m.history.cursor_lt
  exact
    { cursor_nonneg := Int.natCast_nonneg _
      cursor_lt := Int.ofNat_lt.mpr hlt
      starts := by
        show memberAt? m.history.snapshots ((0 : Nat) : Int) = some []
        rw [memberAt?_natCast, ← List.head?_eq_getElem?, hm.starts]
      current := (memberAt?_natCast _ _).trans m.history.getElem?_cursor
      selection := by
        intro i hi
        obtain ⟨place, hplace, rfl⟩ := Option.map_eq_some_iff.mp hi
        exact ⟨Int.natCast_nonneg _, Int.ofNat_lt.mpr (hm.selectsEntry place hplace)⟩
      canonical := hm.canonical
      simplify_iff := by
        intro stack hstack entry hentry
        obtain ⟨e, he⟩ := hm.canonical stack hstack entry hentry
        exact Expr.simplify_eq_self_iff (Expr.settled_simplify he)
      radix := fun _ _ _ _ R _ => ⟨R.two_le, R.le_max⟩
      config := ⟨⟨m.config.radix.two_le, m.config.radix.le_max⟩, Nat.zero_le _, find?_name _⟩ }

/-- An exchange that fails after a variable is pushed leaves registers that hang together. -/
theorem isConsistent_push_swap :
    let pushed :=
      ({ config := {} } : Registers).after (Procedure.perform (.push (.var "x") false .absent))
    pushed.Reachable ∧ (pushed.after (Procedure.perform .swap)).IsConsistent := by
  intro pushed
  have h : pushed.Reachable := .action (.fresh {}) _
  exact ⟨h, (isConsistent_of_reachable (h.action .swap)).1⟩

/-- The entry that is pushed for `Expr.unmerged` is not its own canonical form. -/
theorem not_fixed_push_unmerged :
    let pushed := ({ config := {} } : Registers).after
      (Procedure.perform (.push Expr.unmerged false .absent))
    pushed.Reachable ∧ ∃ entry ∈ pushed.stack, entry.expr.simplify ≠ .ok entry.expr := by
  intro pushed
  let entry : Entry := { expr := .product [.var "x", .power (.var "x") (.num 2)] }
  have hpush : ({} : Calculator).perform (.push Expr.unmerged false .absent) =
      .ok (({} : Calculator).pushEntry entry) := by
    show Calculator.push {} Expr.unmerged false .absent = _
    rw [Calculator.push, Expr.simplify_unmerged]
    rfl
  have hpushed : pushed = (({} : Calculator).pushEntry entry).calculator.registers := by
    show (({} : Calculator).registers).after _ = _
    rw [after_perform (Calculator.isConsistent_fresh {}).selectsEntry, next, hpush]
  have hstack : pushed.stack = [entry] := by
    rw [hpushed]
    rfl
  refine ⟨.action (.fresh {}) _, entry, hstack ▸ List.mem_singleton_self entry, fun h => ?_⟩
  have hs := Expr.settled_simplify Expr.simplify_unmerged
  exact Expr.not_hasDistinctBases_unmerged ((Expr.simplify_eq_self_iff hs).mp h)

end Registers
end StackAlgebra
