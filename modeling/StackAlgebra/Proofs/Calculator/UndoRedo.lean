import StackAlgebra.Proofs.Calculator.Invariant

/-!
# Undoing and redoing

Undoing and redoing move the cursor over the snapshots and change none of them. Every other action
leaves the history alone or commits once: what is past the cursor is forgotten, the new stack is
recorded after it, and the cursor moves there. So undoing goes back through the stacks of a run in
order, and redoing through the same stacks forward again (`Registers.IsReversible`).
-/

namespace StackAlgebra

namespace Calculator

variable {m m' : Calculator} {a : Action}

/-- An edit leaves the history alone or records a stack in it. -/
theorem Edit.history_cases (h : Edit m m') :
    m'.history = m.history ∨ ∃ stack, m'.history = m.history.record stack := by
  cases h with
  | commit stack selection hs he => exact .inr ⟨stack, rfl⟩
  | _ => exact .inl rfl

/-- An action other than undoing and redoing leaves the history alone or records a stack in it. -/
theorem history_next_cases (hu : a ≠ .undo) (hr : a ≠ .redo) :
    (m.next a).history = m.history ∨ ∃ stack, (m.next a).history = m.history.record stack := by
  unfold next
  cases h : m.perform a with
  | error ε => exact .inl rfl
  | ok o => exact (edit_of_perform hu hr h).history_cases

/-- Undoing moves the cursor back by one, but not before the first snapshot. -/
theorem history_next_undo (m : Calculator) :
    (m.next .undo).history.snapshots = m.history.snapshots ∧
      (m.next .undo).history.cursor = m.history.cursor - 1 := by
  rcases undo_cases m with ⟨heq, hfirst⟩ | ⟨history, hu, heq⟩
  · have hnext : m.next .undo = m := heq
    rw [hnext, hfirst]
    exact ⟨rfl, rfl⟩
  · have hnext : m.next .undo = m.restore history := heq
    obtain ⟨hsnapshots, hcursor⟩ := History.snapshots_of_undo? hu
    rw [hnext]
    exact ⟨hsnapshots, by rw [hcursor]; rfl⟩

/-- Redoing moves the cursor forward by one, but not past the last snapshot. -/
theorem history_next_redo (m : Calculator) :
    (m.next .redo).history.snapshots = m.history.snapshots ∧
      (m.next .redo).history.cursor =
        min (m.history.cursor + 1) (m.history.snapshots.length - 1) := by
  rcases redo_cases m with ⟨heq, hlast⟩ | ⟨history, hr, heq⟩
  · have hnext : m.next .redo = m := heq
    rw [hnext]
    exact ⟨rfl, by omega⟩
  · have hnext : m.next .redo = m.restore history := heq
    obtain ⟨hsnapshots, hcursor⟩ := History.snapshots_of_redo? hr
    have hlt := history.cursor_lt
    rw [hsnapshots, hcursor] at hlt
    rw [hnext]
    refine ⟨hsnapshots, ?_⟩
    show history.cursor = _
    omega

/-- Undoing again and again moves the cursor back. -/
theorem history_undo_iterate (m : Calculator) (k : Nat) :
    ((next · .undo)^[k] m).history.snapshots = m.history.snapshots ∧
      ((next · .undo)^[k] m).history.cursor = m.history.cursor - k := by
  induction k with
  | zero => exact ⟨rfl, rfl⟩
  | succ k ih =>
    rw [Function.iterate_succ_apply']
    obtain ⟨hsnapshots, hcursor⟩ := history_next_undo ((next · .undo)^[k] m)
    exact ⟨hsnapshots.trans ih.1, by rw [hcursor, ih.2]; rfl⟩

/-- Redoing again and again moves the cursor forward. -/
theorem history_redo_iterate (m : Calculator) (k : Nat) :
    ((next · .redo)^[k] m).history.snapshots = m.history.snapshots ∧
      ((next · .redo)^[k] m).history.cursor =
        min (m.history.cursor + k) (m.history.snapshots.length - 1) := by
  induction k with
  | zero =>
    have hlt := m.history.cursor_lt
    exact ⟨rfl, by show m.history.cursor = _; omega⟩
  | succ k ih =>
    rw [Function.iterate_succ_apply']
    obtain ⟨hsnapshots, hcursor⟩ := history_next_redo ((next · .redo)^[k] m)
    refine ⟨hsnapshots.trans ih.1, ?_⟩
    rw [hcursor, ih.1, ih.2]
    omega

/-- The state is at a snapshot that another has at its cursor. -/
theorem stack_eq_of_getElem? {stack : Stack} (hs : m'.history.snapshots = m.history.snapshots)
    (h : m.history.snapshots[m'.history.cursor]? = some stack) : m'.stack = stack := by
  have hcurrent := m'.history.getElem?_cursor
  rw [hs, h] at hcurrent
  exact (Option.some.inj hcurrent).symm

end Calculator

namespace Registers

open Calculator (registers next IsConsistent)

variable {r s : Registers} {m : Calculator} {a : Action} {as : List Action} {k : Nat}

/-- The registers after undoing `k` times. -/
def undone (k : Nat) (r : Registers) : Registers :=
  (after (Procedure.perform .undo))^[k] r

/-- The registers after redoing `k` times. -/
def redone (k : Nat) (r : Registers) : Registers :=
  (after (Procedure.perform .redo))^[k] r

/-- The registers after actions one after the other. -/
def afterAll (as : List Action) (r : Registers) : Registers :=
  as.foldl (fun r a => r.after (Procedure.perform a)) r

/-- Stack, snapshots and cursor are the same. -/
def SameHistory (r s : Registers) : Prop :=
  s.stack = r.stack ∧ s.snapshots = r.snapshots ∧ s.cursor = r.cursor

/-- The snapshots up to the cursor are kept, the stack is recorded after them, and the cursor is
there. -/
def Commits (r s : Registers) : Prop :=
  s.snapshots = r.snapshots.take (r.cursor + 1).toNat ++ [s.stack] ∧ s.cursor = r.cursor + 1

/-- The history is left alone, or there is one commit: then undoing returns to the stack before, and
there is nothing to redo. -/
def AtMostCommits (r s : Registers) : Prop :=
  r.SameHistory s ∨ r.Commits s ∧ (s.undone 1).stack = r.stack ∧ s.redone 1 = s

/-- Each of the actions commits. -/
def CommitsAll : List Action → Registers → Prop
  | [], _ => True
  | a :: as, r =>
    r.Commits (r.after (Procedure.perform a)) ∧ CommitsAll as (r.after (Procedure.perform a))

/-- From these registers on, stacks can be returned to. -/
structure IsReversible (r : Registers) : Prop where
  undo : ∀ k : Nat, k ≤ r.cursor → memberAt? r.snapshots (r.cursor - k) = some (r.undone k).stack
  redo : ∀ k : Nat, k ≤ r.cursor → r.SameHistory (redone k (undone k r))
  undo_first : r.cursor = 0 → r.after (Procedure.perform .undo) = r
  redo_last : r.cursor = r.snapshots.length - 1 → r.after (Procedure.perform .redo) = r
  /-- Any other action leaves the history alone or commits once. -/
  action : ∀ a, a ≠ .undo → a ≠ .redo → r.AtMostCommits (r.after (Procedure.perform a))
  /-- So does a lexeme that stands for none of the two. -/
  lexeme : ∀ l, Calculator.actionOf? l ≠ some .undo → Calculator.actionOf? l ≠ some .redo →
    r.AtMostCommits (r.after (Procedure.feed l))
  /-- After actions that commit, undoing goes back through the stacks between them, and redoing
  forward. -/
  run : ∀ as, CommitsAll as r → ∀ k ≤ as.length,
    (undone k (afterAll as r)).stack = (afterAll (as.take (as.length - k)) r).stack ∧
      ∀ j ≤ k, (redone j (undone k (afterAll as r))).stack =
        (afterAll (as.take (as.length - k + j)) r).stack

/-- Repeating an action on registers repeats it on their state. -/
theorem after_iterate (hm : m.IsConsistent) (a : Action) (k : Nat) :
    (after (Procedure.perform a))^[k] m.registers = registers ((next · a)^[k] m) ∧
      ((next · a)^[k] m).IsConsistent := by
  induction k with
  | zero => exact ⟨rfl, hm⟩
  | succ k ih =>
    rw [Function.iterate_succ_apply', Function.iterate_succ_apply', ih.1]
    exact ⟨after_perform ih.2.selectsEntry a, Calculator.isConsistent_next ih.2 a⟩

/-- Registers that reachable ones come to by actions are reachable. -/
theorem Reachable.afterAll (h : r.Reachable) (as : List Action) : (afterAll as r).Reachable := by
  induction as generalizing r with
  | nil => exact h
  | cons a as ih => exact ih (h.action a)

/-- Carrying out actions on registers carries them out on their state. -/
theorem afterAll_registers (hm : m.IsConsistent) (as : List Action) :
    afterAll as m.registers = registers (as.foldl next m) ∧ (as.foldl next m).IsConsistent := by
  induction as generalizing m with
  | nil => exact ⟨rfl, hm⟩
  | cons a as ih =>
    rw [afterAll, List.foldl_cons, List.foldl_cons, after_perform hm.selectsEntry]
    exact ih (Calculator.isConsistent_next hm a)

/-- After undoing `k` times and redoing `j` times the stack is that at the snapshot where this
leads. -/
theorem redone_undone (hm : m.IsConsistent) {j : Nat} (hk : k ≤ m.history.cursor) (hj : j ≤ k) :
    ∃ m' : Calculator, redone j (undone k m.registers) = m'.registers ∧
      m'.history.snapshots = m.history.snapshots ∧
      m'.history.cursor = m.history.cursor - k + j := by
  obtain ⟨hundone, hm'⟩ := after_iterate hm .undo k
  obtain ⟨hredone, -⟩ := after_iterate hm' .redo j
  obtain ⟨hs, hc⟩ := Calculator.history_undo_iterate m k
  obtain ⟨hs', hc'⟩ := Calculator.history_redo_iterate ((next · .undo)^[k] m) j
  have hlt := m.history.cursor_lt
  refine ⟨_, by rw [undone, redone, hundone, hredone], hs'.trans hs, ?_⟩
  rw [hc', hs, hc]
  omega

/-- Where undoing and redoing lead there is a snapshot that was recorded, and it is the stack. -/
theorem stack_redone_undone {stack : Stack} (hm : m.IsConsistent) {j : Nat}
    (hk : k ≤ m.history.cursor) (hj : j ≤ k)
    (h : m.history.snapshots[m.history.cursor - k + j]? = some stack) :
    (redone j (undone k m.registers)).stack = stack := by
  obtain ⟨m', hreg, hs, hc⟩ := redone_undone hm hk hj
  rw [hreg]
  exact Calculator.stack_eq_of_getElem? hs (hc.symm ▸ h)

/-- Actions that commit leave the snapshots up to the cursor, and record the stacks between them. -/
theorem snapshots_foldl_next (hm : m.IsConsistent) (h : CommitsAll as m.registers) :
    (as.foldl next m).history.cursor = m.history.cursor + as.length ∧
      (∀ i ≤ m.history.cursor, (as.foldl next m).history.snapshots[i]? = m.history.snapshots[i]?) ∧
      ∀ i ≤ as.length, (as.foldl next m).history.snapshots[m.history.cursor + i]? =
        some ((as.take i).foldl next m).stack := by
  induction as generalizing m with
  | nil =>
    refine ⟨rfl, fun _ _ => rfl, fun i hi => ?_⟩
    obtain rfl := Nat.le_zero.mp hi
    exact m.history.getElem?_cursor
  | cons a as ih =>
    obtain ⟨⟨hsnapshots, hcursor⟩, hrest⟩ := h
    rw [after_perform hm.selectsEntry] at hsnapshots hcursor hrest
    have hc : (m.next a).history.cursor = m.history.cursor + 1 := Int.ofNat_inj.mp hcursor
    have hlt := m.history.cursor_lt
    have hkept (i : Nat) (hi : i ≤ m.history.cursor) :
        (m.next a).history.snapshots[i]? = m.history.snapshots[i]? := by
      have hs : (m.next a).history.snapshots =
          m.history.snapshots.take (m.history.cursor + 1) ++ [(m.next a).stack] := hsnapshots
      rw [hs, List.getElem?_append_left (by rw [List.length_take]; omega),
        List.getElem?_take_of_lt (by omega)]
    obtain ⟨hlast, hbefore, hbetween⟩ := ih (Calculator.isConsistent_next hm a) hrest
    rw [hc] at hlast hbefore hbetween
    rw [List.foldl_cons, List.length_cons]
    refine ⟨by omega, fun i hi => (hbefore i (by omega)).trans (hkept i hi), fun i hi => ?_⟩
    cases i with
    | zero =>
      exact (hbefore _ (by omega)).trans ((hkept _ (by omega)).trans m.history.getElem?_cursor)
    | succ i =>
      rw [Nat.add_comm i 1, ← Nat.add_assoc, Nat.add_comm 1 i, List.take_succ_cons, List.foldl_cons]
      exact hbetween i (by omega)

/-- Committing a stack commits. -/
theorem commits_commit (m : Calculator) (stack : Stack) (selection : Option Nat) :
    m.registers.Commits (m.commit stack selection).registers := by
  refine ⟨?_, rfl⟩
  show (m.history.record stack).snapshots = m.history.snapshots.take (m.history.cursor + 1) ++
      [stack]
  exact History.snapshots_record

/-- An action other than undoing and redoing leaves the history alone or commits. -/
theorem sameHistory_or_commits (m : Calculator) (hu : a ≠ .undo) (hr : a ≠ .redo) :
    m.registers.SameHistory (m.next a).registers ∨ m.registers.Commits (m.next a).registers := by
  rcases m.history_next_cases hu hr with heq | ⟨stack, heq⟩
  · exact .inl ⟨congrArg History.present heq, congrArg History.snapshots heq,
      congrArg (fun h : History => (h.cursor : Int)) heq⟩
  · have hstack : (m.next a).stack = stack := congrArg History.present heq
    refine .inr ⟨?_, congrArg (fun h : History => (h.cursor : Int)) heq⟩
    show (m.next a).history.snapshots = m.history.snapshots.take (m.history.cursor + 1) ++
        [(m.next a).stack]
    rw [hstack, heq, History.snapshots_record]

/-- There is nothing to undo at the first snapshot. -/
theorem after_undo_of_first (hm : m.IsConsistent) (h : m.history.cursor = 0) :
    m.registers.after (Procedure.perform .undo) = m.registers := by
  rw [after_perform hm.selectsEntry]
  rcases m.undo_cases with ⟨heq, -⟩ | ⟨history, hu, -⟩
  · exact congrArg registers heq
  · rw [History.undo?_eq_none_iff.mpr h] at hu
    cases hu

/-- There is nothing to redo at the last snapshot. -/
theorem after_redo_of_last (hm : m.IsConsistent)
    (h : m.history.cursor + 1 = m.history.snapshots.length) :
    m.registers.after (Procedure.perform .redo) = m.registers := by
  rw [after_perform hm.selectsEntry]
  rcases m.redo_cases with ⟨heq, -⟩ | ⟨history, hr, -⟩
  · exact congrArg registers heq
  · rw [History.redo?_eq_none_iff.mpr h] at hr
    cases hr

/-- After a commit undoing returns to the stack before, and there is nothing to redo. -/
theorem undone_and_redone_of_commits {m' : Calculator} (hm' : m'.IsConsistent)
    (h : m.registers.Commits m'.registers) :
    (m'.registers.undone 1).stack = m.stack ∧ m'.registers.redone 1 = m'.registers := by
  have hlt := m.history.cursor_lt
  have hs : m'.history.snapshots = m.history.snapshots.take (m.history.cursor + 1) ++ [m'.stack] :=
    h.1
  have hc : m'.history.cursor = m.history.cursor + 1 := Int.ofNat_inj.mp h.2
  constructor
  · refine stack_redone_undone (k := 1) (j := 0) hm' (by omega) (Nat.zero_le _) ?_
    rw [hs, hc, Nat.add_sub_cancel, Nat.add_zero,
      List.getElem?_append_left (by rw [List.length_take]; omega),
      List.getElem?_take_of_lt (by omega)]
    exact m.history.getElem?_cursor
  · refine after_redo_of_last hm' ?_
    rw [hs, hc, List.length_append, List.length_take, List.length_singleton]
    omega

/-- An action other than undoing and redoing leaves the history alone or commits once. -/
theorem atMostCommits_perform (hm : m.IsConsistent) (hu : a ≠ .undo) (hr : a ≠ .redo) :
    m.registers.AtMostCommits (m.registers.after (Procedure.perform a)) := by
  rw [after_perform hm.selectsEntry]
  rcases sameHistory_or_commits m hu hr with hsame | hcommits
  · exact .inl hsame
  · exact .inr ⟨hcommits, undone_and_redone_of_commits (Calculator.isConsistent_next hm a) hcommits⟩

/-- From reachable registers on, undoing and redoing return to the stacks of the run. -/
theorem isReversible_of_reachable (h : r.Reachable) : r.IsReversible := by
  obtain ⟨m, hm, rfl⟩ := h.exists_calculator
  have hlt := m.history.cursor_lt
  exact
    { undo := by
        intro k hk
        have hk' : k ≤ m.history.cursor := Int.ofNat_le.mp hk
        have hcursor : m.registers.cursor - k = ((m.history.cursor - k + 0 : Nat) : Int) := by
          show (m.history.cursor : Int) - k = _
          omega
        have hsnapshot := List.getElem?_eq_getElem (l := m.history.snapshots)
          (i := m.history.cursor - k + 0) (by omega)
        have hstack := stack_redone_undone hm hk' (Nat.zero_le k) hsnapshot
        rw [hcursor, memberAt?_natCast]
        exact hsnapshot.trans (congrArg some hstack.symm)
      redo := by
        intro k hk
        have hk' : k ≤ m.history.cursor := Int.ofNat_le.mp hk
        obtain ⟨m', hreg, hs, hc⟩ := redone_undone hm hk' (Nat.le_refl k)
        rw [Nat.sub_add_cancel hk'] at hc
        rw [hreg]
        exact ⟨Calculator.stack_eq_of_getElem? hs (hc.symm ▸ m.history.getElem?_cursor), hs,
          congrArg Nat.cast hc⟩
      undo_first := fun hfirst => after_undo_of_first hm (Int.ofNat_inj.mp hfirst)
      redo_last := by
        intro hlast
        have : (m.history.cursor : Int) = m.history.snapshots.length - 1 := hlast
        exact after_redo_of_last hm (by omega)
      action := fun a hu hr => atMostCommits_perform hm hu hr
      lexeme := by
        intro l hu hr
        rw [after_feed]
        cases hl : Calculator.actionOf? l with
        | none => exact .inl ⟨rfl, rfl, rfl⟩
        | some a =>
          rw [hl] at hu hr
          exact atMostCommits_perform hm (fun h => hu (congrArg some h)) fun h =>
            hr (congrArg some h)
      run := by
        intro as has k hk
        obtain ⟨hcursor, -, hbetween⟩ := snapshots_foldl_next hm has
        obtain ⟨hreg, hm'⟩ := afterAll_registers hm as
        have hstack (j : Nat) (hj : j ≤ k) : (redone j (undone k (afterAll as m.registers))).stack =
            (afterAll (as.take (as.length - k + j)) m.registers).stack := by
          rw [hreg, (afterAll_registers hm _).1]
          refine stack_redone_undone hm' (by omega) hj ?_
          rw [hcursor, Nat.add_sub_assoc hk, Nat.add_assoc]
          exact hbetween _ (by omega)
        exact ⟨hstack 0 (Nat.zero_le k), hstack⟩ }

/-- A variable that is pushed twice can be taken back. -/
theorem isReversible_push_dup :
    let pushed := afterAll [.push (.var "x") false .absent, .dup] { config := {} }
    pushed.Reachable ∧ pushed.cursor = 2 ∧ pushed.IsReversible := by
  intro pushed
  have h : pushed.Reachable := (Reachable.fresh {}).afterAll _
  exact ⟨h, rfl, isReversible_of_reachable h⟩

end Registers
end StackAlgebra
