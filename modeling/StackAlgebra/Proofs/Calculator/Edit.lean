import StackAlgebra.Calculator.Line
import StackAlgebra.Proofs.Canonical.Descent
import Mathlib.Data.List.Perm.Basic
import Mathlib.Order.Basic

/-!
# What an operation does to the calculator

An operation other than undoing and redoing can do four things: nothing at all, select another entry
or none, change the configuration, or commit a new stack (`Calculator.Edit`). The entries that it
commits hold expressions that were on the stack before or come fresh from `Expr.simplify`, and a
selection that it leaves is that of an entry. `edit_of_perform` says so of every action; what
follows for whole runs is derived from this and from what undoing and redoing do.
-/

namespace StackAlgebra

namespace History

/-- The present stack is the snapshot at the cursor. -/
theorem getElem?_cursor (h : History) : h.snapshots[h.cursor]? = some h.present := by
  rw [History.snapshots, History.cursor, ← List.length_reverse,
    List.getElem?_append_right (Nat.le_refl _), Nat.sub_self]
  rfl

/-- Undoing steps back in the same snapshots. -/
theorem snapshots_of_undo? {h h' : History} (hu : h.undo? = some h') :
    h'.snapshots = h.snapshots ∧ h.cursor = h'.cursor + 1 := by
  obtain ⟨past, present, future⟩ := h
  cases past with
  | nil => cases hu
  | cons stack past =>
    obtain rfl := Option.some.inj hu
    simp [History.snapshots, History.cursor]

/-- Redoing steps forward in the same snapshots. -/
theorem snapshots_of_redo? {h h' : History} (hr : h.redo? = some h') :
    h'.snapshots = h.snapshots ∧ h'.cursor = h.cursor + 1 := by
  obtain ⟨past, present, future⟩ := h
  cases future with
  | nil => cases hr
  | cons stack future =>
    obtain rfl := Option.some.inj hr
    simp [History.snapshots, History.cursor]

/-- There is nothing to undo at the first snapshot only. -/
theorem undo?_eq_none_iff {h : History} : h.undo? = none ↔ h.cursor = 0 := by
  obtain ⟨past, present, future⟩ := h
  cases past <;> simp [History.undo?, History.cursor]

/-- There is nothing to redo at the last snapshot only. -/
theorem redo?_eq_none_iff {h : History} : h.redo? = none ↔ h.cursor + 1 = h.snapshots.length := by
  obtain ⟨past, present, future⟩ := h
  cases future <;> simp [History.redo?, History.cursor, History.snapshots]

end History

/-- The expression is the canonical form of some expression. -/
def Expr.IsCanonicalForm (r : Expr) : Prop :=
  ∃ e : Expr, e.simplify = .ok r

namespace Calculator

open StackAlgebra.Canonical (bind_eq_ok_iff)
open scoped List

variable {m : Calculator} {a : Action} {o : Outcome} {entry : Entry} {i place : Nat}

/-- The selection, if there is one, is that of an entry. -/
def SelectsEntry (m : Calculator) : Prop :=
  ∀ i, m.selection = some i → i < m.stack.length

/-- The entry holds an expression that was on the stack before, or a canonical form. -/
def Known (m : Calculator) (entry : Entry) : Prop :=
  (∃ old ∈ m.stack, old.expr = entry.expr) ∨ entry.expr.IsCanonicalForm

/-- What an operation other than undoing and redoing does. -/
inductive Edit (m : Calculator) : Calculator → Prop where
  | stay : Edit m m
  | select (selection : Option Nat) (h : ∀ i, selection = some i → i < m.stack.length) :
      Edit m { m with selection }
  | configure (config : Config) : Edit m { m with config }
  | commit (stack : Stack) (selection : Option Nat)
      (hs : m.SelectsEntry → ∀ i, selection = some i → i < stack.length)
      (he : ∀ entry ∈ stack, m.Known entry) : Edit m (m.commit stack selection)

/-- An entry of the stack is known. -/
theorem known_of_mem (h : entry ∈ m.stack) : m.Known entry :=
  .inl ⟨entry, h, rfl⟩

/-- There is an entry at a place that an index stands for. -/
theorem lt_of_place? {index : Int} (h : m.place? index = some place) :
    place < m.stack.length ∧ index = place := by
  unfold place? at h
  split_ifs at h with hi
  obtain rfl := Option.some.inj h
  omega

/-- The target entry is at its place. -/
theorem place_of_targetEntry (h : m.targetEntry? = some (place, entry)) :
    m.target = place ∧ m.stack[place]? = some entry := by
  obtain ⟨p, hp, h⟩ := Option.bind_eq_some_iff.mp h
  obtain ⟨e, he, h⟩ := Option.map_eq_some_iff.mp h
  obtain ⟨rfl, rfl⟩ := Prod.mk.inj h
  exact ⟨(lt_of_place? hp).2, he⟩

/-! ## Pushing -/

/-- A known entry is pushed. -/
theorem edit_pushEntry (h : m.Known entry) : Edit m (m.pushEntry entry).calculator := by
  refine .commit _ _ (fun hm i hi => ?_) (List.forall_mem_append.mpr ⟨fun _ => known_of_mem, ?_⟩)
  · rw [List.length_append]
    exact Nat.lt_add_right _ (hm i hi)
  · simpa using h

/-- Pushing commits. -/
theorem edit_push {e : Expr} {approx : Bool} {radix : Setting} (h : m.push e approx radix = .ok o) :
    Edit m o.calculator := by
  obtain ⟨R, -, h⟩ := bind_eq_ok_iff.mp h
  obtain ⟨r, hr, h⟩ := bind_eq_ok_iff.mp h
  rw [← Except.ok.inj h]
  exact edit_pushEntry (.inr ⟨e, hr⟩)

/-- Pushing what a text writes commits. -/
theorem edit_pushInput {text : String} {radix : Setting} (h : m.pushInput text radix = .ok o) :
    Edit m o.calculator := by
  obtain ⟨⟨e, R⟩, -, h⟩ := bind_eq_ok_iff.mp h
  obtain ⟨r, hr, h⟩ := bind_eq_ok_iff.mp h
  rw [← Except.ok.inj h]
  exact edit_pushEntry (.inr ⟨e, hr⟩)

/-- A variable is in canonical form. -/
theorem simplify_ofVariableName {name : String} {e : Expr} (h : Expr.ofVariableName name = .ok e) :
    e.simplify = .ok e := by
  unfold Expr.ofVariableName at h
  split_ifs at h
  rw [← Except.ok.inj h]
  rfl

/-- Pushing a variable commits. -/
theorem edit_pushVariable {name : String} (h : m.pushVariable name = .ok o) :
    Edit m o.calculator := by
  obtain ⟨e, he, h⟩ := bind_eq_ok_iff.mp h
  rw [← Except.ok.inj h]
  exact edit_pushEntry (.inr ⟨e, simplify_ofVariableName he⟩)

/-! ## Operators -/

/-- An operator answers a canonical form. -/
theorem isCanonicalForm_evaluate {op : Operator} {measure : String} {es : List Expr} {r : Expr}
    (h : op.evaluate measure es = .ok r) : r.IsCanonicalForm := by
  unfold Operator.evaluate at h
  split at h
  case h_4 =>
    split_ifs at h
    exact ⟨_, h⟩
  case h_10 => cases h
  all_goals exact ⟨_, h⟩

/-- Applying an operator commits. -/
theorem edit_apply {name : String} (h : m.apply name = .ok o) : Edit m o.calculator := by
  unfold apply at h
  split at h
  · cases h
  · rename_i op _
    dsimp only at h
    split_ifs at h with hsize
    obtain ⟨r, hr, h⟩ := bind_eq_ok_iff.mp h
    rw [← Except.ok.inj h]
    refine .commit _ _ (fun hm i hi => ?_) fun entry hentry => ?_
    · -- The result stands where the deepest operand was, which was an entry.
      obtain ⟨j, hj, rfl⟩ := Option.map_eq_some_iff.mp hi
      have hlt := hm j hj
      have htarget : m.target = j := by rw [target, hj]
      simp only [replaceOperands, List.length_append, List.length_cons, List.length_take]
      omega
    · rcases List.mem_append.mp hentry with hl | hr'
      · exact known_of_mem (List.mem_of_mem_take hl)
      · rcases List.mem_cons.mp hr' with rfl | hd
        · exact .inr (isCanonicalForm_evaluate hr)
        · exact known_of_mem (List.mem_of_mem_drop hd)

/-! ## Stack words -/

/-- The first place that is removed is that of an entry, and comes before all others. -/
theorem removed_eq_cons {target : DropTarget} {lowest : Nat} {rest : List Nat}
    (h : (List.range m.stack.length).filter (m.removes target) = lowest :: rest) :
    lowest < m.stack.length ∧ m.removes target lowest = true ∧
      ∀ k < lowest, m.removes target k = false := by
  have hmem : lowest ∈ (List.range m.stack.length).filter (m.removes target) := by
    rw [h]
    exact List.mem_cons_self
  obtain ⟨hlt, hremoves⟩ := List.mem_filter.mp hmem
  rw [List.mem_range] at hlt
  refine ⟨hlt, hremoves, fun k hk => ?_⟩
  -- The places that are removed are in increasing order.
  have hsorted : ((List.range m.stack.length).filter (m.removes target)).Pairwise (· < ·) :=
    List.pairwise_lt_range.filter _
  by_contra hrem
  have hkm : k ∈ (List.range m.stack.length).filter (m.removes target) :=
    List.mem_filter.mpr ⟨List.mem_range.mpr (by omega), Bool.not_eq_false _ ▸ hrem⟩
  rw [h] at hsorted hkm
  rcases List.mem_cons.mp hkm with rfl | hkr
  · exact Nat.lt_irrefl _ hk
  · have := (List.pairwise_cons.mp hsorted).1 k hkr
    omega

/-- All entries below the first removed one are kept. -/
theorem le_length_kept {target : DropTarget} {lowest : Nat} {rest : List Nat}
    (h : (List.range m.stack.length).filter (m.removes target) = lowest :: rest) :
    lowest ≤ (m.stack.zipIdx.filter fun x => !m.removes target x.2).length := by
  obtain ⟨hlt, -, hfirst⟩ := removed_eq_cons h
  have htake : (m.stack.zipIdx.take lowest).filter (fun x => !m.removes target x.2) =
      m.stack.zipIdx.take lowest := by
    refine List.filter_eq_self.mpr fun x hx => ?_
    obtain ⟨k, hk, rfl⟩ := List.mem_iff_getElem.mp hx
    have hk' : k < lowest := by
      rw [List.length_take] at hk
      omega
    simp [hfirst k hk']
  calc lowest = (m.stack.zipIdx.take lowest).length := by
        rw [List.length_take, List.length_zipIdx]
        omega
    _ = ((m.stack.zipIdx.take lowest).filter fun x => !m.removes target x.2).length := by rw [htake]
    _ ≤ (m.stack.zipIdx.filter fun x => !m.removes target x.2).length :=
        ((List.take_sublist _ _).filter _).length_le

/-- Dropping commits, or does nothing. -/
theorem edit_drop (target : DropTarget) : Edit m (m.drop target).calculator := by
  unfold drop
  dsimp only
  split
  · exact .stay
  · rename_i lowest rest hremoved
    refine .commit _ _ (fun hm i hi => ?_) fun entry hentry => ?_
    · obtain ⟨-, hlt⟩ := Option.filter_eq_some_iff.mp hi
      rw [List.length_map]
      exact Nat.lt_of_lt_of_le (of_decide_eq_true hlt) (le_length_kept hremoved)
    · obtain ⟨x, hx, rfl⟩ := List.mem_map.mp hentry
      exact known_of_mem (List.fst_mem_of_mem_zipIdx (List.mem_filter.mp hx).1)

/-- Dropping what is below the selection commits, or does nothing. -/
theorem edit_dropBelow : Edit m m.dropBelow.calculator := by
  unfold dropBelow
  split
  · exact .stay
  · exact edit_drop _

/-- Removing the target entry commits. -/
theorem edit_pop (h : m.pop = .ok o) : Edit m o.calculator := by
  unfold pop at h
  split at h
  · cases h
  · rw [← Except.ok.inj h]
    exact edit_drop _

/-- Copying the target entry commits. -/
theorem edit_dup (h : m.dup = .ok o) : Edit m o.calculator := by
  unfold dup at h
  split at h
  · cases h
  · rename_i place entry htarget
    rw [← Except.ok.inj h]
    exact edit_pushEntry (known_of_mem (List.mem_of_getElem? (place_of_targetEntry htarget).2))

/-- Moving an entry keeps the entries. -/
theorem perm_moved (stack : Stack) (place destination : Nat) (h : destination < stack.length) :
    moved stack place destination ~ stack := by
  unfold moved
  split
  · exact .refl _
  · rename_i entry hentry
    obtain ⟨hplace, rfl⟩ := List.getElem?_eq_some_iff.mp hentry
    have hlen : destination ≤ (stack.eraseIdx place).length := by
      rw [List.length_eraseIdx_of_lt hplace]
      omega
    calc (stack.eraseIdx place).insertIdx destination stack[place]
        ~ stack[place] :: stack.eraseIdx place := List.perm_insertIdx _ _ hlen
      _ ~ stack := List.getElem_cons_eraseIdx_perm hplace

/-- A stack with the same entries in another order is committed. -/
theorem edit_commit_perm {stack : Stack} {selection : Option Nat} (hp : stack ~ m.stack)
    (hs : m.SelectsEntry → ∀ i, selection = some i → i < m.stack.length) :
    Edit m (m.commit stack selection) :=
  .commit _ _ (fun hm i hi => hp.length_eq.symm ▸ hs hm i hi) fun _ he =>
    known_of_mem (hp.mem_iff.mp he)

/-- Exchanging the target entry and the one below commits. -/
theorem edit_swap (h : m.swap = .ok o) : Edit m o.calculator := by
  unfold swap at h
  split at h
  · rename_i below hplace
    obtain ⟨hlt, -⟩ := lt_of_place? hplace
    rw [← Except.ok.inj h]
    exact edit_commit_perm (perm_moved _ _ _ (by omega)) fun hm => hm
  · cases h

/-- Removing all entries commits, or does nothing. -/
theorem edit_clear : Edit m m.clear.calculator := by
  unfold clear
  split
  · exact .stay
  · exact .commit _ _ (by simp) (by simp)

/-! ## Selection -/

/-- Selecting selects, or does nothing. -/
theorem edit_select (index : Option Int) : Edit m (m.select index).calculator := by
  unfold select
  split
  · exact .select _ (by simp)
  · split
    · rename_i place hplace
      exact .select _ fun i hi => Option.some.inj hi ▸ (lt_of_place? hplace).1
    · exact .stay

/-- Moving the selection selects, or does nothing. -/
theorem edit_moveSelection (delta : Int) : Edit m (m.moveSelection delta).calculator := by
  unfold moveSelection
  cases hempty : m.stack.isEmpty with
  | true => exact .stay
  | false =>
    have hpos : 0 < m.stack.length := by
      rw [List.length_pos_iff]
      simpa using hempty
    rw [if_neg Bool.false_ne_true]
    cases m.selection with
    | none =>
      by_cases hdelta : 0 ≤ delta
      · simp only [if_pos hdelta]
        exact .stay
      · simp only [if_neg hdelta]
        refine .select _ fun i hi => ?_
        obtain rfl := Option.some.inj hi
        omega
    | some j =>
      refine .select _ fun i hi => ?_
      split_ifs at hi with hover
      obtain rfl := Option.some.inj hi
      omega

/-- Moving the target entry commits, or does nothing. -/
theorem edit_moveEntry (delta : Int) : Edit m (m.moveEntry delta).calculator := by
  unfold moveEntry
  split
  · exact .stay
  · rename_i place hplace
    obtain ⟨hlt, -⟩ := lt_of_place? hplace
    dsimp only
    split_ifs
    · exact .stay
    · refine edit_commit_perm (perm_moved _ _ _ (by omega)) fun _ i hi => ?_
      obtain ⟨j, -, rfl⟩ := Option.map_eq_some_iff.mp hi
      omega

/-! ## Display -/

/-- Changing how an entry is displayed commits. -/
theorem edit_modifyEntry {f : Entry → Entry} (hf : ∀ entry, (f entry).expr = entry.expr) :
    Edit m (m.modifyEntry place f).calculator := by
  refine .commit _ _ (fun hm i hi => ?_) fun entry hentry => ?_
  · rw [List.length_modify]
    exact hm i hi
  · obtain ⟨k, hk, rfl⟩ := List.mem_iff_getElem.mp hentry
    rw [List.length_modify] at hk
    refine .inl ⟨m.stack[k], List.getElem_mem hk, ?_⟩
    rw [List.getElem_modify]
    split_ifs
    · exact (hf _).symm
    · rfl

/-- Switching an entry's display mode commits, or does nothing. -/
theorem edit_toggle (index : Option Int) : Edit m (m.toggle index).calculator := by
  unfold toggle
  dsimp only
  split
  · exact .stay
  · exact edit_modifyEntry fun _ => rfl

/-- Displaying an entry in another radix commits, or does nothing. -/
theorem edit_setEntryRadix {radix : Setting} {index : Option Int}
    (h : m.setEntryRadix radix index = .ok o) : Edit m o.calculator := by
  obtain ⟨R, -, h⟩ := bind_eq_ok_iff.mp h
  split at h
  · rw [← Except.ok.inj h]
    exact .stay
  · rw [← Except.ok.inj h]
    exact edit_modifyEntry fun _ => rfl

/-- Rendering an entry does nothing to the calculator. -/
theorem calculator_render {index : Option Int} {radix : Setting}
    (h : m.render index radix = .ok o) :
    o.calculator = m := by
  unfold render at h
  dsimp only at h
  split at h
  · cases h
  · obtain ⟨R, -, h⟩ := bind_eq_ok_iff.mp h
    obtain ⟨s, -, h⟩ := bind_eq_ok_iff.mp h
    rw [← Except.ok.inj h]

/-- Rendering the stack does nothing to the calculator. -/
theorem calculator_renderStack {radix : Setting} (h : m.renderStack radix = .ok o) :
    o.calculator = m := by
  obtain ⟨s, -, h⟩ := bind_eq_ok_iff.mp h
  rw [← Except.ok.inj h]

/-- Reading an entry does nothing to the calculator. -/
theorem calculator_get {index : Int} (h : m.get index = .ok o) : o.calculator = m := by
  unfold get at h
  dsimp only at h
  split at h
  · cases h
  · rw [← Except.ok.inj h]

/-- Working under another configuration changes the configuration. -/
theorem edit_configure {config : Except Error Config} (h : m.configure config = .ok o) :
    Edit m o.calculator := by
  obtain ⟨c, -, h⟩ := bind_eq_ok_iff.mp h
  rw [← Except.ok.inj h]
  exact .configure c

/-! ## All actions -/

/-- An action other than undoing and redoing does one of the four things. -/
theorem edit_of_perform (hu : a ≠ .undo) (hr : a ≠ .redo) (h : m.perform a = .ok o) :
    Edit m o.calculator := by
  cases a with
  | undo => exact absurd rfl hu
  | redo => exact absurd rfl hr
  | push e approx radix => exact edit_push h
  | pushInput text radix => exact edit_pushInput h
  | pushVariable name => exact edit_pushVariable h
  | apply name => exact edit_apply h
  | pop => exact edit_pop h
  | dup => exact edit_dup h
  | swap => exact edit_swap h
  | setEntryRadix radix index => exact edit_setEntryRadix h
  | setRadix given => exact edit_configure h
  | setPrecision given => exact edit_configure h
  | setAngle given => exact edit_configure h
  | render index radix => exact calculator_render h ▸ .stay
  | renderStack radix => exact calculator_renderStack h ▸ .stay
  | get index => exact calculator_get h ▸ .stay
  | drop target => exact Except.ok.inj h ▸ edit_drop target
  | dropBelow => exact Except.ok.inj h ▸ edit_dropBelow
  | clear => exact Except.ok.inj h ▸ edit_clear
  | select index => exact Except.ok.inj h ▸ edit_select index
  | moveSelection delta => exact Except.ok.inj h ▸ edit_moveSelection delta
  | moveEntry delta => exact Except.ok.inj h ▸ edit_moveEntry delta
  | toggle index => exact Except.ok.inj h ▸ edit_toggle index
  | size => exact Except.ok.inj h ▸ .stay

/-! ## Whole runs -/

/-- A selection has an entry after an edit if it had one before. -/
theorem Edit.selectsEntry {m' : Calculator} (h : Edit m m') (hm : m.SelectsEntry) :
    m'.SelectsEntry := by
  cases h with
  | stay => exact hm
  | select selection h => exact h
  | configure config => exact hm
  | commit stack selection hs he => exact hs hm

/-- A selection that is restored has an entry. -/
theorem selectsEntry_restore (m : Calculator) (history : History) :
    (m.restore history).SelectsEntry := by
  intro i hi
  exact of_decide_eq_true (Option.filter_eq_some_iff.mp hi).2

/-- Undoing leaves the state or goes to another point of its history. -/
theorem undo_cases (m : Calculator) : (m.undo.calculator = m ∧ m.history.cursor = 0) ∨
    ∃ history, m.history.undo? = some history ∧ m.undo.calculator = m.restore history := by
  unfold undo
  cases h : m.history.undo? with
  | none => exact .inl ⟨rfl, History.undo?_eq_none_iff.mp h⟩
  | some history => exact .inr ⟨history, rfl, rfl⟩

/-- Redoing leaves the state or goes to another point of its history. -/
theorem redo_cases (m : Calculator) :
    (m.redo.calculator = m ∧ m.history.cursor + 1 = m.history.snapshots.length) ∨
    ∃ history, m.history.redo? = some history ∧ m.redo.calculator = m.restore history := by
  unfold redo
  cases h : m.history.redo? with
  | none => exact .inl ⟨rfl, History.redo?_eq_none_iff.mp h⟩
  | some history => exact .inr ⟨history, rfl, rfl⟩

/-- A selection has an entry after every action. -/
theorem selectsEntry_perform (hm : m.SelectsEntry) (h : m.perform a = .ok o) :
    o.calculator.SelectsEntry := by
  cases a with
  | undo =>
    obtain rfl := Except.ok.inj h
    rcases undo_cases m with ⟨heq, -⟩ | ⟨history, -, heq⟩
    · exact heq.symm ▸ hm
    · exact heq.symm ▸ selectsEntry_restore m history
  | redo =>
    obtain rfl := Except.ok.inj h
    rcases redo_cases m with ⟨heq, -⟩ | ⟨history, -, heq⟩
    · exact heq.symm ▸ hm
    · exact heq.symm ▸ selectsEntry_restore m history
  | _ => exact (edit_of_perform (by simp) (by simp) h).selectsEntry hm

/-- What every action preserves holds after every line. -/
theorem feedAll_invariant {P : Calculator → Prop}
    (hP : ∀ {m : Calculator} {a : Action} {o : Outcome}, P m → m.perform a = .ok o → P o.calculator)
    (hm : P m) (stop : Option Error) (ls : List Lexeme) : P (m.feedAll stop ls).calculator := by
  induction ls generalizing m with
  | nil => exact hm
  | cons l ls ih =>
    unfold feedAll
    cases actionOf? l with
    | none => exact ih hm
    | some a =>
      dsimp only
      cases h : m.perform a with
      | error ε => exact hm
      | ok o => exact ih (hP hm h)

end Calculator
end StackAlgebra
