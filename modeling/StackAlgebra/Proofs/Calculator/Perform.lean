import StackAlgebra.Proofs.Calculator.Execution

/-!
# Actions and lines in place

With those on the selection, the display, the history and the configuration, all operations are
carried out in place as `Calculator.perform` says (`Procedure.run_perform`), and so are lines,
except that what was carried out before a failure stays done (`Procedure.run_feedLine`).
-/

namespace StackAlgebra.Procedure

open Calculator

variable {α : Type} {m : Calculator} {place : Nat}

/-! ## Selection -/

/-- An entry is selected, or none. -/
theorem run_select (index : Option Int) :
    (select index).run m.registers = .ok () (m.select index).calculator.registers := by
  unfold select Calculator.select
  simp only [EStateM.run_bind, EStateM.run_get]
  cases index with
  | none => rfl
  | some i =>
    rw [Option.any_some, registers_hasEntry]
    dsimp only
    cases hi : m.place? i with
    | none => rfl
    | some place =>
      obtain ⟨-, rfl⟩ := lt_of_place? hi
      rfl

/-- The selection is moved. -/
theorem run_moveSelection (delta : Int) :
    (moveSelection delta).run m.registers =
      .ok () (m.moveSelection delta).calculator.registers := by
  unfold moveSelection Calculator.moveSelection
  simp only [EStateM.run_bind, EStateM.run_get]
  by_cases hempty : m.stack.isEmpty = true
  · have hempty' : m.registers.stack.isEmpty = true := hempty
    rw [if_pos hempty, if_pos hempty']
    rfl
  · have hempty' : ¬ m.registers.stack.isEmpty = true := hempty
    rw [if_neg hempty, if_neg hempty', registers_selection]
    cases m.selection with
    | none =>
      dsimp only [Option.map_none]
      by_cases hdelta : 0 ≤ delta
      · rw [if_pos hdelta, if_pos hdelta]
        rfl
      · rw [if_neg hdelta, if_neg hdelta]
        simp [registers, Calculator.stack]
    | some i =>
      dsimp only [Option.map_some]
      by_cases hover : (m.stack.length : Int) ≤ i + delta
      · have hover' : (m.registers.stack.length : Int) ≤ i + delta := hover
        rw [if_pos hover, if_pos hover']
        rfl
      · have hover' : ¬ (m.registers.stack.length : Int) ≤ i + delta := hover
        rw [if_neg hover, if_neg hover']
        simp [registers, Calculator.stack]

/-- The target entry is moved. -/
theorem run_moveEntry (hm : m.SelectsEntry) (delta : Int) :
    (moveEntry delta).run m.registers = .ok () (m.moveEntry delta).calculator.registers := by
  unfold moveEntry Calculator.moveEntry
  simp only [EStateM.run_bind, EStateM.run_get, registers_target]
  obtain ⟨-, htarget⟩ | ⟨place, hplace, htarget⟩ := target_cases hm
  · rw [htarget, place?_neg_one]
    rfl
  · have hnonneg : ¬ (place : Int) < 0 := by omega
    rw [htarget, place?_of_lt hplace, if_neg hnonneg]
    have hdestination : min (max ((place : Int) + delta) 0) (m.registers.stack.length - 1) =
        ((min ((place : Int) + delta) (m.stack.length - 1)).toNat : Int) := by
      rw [registers_stack]
      omega
    dsimp only
    rw [hdestination]
    generalize (min ((place : Int) + delta) (m.stack.length - 1)).toNat = destination
    by_cases heq : destination = place
    · rw [if_pos (congrArg Nat.cast heq), if_pos heq]
      rfl
    · have hne : ¬ (destination : Int) = place := fun h => heq (Int.ofNat_inj.mp h)
      have hselection : m.registers.selection.map (fun _ => (destination : Int)) =
          (m.selection.map fun _ => destination).map Nat.cast := by
        rw [registers_selection, Option.map_map, Option.map_map]
        rfl
      have hmoved : (m.stack.eraseIdx place).insertIdx destination m.stack[place] =
          moved m.stack place destination := by
        rw [moved, List.getElem?_eq_getElem hplace]
      simp only [if_neg hne, if_neg heq, EStateM.run_bind, run_entryAt hplace, hselection,
        registers_stack, Int.toNat_natCast, hmoved, run_commit]

/-! ## Display -/

/-- An entry is replaced by another made from it. -/
theorem run_replaceEntry (index : Int) (f : Entry → Entry) :
    (replaceEntry index f).run m.registers =
      .ok () (match m.place? index with
        | none => m
        | some place => (m.modifyEntry place f).calculator).registers := by
  unfold replaceEntry
  simp only [EStateM.run_bind, EStateM.run_get, registers_hasEntry]
  cases hplace : m.place? index with
  | none => rfl
  | some place =>
    obtain ⟨hlt, rfl⟩ := lt_of_place? hplace
    have hmodify : m.stack.set place (f m.stack[place]) = m.stack.modify place f := by
      refine List.ext_getElem (by rw [List.length_set, List.length_modify]) fun k hk _ => ?_
      rw [List.getElem_set, List.getElem_modify]
      split_ifs with h
      · subst h
        rfl
      · rfl
    simp only [Option.isSome_some, Bool.not_true, Bool.false_eq_true, if_false, EStateM.run_bind,
      run_entryAt hlt, registers_stack, registers_selection, Int.toNat_natCast, hmodify, run_commit]
    rfl

/-- An entry is switched between exact and approximate display. -/
theorem run_toggle (index : Option Int) :
    (toggle index).run m.registers = .ok () (m.toggle index).calculator.registers := by
  unfold toggle Calculator.toggle
  simp only [EStateM.run_bind, EStateM.run_get, registers_target, run_replaceEntry]
  cases m.place? (index.getD m.target) <;> rfl

/-- An entry is displayed in another radix. -/
theorem run_setEntryRadix (radix : Setting) (index : Option Int) :
    (silently (setEntryRadix radix index)).run m.registers =
      m.ending (m.setEntryRadix radix index) := by
  unfold silently setEntryRadix Calculator.setEntryRadix
  simp only [EStateM.run_bind, EStateM.run_get, registers_target, run_compute]
  cases checkRadix radix with
  | error ε => rfl
  | ok R =>
    simp only [run_replaceEntry]
    cases m.place? (index.getD m.target) <;> rfl

/-- How a procedure ends that makes its result of a computation's and leaves the registers alone. -/
def computed {β : Type} (f : β → α) (x : Except Error β) (r : Registers) :
    EStateM.Result Error Registers α :=
  match x with
  | .ok b => .ok (f b) r
  | .error ε => .error ε r

/-- An entry is written as text. -/
theorem run_renderEntry (entry : Entry) (radix : Setting) (r : Registers)
    (hr : r.config = m.config) :
    (renderEntry entry radix).run r =
      computed Prod.fst (do m.display entry (← Input.inputRadix m.config radix)) r := by
  unfold renderEntry
  simp only [EStateM.run_bind, EStateM.run_get, run_compute, hr]
  cases Input.inputRadix m.config radix with
  | error ε => rfl
  | ok active =>
    have hdisplay : ({ config := m.config } : Calculator).display entry active =
        m.display entry active := rfl
    simp only [hdisplay, bind, Except.bind]
    cases m.display entry active <;> rfl

/-- The entry at an index is written as text. -/
theorem run_render (index : Option Int) (radix : Setting) :
    (Answer.text <$> render index radix).run m.registers = m.ending (m.render index radix) := by
  unfold render Calculator.render
  simp only [run_map, EStateM.run_bind, EStateM.run_get, registers_target, registers_hasEntry]
  cases hplace : m.place? (index.getD m.target) with
  | none => rfl
  | some place =>
    obtain ⟨hlt, heq⟩ := lt_of_place? hplace
    simp only [heq, Option.isSome_some, Bool.not_true, Bool.false_eq_true, if_false,
      EStateM.run_bind, run_entryAt hlt, run_renderEntry _ _ m.registers rfl, Option.bind_some,
      List.getElem?_eq_getElem hlt]
    cases Input.inputRadix m.config radix with
    | error ε => rfl
    | ok active =>
      simp only [bind, Except.bind]
      cases m.display m.stack[place] active <;> rfl

/-- Computations on the members of a list leave the registers alone one after the other. -/
theorem run_mapM {β γ : Type} {p : γ → Procedure α} {f : γ → Except Error β} {g : β → α}
    {r : Registers} (l : List γ) (h : ∀ c, (p c).run r = computed g (f c) r) :
    (l.mapM p).run r = computed (List.map g) (l.mapM f) r := by
  induction l with
  | nil => rfl
  | cons c l ih =>
    rw [List.mapM_cons, List.mapM_cons, EStateM.run_bind, h]
    cases f c with
    | error ε => rfl
    | ok b =>
      simp only [computed, EStateM.run_bind, ih]
      cases l.mapM f <;> rfl

/-- All entries are written as text. -/
theorem run_renderStack (radix : Setting) :
    (Answer.texts <$> renderStack radix).run m.registers = m.ending (m.renderStack radix) := by
  have hrun := run_mapM m.stack fun entry => run_renderEntry entry radix m.registers rfl
  unfold renderStack Calculator.renderStack
  simp only [run_map, EStateM.run_bind, EStateM.run_get, registers_stack, hrun]
  cases m.stack.mapM (fun entry => do m.display entry (← Input.inputRadix m.config radix)) <;> rfl

/-! ## History and configuration -/

/-- The stack of another point of the history is restored. -/
theorem run_restore {history : History} (h : history.snapshots = m.history.snapshots) :
    restore.run { m.registers with cursor := history.cursor } =
      .ok () (m.restore history).registers := by
  have hpresent : memberAt? m.registers.snapshots (history.cursor : Int) =
      some history.present := by
    rw [memberAt?_natCast, ← History.getElem?_cursor, h]
    rfl
  unfold restore
  simp only [EStateM.run_bind, EStateM.run_get, run_compute, hpresent, Option.elim_some,
    EStateM.run_modify]
  unfold Calculator.restore registers
  cases hselection : m.selection with
  | none => simp [h, Calculator.stack]
  | some i =>
    by_cases hi : i < history.present.length
    · simp [h, hi, Registers.hasEntry, Calculator.stack, Option.filter]
    · simp [h, hi, Registers.hasEntry, Calculator.stack, Option.filter]

/-- The stack before is returned to. -/
theorem run_undo : undo.run m.registers = .ok () m.undo.calculator.registers := by
  unfold undo Calculator.undo
  simp only [EStateM.run_bind, EStateM.run_get]
  cases hu : m.history.undo? with
  | none =>
    have hfirst : m.registers.cursor = 0 := congrArg Nat.cast (History.undo?_eq_none_iff.mp hu)
    rw [if_pos hfirst]
    rfl
  | some history =>
    obtain ⟨hsnapshots, hcursor⟩ := History.snapshots_of_undo? hu
    have hcursor' : m.registers.cursor = history.cursor + 1 := congrArg Nat.cast hcursor
    have hfirst : ¬ m.registers.cursor = 0 := by omega
    have hback : m.registers.cursor - 1 = history.cursor := by omega
    rw [if_neg hfirst]
    simp only [EStateM.run_bind, EStateM.run_modify, hback]
    exact run_restore hsnapshots

/-- The stack that was undone is returned to. -/
theorem run_redo : redo.run m.registers = .ok () m.redo.calculator.registers := by
  unfold redo Calculator.redo
  simp only [EStateM.run_bind, EStateM.run_get]
  cases hr : m.history.redo? with
  | none =>
    have hlast : m.registers.cursor = m.registers.snapshots.length - 1 := by
      have := History.redo?_eq_none_iff.mp hr
      show (m.history.cursor : Int) = (m.history.snapshots.length : Int) - 1
      omega
    rw [if_pos hlast]
    rfl
  | some history =>
    obtain ⟨hsnapshots, hcursor⟩ := History.snapshots_of_redo? hr
    have hcursor' : m.registers.cursor + 1 = history.cursor := (congrArg Nat.cast hcursor).symm
    have hlast : ¬ m.registers.cursor = m.registers.snapshots.length - 1 := by
      intro hlast
      have hnone : m.history.redo? = none := by
        refine History.redo?_eq_none_iff.mpr ?_
        have : (m.history.cursor : Int) = m.history.snapshots.length - 1 := hlast
        omega
      rw [hr] at hnone
      cases hnone
    rw [if_neg hlast]
    simp only [EStateM.run_bind, EStateM.run_modify, hcursor']
    exact run_restore hsnapshots

/-- Another configuration is worked under. -/
theorem run_configure (change : Config → Except Error Config) :
    (silently (configure change)).run m.registers = m.ending (m.configure (change m.config)) := by
  unfold silently configure Calculator.configure
  simp only [EStateM.run_bind, EStateM.run_get, run_compute, registers_config]
  cases change m.config <;> rfl

/-- A member at an index is the entry at its place. -/
theorem memberAt?_stack (m : Calculator) (index : Int) :
    memberAt? m.stack index =
      (m.place? (if index < 0 then index + m.stack.length else index)).bind (m.stack[·]?) := by
  unfold memberAt?
  dsimp only
  generalize (if index < 0 then index + m.stack.length else index) = index
  by_cases hneg : index < 0
  · have hplace : m.place? index = none := if_neg (by omega)
    rw [if_pos hneg, hplace]
    rfl
  · rw [if_neg hneg]
    by_cases hlt : index < m.stack.length
    · have hplace : m.place? index = some index.toNat := if_pos (by omega)
      rw [hplace]
      rfl
    · have hplace : m.place? index = none := if_neg (by omega)
      rw [hplace]
      exact List.getElem?_eq_none (by omega)

/-- The expression at an index is answered. -/
theorem run_get (index : Int) :
    ((fun entry : Entry => Answer.expr entry.expr) <$> entryAt index).run m.registers =
      m.ending (m.get index) := by
  unfold entryAt Calculator.get
  simp only [run_map, EStateM.run_bind, EStateM.run_get, run_compute, registers_stack,
    memberAt?_stack]
  cases (m.place? (if index < 0 then index + m.stack.length else index)).bind (m.stack[·]?) <;> rfl

/-! ## Actions -/

/-- An operation that cannot fail is carried out. -/
theorem run_silently {p : Procedure Unit} {o : Outcome}
    (h : p.run m.registers = .ok () o.calculator.registers) (ho : o.answer = .nothing) :
    (silently p).run m.registers = m.ending (.ok o) := by
  unfold silently
  rw [EStateM.run_bind, h, ending, ho]
  rfl

/-- Dropping answers nothing. -/
theorem answer_drop (m : Calculator) (target : DropTarget) : (m.drop target).answer = .nothing := by
  unfold Calculator.drop
  dsimp only
  split <;> rfl

/-- An action is carried out. -/
theorem run_perform (hm : m.SelectsEntry) (a : Action) :
    (perform a).run m.registers = m.ending (m.perform a) := by
  cases a with
  | push e approx radix => exact run_push e approx radix
  | pushInput text radix => exact run_pushInput text radix
  | pushVariable name => exact run_pushVariable name
  | apply name => exact run_apply hm name
  | pop => exact run_pop hm
  | drop target => exact run_silently (run_drop target) (answer_drop m target)
  | dropBelow =>
    refine run_silently run_dropBelow ?_
    unfold Calculator.dropBelow
    split
    · rfl
    · exact answer_drop m _
  | dup => exact run_dup hm
  | swap => exact run_swap hm
  | clear =>
    refine run_silently run_clear ?_
    unfold Calculator.clear
    split <;> rfl
  | select index =>
    refine run_silently (run_select index) ?_
    unfold Calculator.select
    split
    · rfl
    · split <;> rfl
  | moveSelection delta =>
    refine run_silently (run_moveSelection delta) ?_
    unfold Calculator.moveSelection
    split
    · rfl
    · split
      · split <;> rfl
      · rfl
  | moveEntry delta =>
    refine run_silently (run_moveEntry hm delta) ?_
    unfold Calculator.moveEntry
    split
    · rfl
    · dsimp only
      split <;> rfl
  | toggle index =>
    refine run_silently (run_toggle index) ?_
    unfold Calculator.toggle
    dsimp only
    split <;> rfl
  | setEntryRadix radix index => exact run_setEntryRadix radix index
  | undo =>
    refine run_silently run_undo ?_
    unfold Calculator.undo
    split <;> rfl
  | redo =>
    refine run_silently run_redo ?_
    unfold Calculator.redo
    split <;> rfl
  | setRadix given => exact run_configure (·.withRadix given)
  | setPrecision given => exact run_configure (·.withPrecision given)
  | setAngle given => exact run_configure (·.withAngle given)
  | render index radix => exact run_render index radix
  | renderStack radix => exact run_renderStack radix
  | size => rfl
  | get index => exact run_get index

/-! ## Lines -/

/-- How a line ends on the registers: at those of the state that it has led to. -/
def lineEnding (x : Calculator.LineOutcome) : EStateM.Result Error Registers Unit :=
  match x.error? with
  | none => .ok () x.calculator.registers
  | some ε => .error ε x.calculator.registers

/-- Lexemes are carried out one after the other, up to the first that fails. -/
theorem run_feedAll (hm : m.SelectsEntry) (stop : Option Error) (ls : List Lexeme) :
    (feedAll stop ls).run m.registers = lineEnding (m.feedAll stop ls) := by
  induction ls generalizing m with
  | nil => cases stop <;> rfl
  | cons l ls ih =>
    unfold feedAll feed Calculator.feedAll
    cases Calculator.actionOf? l with
    | none => exact ih hm
    | some a =>
      simp only [EStateM.run_bind, run_perform hm a]
      cases h : m.perform a with
      | error ε => rfl
      | ok o => exact ih (selectsEntry_perform hm h)

/-- A line is carried out. -/
theorem run_feedLine (hm : m.SelectsEntry) (R : Radix) (line : String) :
    (feedLine R line).run m.registers = lineEnding (m.feedLine R line) :=
  run_feedAll hm _ _

end StackAlgebra.Procedure
