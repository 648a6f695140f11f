import StackAlgebra.Proofs.Calculator.Invariant

/-!
# Display has no part in values

Some actions only change how entries are shown, or show them (`Action.isDisplay`). `Registers.Twins`
are the registers of two runs from the same fresh calculator that differ by such actions inserted
anywhere in one of them. In neither run is anything undone or redone. Twins have the same
expressions and the same selection, and every action that is not itself a rendering answers or fails
in both alike (`Registers.sameValues_of_twins`). A rendering fails in both alike as well, except
that an entry shown approximately fails to be shown if its approximation breaks off with an error
that is not reported (`Entry.displayError?`), and whether an entry is shown approximately is what
the inserted actions decide. Such an approximation is that of a logarithm whose base is so close to
one that its own logarithm is zero as a machine number (`Entry.displayError?_log`,
`Registers.rendering_log`).

The proof compares states of the calculator by their `Calculator.values`, which leave the display
out: displaying keeps them, and what any other action comes to depends on them alone.
-/

namespace StackAlgebra

/-- The action changes only how entries are shown, or shows them. -/
def Action.isDisplay : Action → Bool
  | .toggle _ | .setEntryRadix _ _ | .setPrecision _ | .render _ _ | .renderStack _ => true
  | _ => false

/-- The action shows entries. -/
def Action.isRendering : Action → Bool
  | .render _ _ | .renderStack _ => true
  | _ => false

/-- The action moves through the history. -/
def Action.isHistory : Action → Bool
  | .undo | .redo => true
  | _ => false

/-- The error that a computation ends with, if it does not succeed. -/
def error? {α : Type} : Except Error α → Option Error
  | .ok _ => none
  | .error ε => some ε

/-- The error that keeps an entry from being shown: that with which its approximation breaks off,
where it is to be shown approximately and the error is not one that is reported. -/
def Entry.displayError? (entry : Entry) : Option Error :=
  if entry.approx then (error? entry.expr.approximate).filter (!·.isReportable) else none

namespace Calculator

open Canonical (bind_eq_ok_iff)

variable {m n : Calculator} {place : Nat} {a : Action} {entry entry' : Entry}
  {o o' : Outcome}

/-! ## Values -/

/-- What a state comes to if the display is left out. -/
structure Values where
  exprs : List Expr
  selection : Option Nat
  radix : Radix
  angle : AngleMeasure

/-- The values of a state. -/
def values (m : Calculator) : Values where
  exprs := m.stack.map (·.expr)
  selection := m.selection
  radix := m.config.radix
  angle := m.config.angle

/-- What an operation comes to if the display is left out: the values after it and its answer, or
its error. -/
def yield (x : Except Error Outcome) : Except Error (Values × Answer) :=
  x.map fun o => (o.calculator.values, o.answer)

section Reading

variable (h : m.values = n.values)
include h

/-- States of the same values have the same expressions. -/
theorem exprs_of_values : m.stack.map (·.expr) = n.stack.map (·.expr) :=
  congrArg Values.exprs h

/-- States of the same values have equally many entries. -/
theorem length_of_values : m.stack.length = n.stack.length := by
  simpa using congrArg List.length (exprs_of_values h)

/-- States of the same values have the same selection. -/
theorem selection_of_values : m.selection = n.selection :=
  congrArg Values.selection h

/-- States of the same values have the same target. -/
theorem target_of_values : m.target = n.target := by
  unfold target
  rw [selection_of_values h, length_of_values h]

/-- States of the same values have entries at the same places. -/
theorem place?_of_values (index : Int) : m.place? index = n.place? index := by
  unfold place?
  rw [length_of_values h]

/-- At each place states of the same values have the same expression. -/
theorem getElem?_of_values (place : Nat) :
    (m.stack[place]?).map (·.expr) = (n.stack[place]?).map (·.expr) := by
  rw [← List.getElem?_map, ← List.getElem?_map, exprs_of_values h]

/-- What replaces stack and selection leads to the same values if it does so with the same
expressions. -/
theorem values_commit_of_values {stack stack' : Stack} {selection selection' : Option Nat}
    (hstack : stack.map (·.expr) = stack'.map (·.expr)) (hselection : selection = selection') :
    (m.commit stack selection).values = (n.commit stack' selection').values := by
  have hradix := congrArg Values.radix h
  have hangle := congrArg Values.angle h
  unfold values at hradix hangle ⊢
  simp only [Values.mk.injEq]
  exact ⟨hstack, hselection, hradix, hangle⟩

end Reading

/-! ## Displaying keeps the values -/

/-- An entry replaced by one of the same expression keeps the values. -/
theorem values_modifyEntry {f : Entry → Entry} (hf : ∀ entry, (f entry).expr = entry.expr) :
    (m.modifyEntry place f).calculator.values = m.values := by
  have hstack : (m.stack.modify place f).map (·.expr) = m.stack.map (·.expr) := by
    refine List.ext_getElem? fun k => ?_
    rw [List.getElem?_map, List.getElem?_map, List.getElem?_modify]
    cases m.stack[k]? with
    | none => rfl
    | some entry => by_cases hk : place = k <;> simp [hk, hf]
  exact values_commit_of_values rfl hstack rfl

/-- Displaying keeps the values. -/
theorem values_of_isDisplay (ha : a.isDisplay = true) (h : m.perform a = .ok o) :
    o.calculator.values = m.values := by
  cases a with
  | toggle index =>
    obtain rfl := Except.ok.inj h
    unfold toggle
    dsimp only
    split
    · rfl
    · exact values_modifyEntry fun _ => rfl
  | setEntryRadix radix index =>
    obtain ⟨R, -, h⟩ := bind_eq_ok_iff.mp h
    split at h
    · rw [← Except.ok.inj h]
      rfl
    · rw [← Except.ok.inj h]
      exact values_modifyEntry fun _ => rfl
  | setPrecision given =>
    obtain ⟨config, hconfig, h⟩ := bind_eq_ok_iff.mp h
    obtain ⟨precision, -, hprecision⟩ := bind_eq_ok_iff.mp hconfig
    rw [← Except.ok.inj h, ← Except.ok.inj hprecision]
    rfl
  | render index radix => rw [calculator_render h]
  | renderStack radix => rw [calculator_renderStack h]
  | _ => cases ha

/-- Displaying keeps the values, whether it fails or not. -/
theorem values_next_of_isDisplay (ha : a.isDisplay = true) : (m.next a).values = m.values := by
  unfold next
  cases h : m.perform a with
  | error ε => rfl
  | ok o => exact values_of_isDisplay ha h

/-! ## Other actions depend on the values alone -/

/-- Results with the same values and answers come to the same. -/
theorem yield_ok (hv : o.calculator.values = o'.calculator.values) (ha : o.answer = o'.answer) :
    yield (.ok o) = yield (.ok o') :=
  congrArg Except.ok (Prod.ext hv ha)

section Actions

variable (h : m.values = n.values)
include h

/-- Entries of the same expression are pushed alike. -/
theorem yield_pushEntry (he : entry.expr = entry'.expr) :
    yield (.ok (m.pushEntry entry)) = yield (.ok (n.pushEntry entry')) := by
  refine yield_ok (values_commit_of_values h ?_ (selection_of_values h)) rfl
  rw [List.map_append, List.map_append, exprs_of_values h, List.map_singleton, List.map_singleton,
    he]

/-- A text is read alike. -/
theorem readText_of_values (text : String) (radix : Setting) :
    Input.readText m.config text radix = Input.readText n.config text radix := by
  have hradix : m.config.radix = n.config.radix := congrArg Values.radix h
  unfold Input.readText Input.inputRadix
  rw [hradix]

/-- An operator is applied alike. -/
theorem yield_apply (name : String) : yield (m.apply name) = yield (n.apply name) := by
  have hangle : m.config.angle = n.config.angle := congrArg Values.angle h
  have hoperands (low arity : Nat) :
      (m.operands low arity).map (·.expr) = (n.operands low arity).map (·.expr) := by
    rw [operands, operands, List.map_take, List.map_take, List.map_drop, List.map_drop,
      exprs_of_values h]
  unfold apply
  rw [target_of_values h, hangle]
  cases Operator.find? name with
  | none => rfl
  | some op =>
    dsimp only
    generalize (n.target + 1).toNat - op.arity = low
    split_ifs
    · rfl
    · rw [hoperands]
      cases op.evaluate n.config.angle.name ((n.operands low op.arity).map (·.expr)) with
      | error ε => rfl
      | ok r =>
        -- What is left of the old stack has the same expressions below and above the new entry.
        refine yield_ok (values_commit_of_values h ?_ (by rw [selection_of_values h])) rfl
        simp only [replaceOperands, List.map_append, List.map_cons, List.map_take, List.map_drop,
          exprs_of_values h]

/-- The same entries are dropped. -/
theorem yield_drop (target : DropTarget) :
    yield (.ok (m.drop target)) = yield (.ok (n.drop target)) := by
  have hremoves : m.removes target = n.removes target := by
    funext place
    cases target with
    | default => rw [removes, removes, target_of_values h]
    | _ => rfl
  have hkept (k : Calculator) :
      ((k.stack.zipIdx.filter fun x => !n.removes target x.2).map (·.1)).map (·.expr) =
        (((k.stack.map (·.expr)).zipIdx.filter fun x => !n.removes target x.2).map (·.1)) := by
    rw [List.zipIdx_map, List.filter_map, List.map_map, List.map_map]
    rfl
  unfold drop
  rw [hremoves, length_of_values h]
  dsimp only
  split
  · exact yield_ok h rfl
  · refine yield_ok (values_commit_of_values h ?_ (by rw [selection_of_values h])) rfl
    rw [hkept m, hkept n, exprs_of_values h]

/-- The same target is found, with an entry of the same expression. -/
theorem targetEntry?_of_values :
    m.targetEntry?.map (fun x => (x.1, x.2.expr)) = n.targetEntry?.map fun x =>
      (x.1, x.2.expr) := by
  unfold targetEntry?
  rw [target_of_values h, place?_of_values h]
  cases n.place? n.target with
  | none => rfl
  | some place =>
    have hget := congrArg (Option.map fun e => (place, e)) (getElem?_of_values h place)
    rw [Option.map_map, Option.map_map] at hget
    rw [Option.bind_some, Option.bind_some, Option.map_map, Option.map_map]
    exact hget

/-- The same target is found, or none. -/
theorem targetEntry?_cases :
    (m.targetEntry? = none ∧ n.targetEntry? = none) ∨
      ∃ place entry entry', m.targetEntry? = some (place, entry) ∧
        n.targetEntry? = some (place, entry') ∧ entry.expr = entry'.expr := by
  have heq := targetEntry?_of_values h
  cases hm : m.targetEntry? with
  | none =>
    rw [hm] at heq
    exact .inl ⟨rfl, Option.map_eq_none_iff.mp heq.symm⟩
  | some x =>
    rw [hm] at heq
    obtain ⟨y, hy, hxy⟩ := Option.map_eq_some_iff.mp heq.symm
    obtain ⟨hplace, hexpr⟩ := Prod.mk.inj hxy
    exact .inr ⟨x.1, x.2, y.2, rfl, by rw [hy, ← hplace], hexpr.symm⟩

/-- An entry is moved alike. -/
theorem map_moved_of_values (place destination : Nat) :
    (moved m.stack place destination).map (·.expr) =
      (moved n.stack place destination).map (·.expr) := by
  have hmap (k : Calculator) : (moved k.stack place destination).map (·.expr) =
      match (k.stack.map (·.expr))[place]? with
      | none => k.stack.map (·.expr)
      | some e => ((k.stack.map (·.expr)).eraseIdx place).insertIdx destination e := by
    rw [moved, List.getElem?_map]
    cases k.stack[place]? with
    | none => rfl
    | some entry =>
      rw [Option.map_some, List.eraseIdx_map, List.map_insertIdx]
  rw [hmap m, hmap n, exprs_of_values h]

/-- Another selection is made alike. -/
theorem yield_selection (selection : Option Nat) :
    yield (.ok { calculator := { m with selection } }) =
      yield (.ok { calculator := { n with selection } }) :=
  yield_ok (congrArg (fun v : Values => { v with selection }) h) rfl

/-- States of the same values are empty together. -/
theorem isEmpty_of_values : m.stack.isEmpty = n.stack.isEmpty := by
  rw [Bool.eq_iff_iff, List.isEmpty_iff_length_eq_zero, List.isEmpty_iff_length_eq_zero,
    length_of_values h]

/-- An entry is selected alike. -/
theorem yield_select (index : Option Int) :
    yield (.ok (m.select index)) = yield (.ok (n.select index)) := by
  cases index with
  | none => exact yield_selection h none
  | some i =>
    unfold select
    dsimp only
    rw [place?_of_values h]
    split
    · exact yield_selection h _
    · exact yield_ok h rfl

/-- A selection is moved alike. -/
theorem yield_moveSelection (delta : Int) :
    yield (.ok (m.moveSelection delta)) = yield (.ok (n.moveSelection delta)) := by
  unfold moveSelection
  rw [isEmpty_of_values h, selection_of_values h, length_of_values h]
  by_cases hempty : n.stack.isEmpty = true
  · rw [if_pos hempty, if_pos hempty]
    exact yield_ok h rfl
  · rw [if_neg hempty, if_neg hempty]
    split
    · split_ifs
      · exact yield_ok h rfl
      · exact yield_selection h _
    · exact yield_selection h _

/-- An entry is moved alike. -/
theorem yield_moveEntry (delta : Int) :
    yield (.ok (m.moveEntry delta)) = yield (.ok (n.moveEntry delta)) := by
  unfold moveEntry
  rw [target_of_values h, place?_of_values h, length_of_values h, selection_of_values h]
  split
  · exact yield_ok h rfl
  · dsimp only
    split_ifs
    · exact yield_ok h rfl
    · exact yield_ok (values_commit_of_values h (map_moved_of_values h _ _) rfl) rfl

/-- The expression at an index is answered alike. -/
theorem yield_get (index : Int) : yield (m.get index) = yield (n.get index) := by
  unfold get
  rw [length_of_values h]
  dsimp only
  generalize (if index < 0 then index + (n.stack.length : Int) else index) = index
  rw [place?_of_values h]
  cases n.place? index with
  | none => rfl
  | some place =>
    have hget := getElem?_of_values h place
    rw [Option.bind_some, Option.bind_some]
    cases hm : m.stack[place]? with
    | none =>
      rw [hm] at hget
      rw [Option.map_eq_none_iff.mp hget.symm]
    | some entry =>
      rw [hm] at hget
      obtain ⟨entry', hn, he⟩ := Option.map_eq_some_iff.mp hget.symm
      rw [hn]
      exact yield_ok h (congrArg Answer.expr he.symm)

/-- An expression is pushed alike. -/
theorem yield_push (e : Expr) (approx : Bool) (radix : Setting) :
    yield (m.push e approx radix) = yield (n.push e approx radix) := by
  unfold push
  cases checkRadix radix with
  | error ε => rfl
  | ok R =>
    cases e.simplify with
    | error ε => rfl
    | ok r => exact yield_pushEntry h rfl

/-- What a text writes is pushed alike. -/
theorem yield_pushInput (text : String) (radix : Setting) :
    yield (m.pushInput text radix) = yield (n.pushInput text radix) := by
  unfold pushInput
  rw [readText_of_values h]
  cases Input.readText n.config text radix with
  | error ε => rfl
  | ok x =>
    dsimp only [bind, Except.bind]
    cases x.1.simplify with
    | error ε => rfl
    | ok r => exact yield_pushEntry h rfl

/-- A variable is pushed alike. -/
theorem yield_pushVariable (name : String) :
    yield (m.pushVariable name) = yield (n.pushVariable name) := by
  unfold pushVariable
  cases Expr.ofVariableName (String.ofList (Input.unescape name.toList)) with
  | error ε => rfl
  | ok e => exact yield_pushEntry h rfl

/-- The target entry is removed and answered alike. -/
theorem yield_pop : yield m.pop = yield n.pop := by
  unfold pop
  obtain ⟨hm, hn⟩ | ⟨place, entry, entry', hm, hn, he⟩ := targetEntry?_cases h
  · rw [hm, hn]
  · rw [hm, hn]
    have hdrop := congrArg Prod.fst (Except.ok.inj (yield_drop h (.index place)))
    exact yield_ok hdrop (congrArg Answer.expr he)

/-- What is below the selection is dropped alike. -/
theorem yield_dropBelow : yield (.ok m.dropBelow) = yield (.ok n.dropBelow) := by
  unfold dropBelow
  rw [selection_of_values h]
  split
  · exact yield_ok h rfl
  · exact yield_drop h _

/-- The target entry is copied alike. -/
theorem yield_dup : yield m.dup = yield n.dup := by
  unfold dup
  obtain ⟨hm, hn⟩ | ⟨place, entry, entry', hm, hn, he⟩ := targetEntry?_cases h
  · rw [hm, hn]
  · rw [hm, hn]
    exact yield_pushEntry h he

/-- Two entries are exchanged alike. -/
theorem yield_swap : yield m.swap = yield n.swap := by
  unfold swap
  rw [target_of_values h, place?_of_values h]
  split
  · exact yield_ok
      (values_commit_of_values h (map_moved_of_values h _ _) (selection_of_values h)) rfl
  · rfl

/-- All entries are removed alike. -/
theorem yield_clear : yield (.ok m.clear) = yield (.ok n.clear) := by
  have hempty := isEmpty_of_values h
  unfold clear
  cases hm : m.stack with
  | nil =>
    rw [hm, eq_comm, List.isEmpty_nil, List.isEmpty_iff] at hempty
    rw [hempty]
    exact yield_ok h rfl
  | cons entry rest =>
    cases hn : n.stack with
    | nil =>
      rw [hm, hn] at hempty
      cases hempty
    | cons entry' rest' => exact yield_ok (values_commit_of_values h rfl rfl) rfl

/-- An entry is replaced alike by one of the same expression. -/
theorem yield_modifyEntry {f : Entry → Entry} (hf : ∀ entry, (f entry).expr = entry.expr) :
    yield (.ok (m.modifyEntry place f)) = yield (.ok (n.modifyEntry place f)) :=
  yield_ok ((values_modifyEntry hf).trans (h.trans (values_modifyEntry hf).symm)) rfl

/-- Another display mode is set alike. -/
theorem yield_toggle (index : Option Int) :
    yield (.ok (m.toggle index)) = yield (.ok (n.toggle index)) := by
  unfold toggle
  rw [target_of_values h]
  dsimp only
  rw [place?_of_values h]
  split
  · exact yield_ok h rfl
  · exact yield_modifyEntry h fun _ => rfl

/-- Another radix to display in is set alike. -/
theorem yield_setEntryRadix (radix : Setting) (index : Option Int) :
    yield (m.setEntryRadix radix index) = yield (n.setEntryRadix radix index) := by
  unfold setEntryRadix
  cases checkRadix radix with
  | error ε => rfl
  | ok R =>
    dsimp only [bind, Except.bind]
    rw [target_of_values h, place?_of_values h]
    split
    · exact yield_ok h rfl
    · exact yield_modifyEntry h fun _ => rfl

/-- Another radix is configured alike. -/
theorem yield_setRadix (given : Setting) :
    yield (m.configure (m.config.withRadix given)) =
      yield (n.configure (n.config.withRadix given)) := by
  unfold Config.withRadix
  cases Config.reportAs (.unreadableRadix given) (Radix.ofSetting given) with
  | error ε => rfl
  | ok R => exact yield_ok (congrArg (fun v : Values => { v with radix := R }) h) rfl

/-- Another precision is configured alike. -/
theorem yield_setPrecision (given : Setting) :
    yield (m.configure (m.config.withPrecision given)) =
      yield (n.configure (n.config.withPrecision given)) := by
  unfold Config.withPrecision
  cases Config.reportAs (.unreadablePrecision given) (Config.checkPrecision given) with
  | error ε => rfl
  | ok precision => exact yield_ok h rfl

/-- Another angle measure is configured alike. -/
theorem yield_setAngle (given : Setting) :
    yield (m.configure (m.config.withAngle given)) =
      yield (n.configure (n.config.withAngle given)) := by
  unfold Config.withAngle
  cases Config.checkAngle given with
  | error ε => rfl
  | ok angle => exact yield_ok (congrArg (fun v : Values => { v with angle }) h) rfl

/-- What an action comes to that is no rendering and does not move through the history depends on
the values alone. -/
theorem yield_perform (hh : a.isHistory = false) (hr : a.isRendering = false) :
    yield (m.perform a) = yield (n.perform a) := by
  cases a with
  | push e approx radix => exact yield_push h e approx radix
  | pushInput text radix => exact yield_pushInput h text radix
  | pushVariable name => exact yield_pushVariable h name
  | apply name => exact yield_apply h name
  | pop => exact yield_pop h
  | drop target => exact yield_drop h target
  | dropBelow => exact yield_dropBelow h
  | dup => exact yield_dup h
  | swap => exact yield_swap h
  | clear => exact yield_clear h
  | select index => exact yield_select h index
  | moveSelection delta => exact yield_moveSelection h delta
  | moveEntry delta => exact yield_moveEntry h delta
  | toggle index => exact yield_toggle h index
  | setEntryRadix radix index => exact yield_setEntryRadix h radix index
  | setRadix given => exact yield_setRadix h given
  | setPrecision given => exact yield_setPrecision h given
  | setAngle given => exact yield_setAngle h given
  | size => exact yield_ok h (by rw [length_of_values h])
  | get index => exact yield_get h index
  | undo | redo => cases hh
  | render index radix | renderStack radix => cases hr

/-- An action that does not move through the history leads to the same values. -/
theorem values_next_of_values (hh : a.isHistory = false) :
    (m.next a).values = (n.next a).values := by
  cases hr : a.isRendering with
  | true =>
    have ha : a.isDisplay = true := by cases a <;> first | rfl | cases hr
    rw [values_next_of_isDisplay ha, values_next_of_isDisplay ha, h]
  | false =>
    have hyield := yield_perform h hh hr
    unfold next
    -- Both succeed or both fail.
    cases hm : m.perform a <;> cases hn : n.perform a <;> rw [hm, hn] at hyield
    · exact h
    · cases hyield
    · cases hyield
    · exact congrArg Prod.fst (Except.ok.inj hyield)

end Actions

/-! ## Rendering -/

/-- The errors that keep the entries from being shown, the bottom first. -/
def displayErrors (stack : Stack) : List (Option Error) :=
  stack.map Entry.displayError?

/-- The error of a step is that of its first part, or else that of the second. -/
theorem error?_bind {α β : Type} {x : Except Error α} {f : α → Except Error β} :
    error? (x >>= f) = match x with
      | .ok a => error? (f a)
      | .error ε => some ε := by
  cases x <;> rfl

/-- A map fails with the first error on its way. -/
theorem error?_mapM {α β : Type} (f : α → Except Error β) (l : List α) :
    error? (l.mapM f) = l.findSome? fun a => error? (f a) := by
  induction l with
  | nil => rfl
  | cons a l ih =>
    rw [List.mapM_cons, List.findSome?_cons, error?_bind]
    cases f a with
    | error ε => rfl
    | ok b =>
      show error? (l.mapM f >>= fun bs => pure (b :: bs)) = l.findSome? fun a => error? (f a)
      rw [error?_bind, ← ih]
      cases l.mapM f <;> rfl

/-- An entry fails to be shown in a radix with its display error. -/
theorem error?_renderEntry (m : Calculator) (entry : Entry) (shown : Radix) :
    error? (m.renderEntry entry shown) = entry.displayError? := by
  unfold renderEntry Entry.displayError?
  cases entry.approx with
  | false => rfl
  | true =>
    rw [if_pos rfl, if_pos rfl]
    cases h : entry.expr.approximate with
    | ok e =>
      have hrender : Display.render shown (.approx m.config.precision) entry.expr =
          .ok (Display.write shown (.approx m.config.precision) (Display.layout true e)) := by
        unfold Display.render Display.pieces
        rw [h]
        rfl
      rw [hrender]
      rfl
    | error ε =>
      have hrender : Display.render shown (.approx m.config.precision) entry.expr = .error ε := by
        unfold Display.render Display.pieces
        rw [h]
        rfl
      have hfilter : (some ε).filter (!·.isReportable) = if ε.isReportable =
          true then none else some ε := by
        cases hε : ε.isReportable <;> simp [Option.filter, hε]
      -- The exact form stands in for the approximation if the error is a reported one.
      rw [hrender, error?, hfilter]
      dsimp only
      split_ifs <;> rfl

/-- An entry fails to be shown with its display error. -/
theorem error?_display (m : Calculator) (entry : Entry) (active : Radix) :
    error? (m.display entry active) = entry.displayError? := by
  rw [← error?_renderEntry m entry (entry.radix.getD active)]
  unfold display
  dsimp only
  cases m.renderEntry entry (entry.radix.getD active) <;> rfl

/-- Where there is an entry at the index and the radix is one, rendering fails with the display
error of the entry. -/
theorem error?_render (m : Calculator) (index : Option Int) (radix : Setting) :
    error? (m.render index radix) =
      match (m.place? (index.getD m.target)).bind ((displayErrors m.stack)[·]?) with
      | none => some (.noEntry (index.getD m.target))
      | some shown => (error? (Input.inputRadix m.config radix)).or shown := by
  unfold render
  dsimp only
  generalize index.getD m.target = index
  cases m.place? index with
  | none => rfl
  | some place =>
    simp only [Option.bind_some, displayErrors, List.getElem?_map]
    cases m.stack[place]? with
    | none => rfl
    | some entry =>
      dsimp only [Option.map_some]
      rw [error?_bind]
      cases Input.inputRadix m.config radix with
      | error ε => rfl
      | ok active =>
        dsimp only
        rw [error?_bind, ← error?_display m entry active]
        cases m.display entry active <;> rfl

/-- Rendering the stack fails with the first display error of its entries if the radix is one. -/
theorem error?_renderStack (m : Calculator) (radix : Setting) :
    error? (m.renderStack radix) =
      (displayErrors m.stack).findSome? ((error? (Input.inputRadix m.config radix)).or ·) := by
  have hdisplay (entry : Entry) :
      error? (do m.display entry (← Input.inputRadix m.config radix)) =
        (error? (Input.inputRadix m.config radix)).or entry.displayError? := by
    rw [error?_bind]
    cases Input.inputRadix m.config radix with
    | error ε => rfl
    | ok active => exact error?_display m entry active
  have hmapM :=
    error?_mapM (fun entry => do m.display entry (← Input.inputRadix m.config radix)) m.stack
  simp only [hdisplay] at hmapM
  rw [displayErrors, List.findSome?_map]
  unfold renderStack
  rw [error?_bind]
  cases hm : m.stack.mapM fun entry => do m.display entry (← Input.inputRadix m.config radix) with
  | ok shown => rw [hm] at hmapM; exact hmapM
  | error ε => rw [hm] at hmapM; exact hmapM

/-- Where the entries have the same display errors, a rendering fails alike. -/
theorem error?_rendering (h : m.values = n.values)
    (hd : displayErrors m.stack = displayErrors n.stack) (hr : a.isRendering = true) :
    error? (m.perform a) = error? (n.perform a) := by
  have hradix : m.config.radix = n.config.radix := congrArg Values.radix h
  have hinput
      (radix : Setting) : Input.inputRadix m.config radix = Input.inputRadix n.config radix := by
    unfold Input.inputRadix
    rw [hradix]
  cases a with
  | render index radix =>
    show error? (m.render index radix) = error? (n.render index radix)
    rw [error?_render, error?_render, target_of_values h, place?_of_values h, hd, hinput]
  | renderStack radix =>
    show error? (m.renderStack radix) = error? (n.renderStack radix)
    rw [error?_renderStack, error?_renderStack, hd, hinput]
  | _ => cases hr

/-! ## Lines -/

/-- No lexeme moves through the history. -/
def IsForward (ls : List Lexeme) : Prop :=
  ∀ l ∈ ls, ∀ a, actionOf? l = some a → a.isHistory = false

/-- No lexeme stands for a rendering. -/
theorem isRendering_of_actionOf? {l : Lexeme} (hl : actionOf? l = some a) :
    a.isRendering = false := by
  cases l with
  | name s | operator s =>
    unfold actionOf? at hl
    dsimp only at hl
    split at hl
    · obtain rfl := Option.some.inj hl
      rename_i command _
      cases command <;> rfl
    · split at hl <;> (obtain rfl := Option.some.inj hl; rfl)
  | quoted text inner | number text => obtain rfl := Option.some.inj hl; rfl
  | space text => cases hl

/-- Lexemes lead to the same values and end alike. -/
theorem feedAll_of_values {ls : List Lexeme} (h : m.values = n.values) (hls : IsForward ls)
    (stop : Option Error) :
    (m.feedAll stop ls).calculator.values = (n.feedAll stop ls).calculator.values ∧
      (m.feedAll stop ls).error? = (n.feedAll stop ls).error? := by
  induction ls generalizing m n with
  | nil => exact ⟨h, rfl⟩
  | cons l ls ih =>
    have hrest : IsForward ls := fun l' hl' => hls l' (List.mem_cons_of_mem _ hl')
    unfold feedAll
    cases hl : actionOf? l with
    | none => exact ih h hrest
    | some a =>
      have hyield := yield_perform h (hls l List.mem_cons_self a hl) (isRendering_of_actionOf? hl)
      dsimp only
      -- Both go on or both stop at this lexeme.
      cases hm : m.perform a <;> cases hn : n.perform a <;> rw [hm, hn] at hyield
      · exact ⟨h, congrArg error? hyield⟩
      · cases hyield
      · cases hyield
      · exact ih (congrArg Prod.fst (Except.ok.inj hyield)) hrest

end Calculator

/-! ## Approximations that break off -/

/-- The logarithm of one number to another breaks off where that of the base is zero as a machine
number. -/
theorem Canonical.log_eq_machineDivision {x b : Rat} (hx : 0 < x) (hx1 : x ≠ 1) (hb : 0 < b)
    (hb1 : b ≠ 1) (hne : x ≠ b) (hc : Logarithm.candidate? x b = none) :
    Canonical.log (.num x) (.num b) = .error .machineDivision := by
  have hbase : Canonical.checkBase (.num b) = .ok () := by
    rw [Canonical.checkBase, if_neg (not_le.mpr hb), if_neg hb1]
  have hoperand : Canonical.checkOperand (.num x) = .ok () := by
    rw [Canonical.checkOperand, if_neg (not_le.mpr hx)]
  have hexponent : Canonical.exponentOf? (.num x) (.num b) = none := by
    have hsame : (Expr.num x).same (.num b) = false := by
      rw [Bool.eq_false_iff, ne_eq, Expr.same_iff]
      simp [Expr.key, hne]
    simp [Canonical.exponentOf?, Expr.isOne, hx1, hsame]
  unfold Canonical.log
  rw [hbase, hoperand, hexponent]
  show Canonical.numberLog x b = _
  rw [Canonical.numberLog, hc]

/-- A logarithm of `π` stays as it is. -/
theorem Expr.simplify_log_const {b : Rat} (hb : 0 < b) (hb1 : b ≠ 1) :
    (Expr.log (.const .pi) (.num b)).simplify = .ok (.log (.const .pi) (.num b)) := by
  have hbase : Canonical.checkBase (.num b) = .ok () := by
    rw [Canonical.checkBase, if_neg (not_le.mpr hb), if_neg hb1]
  show Canonical.log (.const .pi) (.num b) = _
  unfold Canonical.log
  rw [hbase]
  rfl

/-- The logarithm of `π` cannot be shown approximately if that of its base is zero as a machine
number. -/
theorem Entry.displayError?_log {b : Rat} (hb : 0 < b) (hb1 : b ≠ 1) (hne : Constant.pi.value ≠ b)
    (hc : Logarithm.candidate? Constant.pi.value b = none) :
    ({ expr := .log (.const .pi) (.num b), approx := true } : Entry).displayError? =
      some .machineDivision := by
  have hlog := Canonical.log_eq_machineDivision (by decide +kernel : 0 < Constant.pi.value)
    (by decide +kernel) hb hb1 hne hc
  have happrox : (Expr.log (.const .pi) (.num b)).approximate = .error .machineDivision := by
    show Approximation.log (.num Constant.pi.value) (.num b) = _
    unfold Approximation.log
    have hsimplify : (Expr.log (.num Constant.pi.value) (.num b)).simplify =
        .error .machineDivision := hlog
    rw [hsimplify]
    rfl
  unfold Entry.displayError?
  rw [if_pos rfl, happrox]
  rfl

/-! ## Two runs -/

namespace Registers

open Calculator (displayErrors IsForward registers next)
open Procedure (perform feedLine)

variable {r s : Registers} {m n : Calculator} {a : Action}

/-- What a procedure answers or fails with. -/
def result {α : Type} (p : Procedure α) (r : Registers) : Except Error α :=
  match p.run r with
  | .ok x _ => .ok x
  | .error ε _ => .error ε

/-- The registers of two runs from one fresh calculator that differ by actions for display alone,
inserted in the second one. Nothing is undone or redone in either. -/
inductive Twins : Registers → Registers → Prop where
  | fresh (config : Config) : Twins { config } { config }
  | action {r s : Registers} (h : Twins r s) (a : Action) (ha : a.isHistory = false) :
      Twins (r.after (perform a)) (s.after (perform a))
  | line {r s : Registers} (h : Twins r s) (R : Radix) (line : String)
      (hl : IsForward (lex R line).1) :
      Twins (r.after (feedLine R line)) (s.after (feedLine R line))
  | extra {r s : Registers} (h : Twins r s) (a : Action) (ha : a.isDisplay = true) :
      Twins r (s.after (perform a))

/-- The registers hold the same values, and actions and lines without undoing and redoing answer or
fail alike with both. -/
structure SameValues (r s : Registers) : Prop where
  exprs : r.stack.map (·.expr) = s.stack.map (·.expr)
  selection : r.selection = s.selection
  /-- Actions that are no renderings answer or fail alike. -/
  action : ∀ a, a.isHistory = false → a.isRendering = false →
    r.result (perform a) = s.result (perform a)
  /-- Lines end alike. -/
  line : ∀ R line, IsForward (lex R line).1 →
    r.result (feedLine R line) = s.result (feedLine R line)
  /-- Renderings fail alike where the same approximations break off. -/
  rendering : ∀ a, a.isRendering = true → displayErrors r.stack = displayErrors s.stack →
    error? (r.result (perform a)) = error? (s.result (perform a))

/-- What an action answers or fails with in place. -/
theorem result_perform (hm : m.SelectsEntry) (a : Action) :
    m.registers.result (perform a) = (m.perform a).map Outcome.answer := by
  unfold result
  rw [Procedure.run_perform hm]
  unfold Calculator.ending
  cases m.perform a <;> rfl

/-- How a line ends in place. -/
theorem result_feedLine (hm : m.SelectsEntry) (R : Radix) (line : String) :
    m.registers.result (feedLine R line) = (m.feedLine R line).error?.elim (.ok ()) .error := by
  unfold result
  rw [Procedure.run_feedLine hm]
  unfold Procedure.lineEnding
  cases (m.feedLine R line).error? <;> rfl

/-- Leaving out all but the answer keeps the error. -/
theorem error?_answer (x : Except Error Outcome) : error? (x.map Outcome.answer) = error? x := by
  cases x <;> rfl

/-- The registers of twins are those of states of the same values. -/
theorem Twins.exists_calculators (h : Twins r s) :
    ∃ m n : Calculator, m.IsConsistent ∧ n.IsConsistent ∧ m.registers = r ∧ n.registers = s ∧
      m.values = n.values := by
  induction h with
  | fresh config =>
    have hfresh := Calculator.isConsistent_fresh config
    exact ⟨{ config }, { config }, hfresh, hfresh, rfl, rfl, rfl⟩
  | action _ a ha ih =>
    obtain ⟨m, n, hm, hn, rfl, rfl, hv⟩ := ih
    exact ⟨m.next a, n.next a, Calculator.isConsistent_next hm a, Calculator.isConsistent_next hn a,
      (after_perform hm.selectsEntry a).symm, (after_perform hn.selectsEntry a).symm,
      Calculator.values_next_of_values hv ha⟩
  | line _ R line hl ih =>
    obtain ⟨m, n, hm, hn, rfl, rfl, hv⟩ := ih
    exact ⟨(m.feedLine R line).calculator, (n.feedLine R line).calculator,
      Calculator.isConsistent_feedLine hm R line, Calculator.isConsistent_feedLine hn R line,
      (after_feedLine hm.selectsEntry R line).symm, (after_feedLine hn.selectsEntry R line).symm,
      (Calculator.feedAll_of_values hv hl _).1⟩
  | extra _ a ha ih =>
    obtain ⟨m, n, hm, hn, rfl, rfl, hv⟩ := ih
    exact ⟨m,
      n.next a, hm, Calculator.isConsistent_next hn a, rfl, (after_perform hn.selectsEntry a).symm,
      hv.trans (Calculator.values_next_of_isDisplay ha).symm⟩

/-- Twins hold the same values, and all that follows ends alike, but for renderings of
approximations that break off. -/
theorem sameValues_of_twins (h : Twins r s) : SameValues r s := by
  obtain ⟨m, n, hm, hn, rfl, rfl, hv⟩ := h.exists_calculators
  exact
    { exprs := Calculator.exprs_of_values hv
      selection := congrArg (Option.map Nat.cast) (Calculator.selection_of_values hv)
      action := by
        intro a hh hr
        have hanswer (x : Except Error Outcome) :
            (Calculator.yield x).map Prod.snd = x.map Outcome.answer := by
          cases x <;> rfl
        rw [result_perform hm.selectsEntry, result_perform hn.selectsEntry, ← hanswer, ← hanswer,
          Calculator.yield_perform hv hh hr]
      line := by
        intro R line hl
        rw [result_feedLine hm.selectsEntry, result_feedLine hn.selectsEntry, Calculator.feedLine,
          Calculator.feedLine, (Calculator.feedAll_of_values hv hl _).2]
      rendering := by
        intro a hr hd
        rw [result_perform hm.selectsEntry, result_perform hn.selectsEntry, error?_answer,
          error?_answer]
        exact Calculator.error?_rendering hv hd hr }

/-- A copy of an entry that has been switched to approximate display holds the same values as a copy
of one that has not. -/
theorem sameValues_toggle_dup :
    let pushed := ({ config := {} } : Registers).after (perform (.push (.var "x") false .absent))
    let toggled := pushed.after (perform (.toggle none))
    Twins (pushed.after (perform .dup)) (toggled.after (perform .dup)) ∧
      SameValues (pushed.after (perform .dup)) (toggled.after (perform .dup)) := by
  intro pushed toggled
  have hpushed : Twins pushed pushed := .action (.fresh {}) _ rfl
  have htwins : Twins (pushed.after (perform .dup)) (toggled.after (perform .dup)) :=
    .action (.extra hpushed (.toggle none) rfl) .dup rfl
  exact ⟨htwins, sameValues_of_twins htwins⟩

/-- Switched to approximate display, the logarithm of `π` to a base whose own logarithm is zero as a
machine number cannot be rendered. In its exact form it can. -/
theorem rendering_log {b : Rat} (hb : 0 < b) (hb1 : b ≠ 1)
    (hne : Constant.pi.value ≠ b) (hc : Logarithm.candidate? Constant.pi.value b = none) :
    let pushed := ({ config := {} } : Registers).after
      (perform (.push (.log (.const .pi) (.num b)) false .absent))
    let toggled := pushed.after (perform (.toggle none))
    Twins pushed toggled ∧
      error? (pushed.result (perform (.render none .absent))) = none ∧
      error? (toggled.result (perform (.render none .absent))) = some .machineDivision := by
  intro pushed toggled
  let entry : Entry := { expr := .log (.const .pi) (.num b) }
  let m : Calculator := (({} : Calculator).pushEntry entry).calculator
  let n : Calculator := (m.toggle none).calculator
  have hm : m.SelectsEntry := fun i hi => by cases hi
  have hn : n.SelectsEntry := fun i hi => by cases hi
  have hpushed : pushed = m.registers := by
    have hpush : ({} : Calculator).perform (.push (.log (.const .pi) (.num b)) false .absent) =
        .ok (({} : Calculator).pushEntry entry) := by
      show Calculator.push {} _ false .absent = _
      rw [Calculator.push, Expr.simplify_log_const hb hb1]
      rfl
    show ({} : Calculator).registers.after _ = _
    rw [after_perform (Calculator.isConsistent_fresh {}).selectsEntry, next, hpush]
  have htoggled : toggled = n.registers := by
    show pushed.after _ = _
    rw [hpushed, after_perform hm]
    rfl
  have htwins : Twins pushed toggled := .extra (.action (.fresh {}) _ rfl) _ rfl
  refine ⟨htwins, ?_, ?_⟩
  · rw [hpushed, result_perform hm, error?_answer]
    exact Calculator.error?_render m none .absent
  · rw [htoggled, result_perform hn, error?_answer]
    refine (Calculator.error?_render n none .absent).trans ?_
    exact Entry.displayError?_log hb hb1 hne hc
end Registers
end StackAlgebra
