import StackAlgebra.Proofs.Calculator.UndoRedo
import StackAlgebra.Proofs.NormalForm.Comparable

/-!
# Applying operators

An operator takes the entries from the target down, as many as it has operands, and its result takes
their place: the stack is cut into what is below the operands, the operands and what is above, and
the outer two stay (`Registers.Replaces`). Where there are fewer entries than operands this is the
failure, and there is no other of its kind: what an operator itself can fail for lies in its
operands (`Operator.ordersIf_evaluate`). The whole of it is
`Registers.appliesOperators_of_reachable`.
-/

namespace StackAlgebra

/-! ## Operators -/

namespace Operator

open Canonical (OrdersIf ordersIf_error)

variable {op : Operator} {name : String} {es : List Expr}

/-- Operators that take no measure do not look at one. -/
theorem evaluate_of_not_takesMeasure (h : op.takesMeasure = false) (measure measure' : String)
    (es : List Expr) :
    op.evaluate measure es = op.evaluate measure' es := by
  cases op with
  | angle f => cases h
  | _ => rcases es with _ | ⟨x, _ | ⟨y, _ | _⟩⟩ <;> rfl

/-- An operator that is called with a measure only where it takes one is evaluated with it. -/
theorem call_eq_evaluate (h : find? name = some op) (measure : String) (es : List Expr) :
    call name (if op.takesMeasure then some measure else none) es = op.evaluate measure es := by
  unfold call
  rw [h]
  dsimp only
  cases htakes : op.takesMeasure with
  | true => rfl
  | false => exact evaluate_of_not_takesMeasure htakes _ _ es

/-- An operator with all its operands fails only for what is computed or, where they have no
measures, for want of an order. -/
theorem ordersIf_evaluate (measure : String) (h : es.length = op.arity) :
    OrdersIf (∀ e ∈ es, e.IsMeasured) (op.evaluate measure es) := by
  -- What an operator builds from operands with measures has its measures.
  have built {e : Expr} (he : (∀ e ∈ es, e.IsMeasured) → e.IsMeasured) :
      OrdersIf (∀ e ∈ es, e.IsMeasured) e.simplify := e.ordersIf_simplify.mono he
  cases op with
  | unary f =>
    obtain ⟨x, rfl⟩ := List.length_eq_one_iff.mp h
    exact built fun hes => by simpa using hes
  | angle f =>
    obtain ⟨x, rfl⟩ := List.length_eq_one_iff.mp h
    exact built fun hes => by simpa using hes
  | div =>
    obtain ⟨x, y, rfl⟩ := List.length_eq_two.mp h
    show OrdersIf _ (if y.isZero then .error .divisionByZero else _)
    split_ifs
    · exact ordersIf_error rfl
    · exact built fun hes => by simpa using hes
  | log =>
    obtain ⟨b, x, rfl⟩ := List.length_eq_two.mp h
    exact built fun hes => by simpa [and_comm] using hes
  | _ =>
    obtain ⟨x, y, rfl⟩ := List.length_eq_two.mp h
    exact built fun hes => by simpa using hes

/-- An operator with all its operands does not fail for too few entries. -/
theorem kind_ne_stackUnderflow {measure : String} {ε : Error} (h : es.length = op.arity)
    (hε : op.evaluate measure es = .error ε) : ε.kind ≠ .stackUnderflow := by
  intro hkind
  rcases ordersIf_evaluate measure h ε hε with hvalue | ⟨rfl, -⟩
  · unfold Error.isOfValue at hvalue
    rw [hkind] at hvalue
    cases hvalue
  · cases hkind

end Operator

/-! ## States -/

namespace Calculator

variable {m : Calculator} {name : String} {op : Operator}

/-- The entry for what an operator makes of operands: approximate if any of them is, in the radix of
the deepest. -/
def resultEntry (operands : Stack) (e : Expr) : Entry :=
  { expr := e, approx := operands.any (·.approx), radix := operands.head?.bind (·.radix) }

/-- A name that no operator has is refused. -/
theorem apply_of_unknown (h : Operator.find? name = none) :
    m.apply name = .error (.noOperator name) := by
  unfold apply
  rw [h]

/-- An operator that takes more entries than there are is refused. -/
theorem apply_of_lt (h : Operator.find? name = some op) (hlt : m.target + 1 < op.arity) :
    m.apply name = .error (.tooFewEntries name op.arity) := by
  have harity := Procedure.arity_pos op
  have hsize : (m.target + 1).toNat < op.arity := by omega
  unfold apply
  rw [h]
  exact if_pos hsize

/-- An operator with enough entries replaces its operands by its result. -/
theorem apply_of_le (hm : m.SelectsEntry) (h : Operator.find? name = some op)
    (hle : op.arity ≤ m.target + 1) :
    ∃ below operands above : Stack, m.stack = below ++ operands ++ above ∧
    operands.length = op.arity ∧
      (below.length : ℤ) = m.target - op.arity + 1 ∧
      m.apply name = do
        let e ← op.evaluate m.config.angle.name (operands.map (·.expr))
        return {
          calculator := m.commit (below ++ resultEntry operands e :: above)
            (m.selection.map fun _ => below.length)
          notes := [.applied name op.arity below.length] } := by
  have harity := Procedure.arity_pos op
  have hlt : m.target < m.stack.length := by
    rcases target_cases hm with ⟨-, htarget⟩ | ⟨place, hplace, htarget⟩ <;> omega
  -- The deepest operand is at `low`, and the target is the last one.
  obtain ⟨low, hlow⟩ : ∃ low : ℕ, (low : ℤ) = m.target - op.arity + 1 :=
    ⟨(m.target - op.arity + 1).toNat, by omega⟩
  have hbelow : (m.stack.take low).length = low := by rw [List.length_take]; omega
  refine ⟨m.stack.take low, m.operands low op.arity, m.stack.drop (low + op.arity), ?_, ?_,
    by rw [hbelow, hlow], ?_⟩
  · rw [operands, List.append_assoc, ← List.drop_drop, List.take_append_drop, List.take_append_drop]
  · rw [operands, List.length_take, List.length_drop]
    omega
  · have hsize : ¬ (m.target + 1).toNat < op.arity := by omega
    have heq : (m.target + 1).toNat - op.arity = low := by omega
    unfold apply
    rw [h, hbelow]
    dsimp only
    rw [if_neg hsize, heq]
    rfl

end Calculator

/-! ## Registers -/

namespace Registers

open Calculator (registers_config registers_stack registers_target resultEntry)
open Procedure (perform run_perform)

variable {r s : Registers} {m : Calculator} {name : String} {op : Operator}

/-- The entries `operands` between `below` and `above` are replaced by a single one with the
expression `e`. -/
structure Replaces (r s : Registers) (below operands above : Stack) (e : Expr) : Prop where
  /-- The result is approximate if any operand is, and is displayed in the radix of the deepest
  one. -/
  stack : ∃ result : Entry, s.stack = below ++ result :: above ∧ result.expr = e ∧
    (result.approx = true ↔ ∃ entry ∈ operands, entry.approx = true) ∧
    ∀ deepest, operands.head? = some deepest → result.radix = deepest.radix
  size : s.stack.length + operands.length = r.stack.length + 1
  /-- A selection moves to the result. -/
  selection : s.selection = r.selection.map fun _ => (below.length : ℤ)
  config : s.config = r.config
  commits : r.Commits s

/-- What applying an operator by its name does from these registers on. -/
structure AppliesOperator (r : Registers) (name : String) : Prop where
  unknown : Operator.find? name = none → (perform (.apply name)).run r = .error (.noOperator name) r
  /-- Only where the entries do not suffice the stack underflows. -/
  underflow : ∀ op, Operator.find? name = some op →
    ((∃ ε s, (perform (.apply name)).run r = .error ε s ∧ ε.kind = .stackUnderflow) ↔
      r.target + 1 < op.arity)
  tooFew : ∀ op, Operator.find? name = some op → r.target + 1 < op.arity →
    (perform (.apply name)).run r = .error (.tooFewEntries name op.arity) r
  /-- Else the operator is called with the operands, the deepest first, and fails or has a
  result. -/
  enough : ∀ op, Operator.find? name = some op → op.arity ≤ r.target + 1 →
    ∃ below operands above : Stack, r.stack = below ++ operands ++ above ∧
    operands.length = op.arity ∧
      (below.length : ℤ) = r.target - op.arity + 1 ∧
      match Operator.call name (if op.takesMeasure then some r.config.angle.name else none)
        (operands.map (·.expr)) with
      | .error ε => (perform (.apply name)).run r = .error ε r
      | .ok e =>
        ∃ s, (perform (.apply name)).run r = .ok .nothing s ∧ r.Replaces s below operands above e

/-- Committing the operands' result in their place replaces them. -/
theorem replaces_commit {below operands above : Stack}
    (hstack : m.stack = below ++ operands ++ above) (e : Expr) :
    m.registers.Replaces (m.commit (below ++ resultEntry operands e :: above)
      (m.selection.map fun _ => below.length)).registers below operands above e where
  stack := by
    refine ⟨_, rfl, rfl, List.any_eq_true, fun deepest hdeepest => ?_⟩
    rw [resultEntry, hdeepest, Option.bind_some]
  size := by
    show (below ++ _ :: above).length + operands.length = m.stack.length + 1
    rw [hstack]
    simp only [List.length_append, List.length_cons]
    omega
  selection := by
    show (m.selection.map fun _ => below.length).map Nat.cast = (m.selection.map Nat.cast).map _
    rw [Option.map_map, Option.map_map]
    rfl
  config := rfl
  commits := commits_commit m _ _

/-- With enough entries an operator is called, and fails or replaces its operands. -/
theorem run_apply_of_le (hm : m.SelectsEntry) (h : Operator.find? name = some op)
    (hle : op.arity ≤ m.target + 1) :
    ∃ below operands above : Stack, m.stack = below ++ operands ++ above ∧
    operands.length = op.arity ∧
      (below.length : ℤ) = m.target - op.arity + 1 ∧
      match op.evaluate m.config.angle.name (operands.map (·.expr)) with
      | .error ε => (perform (.apply name)).run m.registers = .error ε m.registers
      | .ok e => ∃ s, (perform (.apply name)).run m.registers = .ok .nothing s ∧
        m.registers.Replaces s below operands above e := by
  obtain ⟨below, operands, above, hstack, hlength, hbelow, happly⟩ :=
    Calculator.apply_of_le hm h hle
  have hrun : (perform (.apply name)).run m.registers = m.ending (m.apply name) :=
    run_perform hm (.apply name)
  refine ⟨below, operands, above, hstack, hlength, hbelow, ?_⟩
  rw [hrun, happly]
  cases op.evaluate m.config.angle.name (operands.map (·.expr)) with
  | error ε => rfl
  | ok e => exact ⟨_, rfl, replaces_commit hstack e⟩

/-- Where the stack underflows there are fewer entries than operands. -/
theorem target_lt_of_stackUnderflow
    {ε : Error} (hm : m.SelectsEntry) (h : Operator.find? name = some op)
    (hfail : (perform (.apply name)).run m.registers = .error ε s)
    (hkind : ε.kind = .stackUnderflow) :
    m.target + 1 < op.arity := by
  by_contra hle
  -- With enough entries it is the operator that fails, and not for too few.
  obtain ⟨_, operands, _, _, hlength, _, hends⟩ := run_apply_of_le hm h (by omega)
  cases hevaluate : op.evaluate m.config.angle.name (operands.map (·.expr)) with
  | error δ =>
    rw [hevaluate, hfail] at hends
    cases hends
    exact Operator.kind_ne_stackUnderflow (by rw [List.length_map, hlength]) hevaluate hkind
  | ok e =>
    rw [hevaluate] at hends
    obtain ⟨u, hends, -⟩ := hends
    rw [hfail] at hends
    cases hends

/-- From reachable registers on, operators are applied to the entries from the target down. -/
theorem appliesOperators_of_reachable (h : r.Reachable) (name : String) :
    r.AppliesOperator name := by
  obtain ⟨m, hm, rfl⟩ := h.exists_calculator
  have hsel := hm.selectsEntry
  have hrun : (perform (.apply name)).run m.registers = m.ending (m.apply name) :=
    run_perform hsel (.apply name)
  have htooFew (op : Operator) (hop : Operator.find? name = some op)
      (hlt : m.target + 1 < op.arity) :
      (perform (.apply name)).run m.registers =
        .error (.tooFewEntries name op.arity) m.registers := by
    rw [hrun, Calculator.apply_of_lt hop hlt]
    rfl
  constructor
  · intro hop
    rw [hrun, Calculator.apply_of_unknown hop]
    rfl
  · intro op hop
    rw [registers_target]
    constructor
    · rintro ⟨ε, s, hfail, hkind⟩
      exact target_lt_of_stackUnderflow hsel hop hfail hkind
    · exact fun hlt => ⟨_, _, htooFew op hop hlt, rfl⟩
  · rw [registers_target]
    exact htooFew
  · intro op hop hle
    rw [registers_target] at hle
    rw [registers_config, registers_stack, registers_target]
    obtain ⟨below, operands, above, hstack, hlength, hbelow, hends⟩ := run_apply_of_le hsel hop hle
    refine ⟨below, operands, above, hstack, hlength, hbelow, ?_⟩
    rwa [Operator.call_eq_evaluate hop]

/-- Of four variables the third is selected: it is added to the one below, which is approximate, and
the selection stays on the sum. -/
theorem appliesOperators_selected :
    let pushed := afterAll [.push (.var "x") false .absent, .push (.var "y") true (.integer 16),
      .push (.var "z") false .absent, .push (.var "w") false .absent,
      .select (some 2)] { config := {} }
    let added := pushed.after (perform (.apply "+"))
    pushed.Reachable ∧ pushed.AppliesOperator "+" ∧ pushed.selection = some 2 ∧
      added.selection = some 1 ∧
      added.stack.map (fun entry => (entry.expr, entry.approx, entry.radix.map (·.val))) =
        [(.var "x", false, none), (.sum [.var "y", .var "z"], true, some 16),
          (.var "w", false, none)] := by
  intro pushed added
  have h : pushed.Reachable := (Reachable.fresh {}).afterAll _
  exact ⟨h, appliesOperators_of_reachable h "+", rfl, by with_unfolding_all rfl,
    by with_unfolding_all rfl⟩

end Registers
end StackAlgebra
