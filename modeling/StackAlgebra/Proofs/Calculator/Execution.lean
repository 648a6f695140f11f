import StackAlgebra.Proofs.Calculator.Registers
import StackAlgebra.Proofs.Calculator.Edit

/-!
# Stack operations in place

A procedure on the registers of a calculator ends as the operation does that it carries out: it
answers alike and leaves the registers of the new state, or fails alike and leaves the registers as
they were (`Calculator.ending`). Where it takes the target at its word, this needs the selection to
be that of an entry. Here are the operations on the stack.
-/

namespace StackAlgebra

/-- A natural index counts from the bottom. -/
theorem memberAt?_natCast {α : Type} (l : List α) (n : Nat) : memberAt? l (n : Int) = l[n]? := by
  have h : ¬ (n : Int) < 0 := Int.not_lt.mpr (Int.natCast_nonneg n)
  simp only [memberAt?, if_neg h, Int.toNat_natCast]

namespace Calculator

variable {m : Calculator} {place : Nat}

/-- The state in registers. -/
def registers (m : Calculator) : Registers where
  config := m.config
  stack := m.stack
  selection := m.selection.map Nat.cast
  snapshots := m.history.snapshots
  cursor := m.history.cursor

/-- How a procedure on the registers ends that carries out an operation with the result `x`. -/
def ending (m : Calculator) (x : Except Error Outcome) : EStateM.Result Error Registers Answer :=
  match x with
  | .ok o => .ok o.answer o.calculator.registers
  | .error ε => .error ε m.registers

/-! ## Reading -/

/-- The registers hold the configuration of the machine. -/
@[simp] theorem registers_config (m : Calculator) : m.registers.config = m.config := rfl
/-- The registers hold the stack of the machine. -/
@[simp] theorem registers_stack (m : Calculator) : m.registers.stack = m.stack := rfl
/-- The registers hold the selection of the machine as an integer. -/
@[simp] theorem registers_selection (m : Calculator) :
    m.registers.selection = m.selection.map Nat.cast := rfl

/-- The target is the same. -/
@[simp] theorem registers_target (m : Calculator) : m.registers.target = m.target := by
  unfold Registers.target target
  rw [registers_selection]
  cases m.selection <;> rfl

/-- There is an entry at the places of entries. -/
theorem registers_hasEntry (m : Calculator) (index : Int) :
    m.registers.hasEntry index = (m.place? index).isSome := by
  unfold Registers.hasEntry place?
  rw [registers_stack]
  split_ifs with h
  · simp [h.1, h.2]
  · simpa using h

/-- The target is the place of an entry, or the stack is empty. -/
theorem target_cases (hm : m.SelectsEntry) :
    (m.stack = [] ∧ m.target = -1) ∨ ∃ place < m.stack.length, m.target = place := by
  unfold target
  cases hs : m.selection with
  | some i => exact .inr ⟨i, hm i hs, rfl⟩
  | none =>
    cases hstack : m.stack with
    | nil => exact .inl ⟨rfl, rfl⟩
    | cons entry rest => exact .inr ⟨rest.length, by simp, by simp⟩

/-- A place below the length is that of an entry. -/
theorem place?_of_lt (h : place < m.stack.length) : m.place? (place : Int) = some place := by
  unfold place?
  rw [if_pos ⟨Int.natCast_nonneg _, Int.ofNat_lt.mpr h⟩, Int.toNat_natCast]

/-- There is no entry below the bottom. -/
theorem place?_neg_one (m : Calculator) : m.place? (-1) = none :=
  if_neg fun h => absurd h.1 (by decide)

end Calculator

/-! ## Running -/

namespace Procedure

open Calculator

variable {α : Type} {m : Calculator} {place : Nat}

/-- A computation leaves the registers alone. -/
theorem run_compute (x : Except Error α) (r : Registers) :
    (compute x).run r = match x with
      | .ok a => .ok a r
      | .error ε => .error ε r := by
  cases x <;> rfl

/-- An answer is made from a result. -/
theorem run_map {β : Type} (f : α → β) (p : Procedure α) (r : Registers) :
    (f <$> p).run r = match p.run r with
      | .ok a s => .ok (f a) s
      | .error ε s => .error ε s := by
  rw [map_eq_pure_bind, EStateM.run_bind]
  cases p.run r <;> rfl

/-- An entry is read at its place. -/
theorem run_entryAt (h : place < m.stack.length) :
    (entryAt (place : Int)).run m.registers = .ok m.stack[place] m.registers := by
  simp [entryAt, EStateM.run_bind, memberAt?_natCast, List.getElem?_eq_getElem h, run_compute]

/-- A stack is committed, and recorded in the history. -/
theorem run_commit (m : Calculator) (stack : Stack) (selection : Option Nat) :
    (commit stack (selection.map Nat.cast)).run m.registers =
      .ok () (m.commit stack selection).registers := by
  -- What is kept of the snapshots is the past and the present.
  have hlen : ((m.history.past.length : Int) + 1).toNat =
      (m.history.past.reverse ++ [m.history.present]).length := by
    simp
  have htake : m.history.snapshots.take ((m.history.cursor : Int) + 1).toNat =
      m.history.past.reverse ++ [m.history.present] := by
    rw [History.snapshots, History.cursor, List.append_cons, hlen, List.take_left]
  have hrun : (commit stack (selection.map Nat.cast)).run m.registers =
      .ok () { m.registers with
        stack, selection := selection.map Nat.cast
        snapshots := m.history.snapshots.take ((m.history.cursor : Int) + 1).toNat ++ [stack]
        cursor := m.history.cursor + 1 } := rfl
  rw [hrun, htake]
  simp [Calculator.commit, registers, Calculator.stack, History.record, History.snapshots,
    History.cursor]

/-! ## Pushing -/

/-- An expression is pushed in canonical form. -/
theorem run_pushChecked (e : Expr) (approx : Bool) (radix : Option Radix) :
    (silently (pushChecked e approx radix)).run m.registers =
      m.ending (do return m.pushEntry { expr := ← e.simplify, approx, radix }) := by
  unfold silently pushChecked
  simp only [EStateM.run_bind, run_compute]
  cases e.simplify with
  | error ε => rfl
  | ok r =>
    simp only [EStateM.run_get, registers_stack, registers_selection, run_commit]
    rfl

/-- An expression is pushed once its radix is checked. -/
theorem run_push (e : Expr) (approx : Bool) (radix : Setting) :
    (silently (push e approx radix)).run m.registers = m.ending (m.push e approx radix) := by
  have hrun : silently (push e approx radix) =
      compute (Calculator.checkRadix radix) >>= fun R => silently (pushChecked e approx R) := by
    simp only [silently, push, bind_assoc]
  rw [hrun, EStateM.run_bind, run_compute, Calculator.push]
  cases Calculator.checkRadix radix with
  | error ε => rfl
  | ok R => exact run_pushChecked e approx R

/-- What a text writes is pushed. -/
theorem run_pushInput (text : String) (radix : Setting) :
    (silently (pushInput text radix)).run m.registers = m.ending (m.pushInput text radix) := by
  have hrun : silently (pushInput text radix) =
      get >>= fun r => compute (Input.readText r.config text radix) >>= fun x =>
        silently (pushChecked x.1 false x.2) := by
    simp only [silently, pushInput, bind_assoc]
  rw [hrun, EStateM.run_bind, EStateM.run_get]
  dsimp only
  rw [EStateM.run_bind, run_compute, Calculator.pushInput, registers_config]
  cases Input.readText m.config text radix with
  | error ε => rfl
  | ok x => exact run_pushChecked x.1 false x.2

/-- A variable is pushed. -/
theorem run_pushVariable (name : String) :
    (silently (pushVariable name)).run m.registers = m.ending (m.pushVariable name) := by
  have hrun : silently (pushVariable name) =
      compute (Expr.ofVariableName (String.ofList (Input.unescape name.toList))) >>= fun e =>
        silently (pushChecked e false none) := by
    simp only [silently, pushVariable, bind_assoc]
  rw [hrun, EStateM.run_bind, run_compute, Calculator.pushVariable]
  cases he : Expr.ofVariableName (String.ofList (Input.unescape name.toList)) with
  | error ε => rfl
  | ok e =>
    dsimp only
    rw [run_pushChecked, simplify_ofVariableName he]

/-! ## Operators -/

/-- Every operator takes an operand. -/
theorem arity_pos (op : Operator) : 0 < op.arity := by
  cases op <;> simp [Operator.arity]

/-- Entries are replaced by what an operator makes of them. -/
theorem run_operate {op : Operator} {low : Nat} (hplace : place < m.stack.length)
    (hlow : low + op.arity = place + 1) (notes : List Note) :
    (silently (operate op low place)).run m.registers =
      m.ending (do
        let entries := m.operands low op.arity
        let expr ← op.evaluate m.config.angle.name (entries.map (·.expr))
        let entry : Entry :=
          { expr, approx := entries.any (·.approx), radix := entries.head?.bind (·.radix) }
        return {
          calculator :=
            m.commit (m.replaceOperands low op.arity entry) (m.selection.map fun _ => low)
          notes }) := by
  have harity := arity_pos op
  have hlt : low < m.stack.length := by omega
  have hnat : ((place : Int) + 1).toNat = place + 1 := rfl
  have hoperands : (m.stack.take (place + 1)).drop low = m.operands low op.arity := by
    rw [List.drop_take, operands, ← hlow, Nat.add_sub_cancel_left]
  have hdeepest : (m.operands low op.arity).head? = some m.stack[low] := by
    rw [operands, List.head?_take, if_neg (Nat.ne_of_gt harity), List.head?_drop,
      List.getElem?_eq_getElem hlt]
  unfold silently operate
  simp only [EStateM.run_bind, EStateM.run_get, registers_stack, registers_config,
    Int.toNat_natCast, hnat, hoperands, run_compute]
  cases op.evaluate m.config.angle.name ((m.operands low op.arity).map (·.expr)) with
  | error ε => rfl
  | ok r =>
    have hselection : m.registers.selection.map (fun _ => (low : Int)) =
        (m.selection.map fun _ => low).map Nat.cast := by
      rw [registers_selection, Option.map_map, Option.map_map]
      rfl
    have hstack : m.stack.take low ++
        { expr := r, approx := (m.operands low op.arity).any (·.approx)
          radix := m.stack[low].radix } ::
        m.stack.drop (place + 1) = m.replaceOperands low op.arity
          { expr := r, approx := (m.operands low op.arity).any (·.approx)
            radix := (m.operands low op.arity).head?.bind (·.radix) } := by
      rw [hdeepest, replaceOperands, hlow]
      rfl
    simp only [run_entryAt hlt, hselection, hstack, run_commit]
    rfl

/-- An operator is applied. -/
theorem run_apply (hm : m.SelectsEntry) (name : String) :
    (silently (apply name)).run m.registers = m.ending (m.apply name) := by
  unfold apply Calculator.apply
  cases Operator.find? name with
  | none => rfl
  | some op =>
    have harity := arity_pos op
    by_cases hsize : (m.target + 1).toNat < op.arity
    · have hlow : m.target < 0 ∨ m.target - op.arity + 1 < 0 := by omega
      simp only [silently, EStateM.run_bind, run_compute, Option.elim_some, EStateM.run_get,
        registers_target, if_pos hsize, if_pos hlow]
      rfl
    · -- With enough operands the target is an entry, and so is the deepest operand.
      obtain ⟨-, htarget⟩ | ⟨place, hplace, htarget⟩ := target_cases hm
      · rw [htarget] at hsize
        exact absurd harity hsize
      · rw [htarget] at hsize
        have hdeepest : (place : Int) - op.arity + 1 = ((place + 1 - op.arity : Nat) : Int) := by
          omega
        have hlow : ¬ ((place : Int) < 0 ∨ ((place + 1 - op.arity : Nat) : Int) < 0) := by omega
        have hsum : place + 1 - op.arity + op.arity = place + 1 := by omega
        have hrun := run_operate hplace hsum [.applied name op.arity (place + 1 - op.arity)]
        simp only [silently, EStateM.run_bind, run_compute, Option.elim_some, EStateM.run_get,
          registers_target, htarget, hdeepest, if_neg hsize, if_neg hlow] at hrun ⊢
        exact hrun

/-! ## Stack words -/

/-- An index is that of an entry if it is a place below the length. -/
theorem hasEntry_iff {index : Int} :
    m.registers.hasEntry index = true ↔ ∃ place < m.stack.length, index = (place : Int) := by
  rw [Registers.hasEntry, Bool.and_eq_true, decide_eq_true_iff, decide_eq_true_iff, registers_stack]
  constructor
  · intro h
    exact ⟨index.toNat, by omega, by omega⟩
  · rintro ⟨place, hlt, rfl⟩
    omega

/-- The indices of a target are the places that it removes. -/
theorem mem_indices {target : DropTarget} {index : Int} :
    index ∈ m.registers.indices target ↔
      ∃ place ∈ (List.range m.stack.length).filter (m.removes target), index = (place : Int) := by
  have hnamed : ∀ place : Nat, index = place →
      (index ∈ m.registers.indices target ↔
        m.registers.hasEntry index = true ∧ m.removes target place = true) := by
    rintro place rfl
    cases target with
    | default =>
      rw [Registers.indices, List.mem_filter, List.mem_singleton, registers_target, removes,
        decide_eq_true_iff, and_comm]
      exact and_congr_right fun _ => eq_comm
    | index i =>
      rw [Registers.indices, List.mem_filter, List.mem_singleton, removes, decide_eq_true_iff,
        and_comm]
      exact and_congr_right fun _ => eq_comm
    | range first last =>
      have hrange : (∃ k < (last - first).toNat, first + (k : Int) = place) ↔
          first ≤ place ∧ (place : Int) < last := by
        constructor
        · rintro ⟨k, hk, hplace⟩
          omega
        · intro h
          exact ⟨(place - first).toNat, by omega, by omega⟩
      simp only [Registers.indices, List.mem_filter, List.mem_map, List.mem_range, removes,
        Bool.and_eq_true, decide_eq_true_iff, hrange, and_comm]
  constructor
  · intro h
    have hentry : m.registers.hasEntry index = true := by
      cases target <;> exact (List.mem_filter.mp h).2
    obtain ⟨place, hlt, rfl⟩ := hasEntry_iff.mp hentry
    exact ⟨place, List.mem_filter.mpr ⟨List.mem_range.mpr hlt, ((hnamed place rfl).mp h).2⟩, rfl⟩
  · rintro ⟨place, hplace, rfl⟩
    obtain ⟨hlt, hremoves⟩ := List.mem_filter.mp hplace
    exact (hnamed place rfl).mpr ⟨hasEntry_iff.mpr ⟨place, List.mem_range.mp hlt, rfl⟩, hremoves⟩


/-- Entries are dropped. -/
theorem run_drop (target : DropTarget) :
    (drop target).run m.registers = .ok () (m.drop target).calculator.registers := by
  unfold drop Calculator.drop
  simp only [EStateM.run_bind, EStateM.run_get]
  cases hremoved : (List.range m.stack.length).filter (m.removes target) with
  | nil =>
    have hnone : (m.registers.indices target).min? = none := by
      rw [List.min?_eq_none_iff, List.eq_nil_iff_forall_not_mem]
      intro index hindex
      obtain ⟨place, hplace, -⟩ := mem_indices.mp hindex
      rw [hremoved] at hplace
      cases hplace
    rw [hnone]
    rfl
  | cons lowest rest =>
    obtain ⟨hlt, hremoves, hfirst⟩ := removed_eq_cons hremoved
    have hlowest : (m.registers.indices target).min? = some (lowest : Int) := by
      refine List.min?_eq_some_iff.mpr ⟨mem_indices.mpr ⟨lowest, ?_, rfl⟩, fun index hindex => ?_⟩
      · rw [hremoved]
        exact List.mem_cons_self
      · obtain ⟨place, hplace, rfl⟩ := mem_indices.mp hindex
        have hremoves := (List.mem_filter.mp hplace).2
        by_contra hlow
        rw [hfirst place (by omega)] at hremoves
        cases hremoves
    have hkept :
        (m.registers.stack.zipIdx.filter fun x => (x.2 : Int) ∉ m.registers.indices target) =
          m.stack.zipIdx.filter fun x => !m.removes target x.2 := by
      refine List.filter_congr fun x hx => ?_
      have hplace : x.2 ∈ List.range m.stack.length :=
        List.mem_range.mpr (List.getElem?_eq_some_iff.mp (List.mem_zipIdx_iff_getElem?.mp hx)).1
      have hmem : (x.2 : Int) ∈ m.registers.indices target ↔ m.removes target x.2 = true := by
        rw [mem_indices]
        constructor
        · rintro ⟨place, h, heq⟩
          obtain rfl := Int.ofNat_inj.mp heq
          exact (List.mem_filter.mp h).2
        · intro h
          exact ⟨x.2, List.mem_filter.mpr ⟨hplace, h⟩, rfl⟩
      simp only [decide_not, hmem, Bool.decide_eq_true]
    have hselection : m.registers.selection.filter (· < (lowest : Int)) =
        (m.selection.filter (· < lowest)).map Nat.cast := by
      rw [registers_selection, Option.filter_map]
      congr 2
      funext i
      simp
    rw [hlowest]
    dsimp only
    rw [hkept, hselection, run_commit]

/-- What is below the selection is dropped. -/
theorem run_dropBelow :
    dropBelow.run m.registers = .ok () m.dropBelow.calculator.registers := by
  unfold dropBelow Calculator.dropBelow
  simp only [EStateM.run_bind, EStateM.run_get, registers_selection]
  cases m.selection with
  | none => rfl
  | some i => exact run_drop (.range 0 i)

/-- The entry at a place that is the target. -/
theorem targetEntry?_of_target (h : m.target = place) (hplace : place < m.stack.length) :
    m.targetEntry? = some (place, m.stack[place]) := by
  rw [Calculator.targetEntry?, h, place?_of_lt hplace, Option.bind_some,
    List.getElem?_eq_getElem hplace]
  rfl

/-- There is no target in an empty stack. -/
theorem targetEntry?_of_neg_one (h : m.target = -1) : m.targetEntry? = none := by
  rw [Calculator.targetEntry?, h, place?_neg_one]
  rfl

/-- The target entry is removed and answered. -/
theorem run_pop (hm : m.SelectsEntry) : (Answer.expr <$> pop).run m.registers = m.ending m.pop := by
  unfold pop Calculator.pop
  simp only [run_map, EStateM.run_bind, EStateM.run_get, registers_target]
  obtain ⟨-, htarget⟩ | ⟨place, hplace, htarget⟩ := target_cases hm
  · rw [htarget, targetEntry?_of_neg_one htarget]
    rfl
  · have hnonneg : ¬ (place : Int) < 0 := by omega
    rw [htarget, targetEntry?_of_target htarget hplace, if_neg hnonneg]
    simp only [EStateM.run_bind, run_entryAt hplace, run_drop]
    rfl

/-- The target entry is copied. -/
theorem run_dup (hm : m.SelectsEntry) : (silently dup).run m.registers = m.ending m.dup := by
  unfold silently dup Calculator.dup
  simp only [EStateM.run_bind, EStateM.run_get, registers_target]
  obtain ⟨-, htarget⟩ | ⟨place, hplace, htarget⟩ := target_cases hm
  · rw [htarget, targetEntry?_of_neg_one htarget]
    rfl
  · have hnonneg : ¬ (place : Int) < 0 := by omega
    rw [htarget, targetEntry?_of_target htarget hplace, if_neg hnonneg]
    simp only [EStateM.run_bind, run_entryAt hplace, registers_stack, registers_selection,
      run_commit]
    rfl

/-- Moving an entry one place down exchanges it with the one there. -/
theorem moved_succ_eq_set (stack : Stack) {below : Nat} (h : below + 1 < stack.length) :
    moved stack (below + 1) below =
      (stack.set below stack[below + 1]).set (below + 1) stack[below] := by
  rw [moved, List.getElem?_eq_getElem h]
  have herase : (stack.eraseIdx (below + 1)).length = stack.length - 1 :=
    List.length_eraseIdx_of_lt h
  refine List.ext_getElem ?_ fun k hk _ => ?_
  · rw [List.length_insertIdx_of_le_length (by omega), herase, List.length_set, List.length_set]
    omega
  · rw [List.getElem_insertIdx, List.getElem_set, List.getElem_set]
    rcases Nat.lt_trichotomy k below with hlt | rfl | hgt
    · rw [dif_pos hlt, List.getElem_eraseIdx_of_lt, if_neg (by omega), if_neg (by omega)]
      omega
    · rw [dif_neg (Nat.lt_irrefl _), dif_pos rfl, if_neg (by omega), if_pos rfl]
    · obtain ⟨j, rfl⟩ : ∃ j, k = below + 1 + j := ⟨k - (below + 1), by omega⟩
      rw [dif_neg (by omega), dif_neg (by omega), List.getElem_eraseIdx]
      cases j with
      | zero => simp
      | succ j =>
        rw [dif_neg (by omega), if_neg (by omega), if_neg (by omega)]
        rfl

/-- The target entry and the one below it are exchanged. -/
theorem run_swap (hm : m.SelectsEntry) : (silently swap).run m.registers = m.ending m.swap := by
  unfold silently swap Calculator.swap
  simp only [EStateM.run_bind, EStateM.run_get, registers_target]
  obtain ⟨-, htarget⟩ | ⟨place, hplace, htarget⟩ := target_cases hm
  · rw [htarget, place?_neg_one]
    rfl
  · rw [htarget, place?_of_lt hplace]
    cases place with
    | zero => rfl
    | succ below =>
      have hpos : ¬ ((below + 1 : Nat) : Int) < 1 := by omega
      have hbelow : ((below + 1 : Nat) : Int) - 1 = (below : Nat) := by omega
      rw [if_neg hpos, hbelow]
      simp only [EStateM.run_bind, run_entryAt hplace, run_entryAt (Nat.lt_of_succ_lt hplace),
        registers_stack, registers_selection, Int.toNat_natCast, ← moved_succ_eq_set m.stack hplace,
        run_commit]
      rfl

/-- All entries are removed. -/
theorem run_clear : clear.run m.registers = .ok () m.clear.calculator.registers := by
  unfold clear Calculator.clear
  simp only [EStateM.run_bind, EStateM.run_get]
  cases hstack : m.stack with
  | nil =>
    have hempty : m.registers.stack.isEmpty = true := List.isEmpty_iff.mpr hstack
    rw [if_pos hempty]
    rfl
  | cons entry rest =>
    have hempty : ¬ m.registers.stack.isEmpty = true := by
      rw [registers_stack, hstack]
      exact Bool.false_ne_true
    rw [if_neg hempty]
    exact run_commit m [] none

end Procedure
end StackAlgebra
