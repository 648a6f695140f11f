import StackAlgebra.Proofs.Calculator.UndoRedo

/-!
# Failures

Procedures write one register at a time, and what is written before a failure stays. All the same a
failed action leaves every register as it was (`Registers.perform_failed`), because whatever can
fail in it comes before the first write. A line is not undone as a whole: where it fails, the
registers are exactly those after the feedable lexemes before that place (`Registers.StopsAt`).
-/

namespace StackAlgebra

/-- Feedable lexemes stand for an action, all others for none. -/
theorem Calculator.isSome_actionOf? (l : Lexeme) : (actionOf? l).isSome = l.isFeedable := by
  cases l with
  | name s | operator s =>
    unfold actionOf?
    dsimp only
    split
    · rfl
    · split <;> rfl
  | _ => rfl

namespace Registers

open Calculator (registers actionOf? isSome_actionOf?)
open Procedure

variable {r s : Registers} {m : Calculator} {ε : Error} {a : Action} {l : Lexeme}
  {ls : List Lexeme} {stop : Option Error}

/-- A line that is carried out from `r` on fails with `s` in the registers: at a feedable lexeme, or
where lexing stops, when all feedable lexemes before have been carried out. -/
inductive StopsAt (r : Registers) (ls : List Lexeme) (stop : Option Error) (ε : Error)
    (s : Registers) :
    Prop where
  | lexeme (fed : List Lexeme) (l : Lexeme) (rest : List Lexeme) (hls : ls = fed ++ l :: rest)
      (hfed : (feedAll none (fed.filter Lexeme.isFeedable)).run r = .ok () s)
      (hl : l.isFeedable = true) (hfail : (feed l).run s = .error ε s)
  | lexing (hstop : stop = some ε)
      (hfed : (feedAll none (ls.filter Lexeme.isFeedable)).run r = .ok () s)

/-- A failed action leaves the registers as they were. -/
theorem perform_failed (hm : m.SelectsEntry) (h : (perform a).run m.registers = .error ε s) :
    s = m.registers := by
  rw [run_perform hm] at h
  unfold Calculator.ending at h
  cases hp : m.perform a with
  | error δ =>
    rw [hp] at h
    cases h
    rfl
  | ok o =>
    rw [hp] at h
    cases h

/-- A lexeme that is not feedable does nothing. -/
theorem run_feed_of_not_feedable (hl : l.isFeedable = false) (r : Registers) :
    (feed l).run r = .ok () r := by
  have hnone : actionOf? l = none := by
    rwa [← isSome_actionOf?, Option.isSome_eq_false_iff, Option.isNone_iff_eq_none] at hl
  unfold feed
  rw [hnone]
  rfl

/-- A lexeme is carried out in place as its action is. -/
theorem run_feed (hm : m.SelectsEntry) (l : Lexeme) :
    (∃ m', m'.SelectsEntry ∧ (feed l).run m.registers = .ok () (registers m')) ∨
      ∃ ε, (feed l).run m.registers = .error ε m.registers := by
  unfold feed
  cases actionOf? l with
  | none => exact .inl ⟨m, hm, rfl⟩
  | some a =>
    simp only [EStateM.run_bind, run_perform hm a]
    cases h : m.perform a with
    | error ε => exact .inr ⟨ε, rfl⟩
    | ok o => exact .inl ⟨o.calculator, Calculator.selectsEntry_perform hm h, rfl⟩

/-- A lexeme that is carried out comes before what stops the line. -/
theorem StopsAt.cons {r' : Registers} (h : StopsAt r' ls stop ε s)
    (hl : (feed l).run r = .ok () r') :
    StopsAt r (l :: ls) stop ε s := by
  have hfilter (fed : List Lexeme)
      (hfed : (feedAll none (fed.filter Lexeme.isFeedable)).run r' = .ok () s) :
      (feedAll none ((l :: fed).filter Lexeme.isFeedable)).run r = .ok () s := by
    cases hf : l.isFeedable with
    | true =>
      rw [List.filter_cons_of_pos hf, feedAll, EStateM.run_bind, hl]
      exact hfed
    | false =>
      rw [run_feed_of_not_feedable hf] at hl
      cases hl
      rwa [List.filter_cons_of_neg (Bool.not_eq_true _ ▸ hf)]
  cases h with
  | lexeme fed l' rest hls hfed hl' hfail =>
    exact .lexeme (l :: fed) l' rest (by rw [hls, List.cons_append]) (hfilter fed hfed) hl' hfail
  | lexing hstop hfed => exact .lexing hstop (hfilter ls hfed)

/-- Lexemes that are carried out leave the rest to do. -/
theorem run_feedAll_append {fed : List Lexeme}
    (hfed : (feedAll none (fed.filter Lexeme.isFeedable)).run r = .ok () s) (ls : List Lexeme) :
    (feedAll stop (fed ++ ls)).run r = (feedAll stop ls).run s := by
  induction fed generalizing r with
  | nil =>
    cases hfed
    rfl
  | cons l fed ih =>
    rw [List.cons_append, feedAll, EStateM.run_bind]
    cases hf : l.isFeedable with
    | true =>
      rw [List.filter_cons_of_pos hf, feedAll, EStateM.run_bind] at hfed
      cases hl : (feed l).run r with
      | error δ t =>
        rw [hl] at hfed
        cases hfed
      | ok _ t =>
        rw [hl] at hfed
        exact ih hfed
    | false =>
      rw [List.filter_cons_of_neg (Bool.not_eq_true _ ▸ hf)] at hfed
      rw [run_feed_of_not_feedable hf]
      exact ih hfed

/-- Lexemes fail exactly where they stop. -/
theorem run_feedAll_eq_error_iff (hm : m.SelectsEntry) :
    (feedAll stop ls).run m.registers = .error ε s ↔ StopsAt m.registers ls stop ε s := by
  constructor
  · intro h
    induction ls generalizing m with
    | nil =>
      cases stop with
      | none => cases h
      | some δ =>
        cases h
        exact .lexing rfl rfl
    | cons l ls ih =>
      rw [feedAll, EStateM.run_bind] at h
      rcases run_feed hm l with ⟨m', hm', hl⟩ | ⟨δ, hl⟩
      · rw [hl] at h
        exact (ih hm' h).cons hl
      · rw [hl] at h
        cases h
        have hf : l.isFeedable = true := by
          by_contra hf
          rw [run_feed_of_not_feedable (Bool.not_eq_true _ ▸ hf)] at hl
          cases hl
        exact .lexeme [] l ls rfl rfl hf hl
  · rintro (⟨fed, l, rest, rfl, hfed, -, hfail⟩ | ⟨rfl, hfed⟩)
    · rw [run_feedAll_append hfed, feedAll, EStateM.run_bind, hfail]
    · have h : (feedAll (some ε) (ls ++ [])).run m.registers = _ := run_feedAll_append hfed []
      rwa [List.append_nil] at h

/-- What fails from these registers on leaves nothing half done. -/
structure IsAtomic (r : Registers) : Prop where
  action : ∀ a ε s, (perform a).run r = .error ε s → s = r
  lexeme : ∀ l ε s, (feed l).run r = .error ε s → s = r
  line : ∀ R line ε s, (feedLine R line).run r = .error ε s ↔
    StopsAt r (lex R line).1 (lex R line).2 ε s
  /-- The registers are those of a state, and its actions and lines fail where these do. -/
  state : ∃ m : Calculator, m.registers = r ∧
    (∀ a, (perform a).run r = m.ending (m.perform a)) ∧
    ∀ R line, (feedLine R line).run r = lineEnding (m.feedLine R line)

/-- From reachable registers on, a failed action or lexeme changes nothing, and a failed line only
what the feedable lexemes before the place do. -/
theorem isAtomic_of_reachable (h : r.Reachable) : r.IsAtomic := by
  obtain ⟨m, hm, rfl⟩ := h.exists_calculator
  have hsel := hm.selectsEntry
  refine ⟨fun a ε s => perform_failed hsel, fun l ε s hl => ?_,
    fun R line ε s => run_feedAll_eq_error_iff hsel, m, rfl, run_perform hsel, run_feedLine hsel⟩
  rcases run_feed hsel l with ⟨m', -, h'⟩ | ⟨δ, h'⟩
  · rw [h'] at hl
    cases hl
  · rw [h'] at hl
    cases hl
    rfl

/-- With three entries, the second one selected and an undone step to redo, dividing the first entry
by the selected zero fails and changes nothing. In a line the variable that is pushed before stays,
and the one behind is not pushed. -/
theorem isAtomic_divide :
    let pushed := afterAll [.push (.num 1) false .absent, .push (.num 0) false .absent,
      .push (.var "x") false .absent, .dup, .undo, .select (some 1)] { config := {} }
    pushed.Reachable ∧ pushed.stack.length = 3 ∧ pushed.selection = some 1 ∧
      pushed.cursor = 3 ∧ pushed.snapshots.length = 5 ∧ pushed.IsAtomic ∧
      (perform (.apply "/")).run pushed = .error .divisionByZero pushed ∧
      ∃ s, (feedLine .decimal "y / z").run pushed = .error .divisionByZero s ∧
        s.stack.map (·.expr) = [.num 1, .num 0, .var "x", .var "y"] := by
  intro pushed
  have h : pushed.Reachable := (Reachable.fresh {}).afterAll _
  refine ⟨h, rfl, rfl, rfl, rfl, isAtomic_of_reachable h, by with_unfolding_all rfl, ?_⟩
  exact ⟨_, by with_unfolding_all rfl, by with_unfolding_all rfl⟩

end Registers
end StackAlgebra
