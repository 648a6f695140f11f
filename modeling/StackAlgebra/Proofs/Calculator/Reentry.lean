import StackAlgebra.Proofs.Calculator.Execution
import StackAlgebra.Proofs.Radix.Display

/-!
# Displayed numbers can be entered again

The text that an exact number is displayed as stands for this number as input (`pushInput_render`).
What is shown names its radix exactly if that is not the calculator's, and input that names a radix
keeps it, so that the new entry is displayed as the old one.
-/

namespace StackAlgebra

variable {R : Radix} {q : ℚ}

/-! ## Reading what was displayed -/

namespace Input

/-- A name consists of word characters. -/
theorem isWord_of_isIdentifier {cs : List Char} (h : isIdentifier cs = true) :
    ∀ c ∈ cs, isWord c = true := by
  cases cs with
  | nil => exact fun _ hc => absurd hc List.not_mem_nil
  | cons c cs =>
    rw [isIdentifier, isNameStart, Bool.and_eq_true, Bool.and_eq_true, Bool.and_eq_true] at h
    exact List.forall_mem_cons.mpr ⟨h.1.1.1, List.all_eq_true.mp h.2⟩

/-- A text that is read as a number is no name, also where it looks like one. -/
theorem read_of_readNumeral {cs : List Char} (h : R.readNumeral cs = .ok q)
    (hchosen : chosenRadix cs = .ok none) : read R cs = .ok (.num q, none) := by
  unfold read
  rw [h, hchosen]
  split <;> rfl

/-- A written number is read as itself and names no radix. -/
theorem read_write (R : Radix) (q : ℚ) : read R (R.write q) = .ok (.num q, none) := by
  have hmark : '#' ∉ (R.write q).dropWhile (· = '-') := fun h =>
    (Radix.not_blank_of_mem_write ((List.dropWhile_sublist _).subset h)).2 rfl
  refine read_of_readNumeral (Radix.readNumeral_write q) ?_
  rw [chosenRadix, Radix.splitRadix?_of_not_mem hmark]

/-- A number that is written behind its radix is read as itself, and names the radix. -/
theorem read_named (R shown : Radix) (q : ℚ) :
    read R (shown.name.toList ++ '#' :: shown.write q) = .ok (.num q, some shown) := by
  obtain ⟨hsplit, hhead⟩ := Radix.splitRadix?_named shown (shown.write q)
  have hnumeral : R.readNumeral (shown.name.toList ++ '#' :: shown.write q) = .ok q := by
    rw [Radix.readNumeral_named R shown (fun c hc => (Radix.not_blank_of_mem_write hc).1)
      fun h => (Radix.not_blank_of_mem_write h).2 rfl]
    exact Radix.readNumeral_write q
  have hname : ¬isIdentifier (shown.name.toList ++ '#' :: shown.write q) = true := by
    intro h
    have hmark : isWord '#' = true := isWord_of_isIdentifier h '#' (by simp)
    exact absurd hmark (by decide)
  have hchosen : chosenRadix (shown.name.toList ++ '#' :: shown.write q) = .ok (some shown) := by
    rw [chosenRadix, Radix.dropWhile_of_head hhead, hsplit]
    simp only [Radix.read_name]
    rfl
  unfold read
  rw [if_neg hname, hnumeral, hchosen]
  rfl

/-- A text without blanks around it is read as it is, and no other radix than the one it names is
given. -/
theorem readText_absent (config : Config) {cs : List Char} (htrim : trim cs = cs) (hne : cs ≠ []) :
    readText config (String.ofList cs) .absent = read config.radix cs := by
  unfold readText
  simp only [String.toList_ofList, htrim, if_neg hne, inputRadix, bind, Except.bind, pure,
    Except.pure]
  rcases read config.radix cs with e | ⟨x, chosen⟩
  · rfl
  · simp

end Input

/-! ## Entering it again -/

namespace Calculator

variable {m : Calculator} {entry : Entry}

/-- The text of a number that is shown in the radix `shown` by a calculator with the radix
`active`. -/
def displayed (shown active : Radix) (q : ℚ) : List Char :=
  if shown = active then shown.write q else shown.name.toList ++ '#' :: shown.write q

/-- An exact number is displayed without loss, in its radix. -/
theorem display_num (hnum : entry.expr = .num q) (hexact : entry.approx = false) (active : Radix) :
    m.display entry active =
      .ok (String.ofList (displayed (entry.radix.getD active) active q), []) := by
  have hrender : m.renderEntry entry (entry.radix.getD active) =
      .ok (String.ofList ((entry.radix.getD active).write q), []) := by
    rw [renderEntry, hexact, hnum, Radix.render_num]
    rfl
  have htext : (entry.radix.getD active).name ++ "#" ++
        String.ofList ((entry.radix.getD active).write q) =
      String.ofList
        ((entry.radix.getD active).name.toList ++ '#' :: (entry.radix.getD active).write q) :=
    String.toList_injective (by simp)
  unfold display displayed
  simp only [hrender, bind, Except.bind, pure, Except.pure, htext]
  split_ifs <;> rfl

/-- An entry is rendered in its place. -/
theorem render_of_getElem? {place : ℕ} (h : m.stack[place]? = some entry) :
    m.perform (.render (some place) .absent) = (m.display entry m.config.radix).map fun shown =>
      { calculator := m, answer := .text shown.1, notes := shown.2 } := by
  have hlt : place < m.stack.length := (List.getElem?_eq_some_iff.mp h).1
  have hentry : ((m.place? (place : ℤ)).bind fun place => m.stack[place]?) = some entry := by
    rw [place?_of_lt hlt, Option.bind_some, h]
  rw [perform, render]
  simp only [Option.getD_some, hentry, Input.inputRadix, bind, Except.bind]
  cases m.display entry m.config.radix <;> rfl

/-- What is displayed has no blanks, and is not empty. -/
theorem trim_displayed (shown active : Radix) (q : ℚ) :
    trim (displayed shown active q) = displayed shown active q ∧ displayed shown active q ≠ [] := by
  have hwrite : ∀ c ∈ shown.write q, isBlank c = false :=
    fun c hc => (Radix.not_blank_of_mem_write hc).1
  unfold displayed
  split_ifs
  · refine ⟨Radix.trim_of_forall hwrite, fun hnil => ?_⟩
    have hread := Radix.readNumeral_write (R := shown) q
    rw [hnil] at hread
    cases hread
  · refine ⟨Radix.trim_of_forall fun c hc => ?_, by simp⟩
    rcases List.mem_append.mp hc with hc | hc
    · exact shown.not_blank_of_mem_name hc
    · exact List.forall_mem_cons.mpr ⟨by decide, hwrite⟩ c hc

/-- A displayed number is read as itself. A radix that it names is the one to display it in. -/
theorem readText_displayed (config : Config) (shown : Radix) (q : ℚ) :
    Input.readText config (String.ofList (displayed shown config.radix q)) .absent =
      .ok (.num q, if shown = config.radix then none else some shown) := by
  obtain ⟨htrim, hne⟩ := trim_displayed shown config.radix q
  rw [Input.readText_absent config htrim hne]
  unfold displayed
  split_ifs with h
  · rw [h, Input.read_write]
  · rw [Input.read_named]

/-- The text that an entry is displayed as can be entered: what it pushes on top is the expression
of the entry, and is displayed as the same text. -/
def CanReenter (m : Calculator) (place : ℕ) (entry : Entry) : Prop :=
  ∃ (t : String) (m' : Calculator) (top : Entry),
    m.perform (.render (some place) .absent) = .ok { calculator := m, answer := .text t } ∧
    m.perform (.pushInput t .absent) = .ok { calculator := m' } ∧
    m'.stack = m.stack ++ [top] ∧ top.expr = entry.expr ∧
    m'.perform (.render (some m.stack.length) .absent) = .ok { calculator := m', answer := .text t }

/-- Exact numbers can be entered again as they are displayed, whatever the radices of the entry and
of the calculator are. -/
theorem pushInput_render (m : Calculator) {place : ℕ} (hentry : m.stack[place]? = some entry)
    (hnum : entry.expr = .num q) (hexact : entry.approx = false) : m.CanReenter place entry := by
  set shown := entry.radix.getD m.config.radix
  set top : Entry :=
    { expr := .num q, radix := if shown = m.config.radix then none else some shown } with htop
  have hpush : m.perform (.pushInput (String.ofList (displayed shown m.config.radix q)) .absent) =
      .ok (m.pushEntry top) := by
    rw [perform, pushInput, readText_displayed]
    rfl
  -- The new entry has no radix of its own where the old one was shown in the calculator's.
  have hshown : top.radix.getD m.config.radix = shown := by
    rw [htop]
    dsimp only
    split_ifs with h
    · exact h.symm
    · rfl
  have htopentry : (m.pushEntry top).calculator.stack[m.stack.length]? = some top := by
    simp [pushEntry, commit, stack, History.record]
  have hconfig : (m.pushEntry top).calculator.config = m.config := rfl
  refine ⟨_, _, top, ?_, hpush, rfl, hnum.symm, ?_⟩
  · rw [render_of_getElem? hentry, display_num hnum hexact]
    rfl
  · refine (render_of_getElem? htopentry).trans ?_
    rw [display_num rfl rfl, hconfig, hshown]
    rfl

/-- In a decimal calculator `-175/3` is displayed in hexadecimal as `hex#-af/3`, with the sign
behind the radix, and can be entered as this. -/
theorem pushInput_render_hexadecimal :
    let entry : Entry := { expr := .num (-175 / 3), radix := some ⟨16, by decide, by decide⟩ }
    let m : Calculator := { history := { present := [entry] } }
    m.stack[0]? = some entry ∧ entry.approx = false ∧ m.CanReenter 0 entry := by
  intro entry m
  exact ⟨rfl, rfl, pushInput_render m rfl rfl rfl⟩

end Calculator
end StackAlgebra
