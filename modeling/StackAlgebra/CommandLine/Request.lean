import StackAlgebra.Angle
import StackAlgebra.CommandLine.Switch
import StackAlgebra.Radix.Choice

/-!
# Requests

`Request.read` makes of the arguments of a command line what they ask for, or refuses them. Switches
are taken from the left; each gets its arguments, and then all switches of one argument take effect.
Text that is attached to a switch without arguments is read as further switches by their letters. A
plain argument that no switch has taken is refused too, but only after all switches were carried
out, so that a call for help counts before it.
-/

namespace StackAlgebra.CommandLine

/-- What to do with the lines of input. -/
inductive Mode where
  /-- Carry them out. -/
  | calculate
  /-- Show their lexemes. -/
  | dump
  /-- Show what lexemes there are; no lines are read. -/
  | grammar
deriving DecidableEq

/-- What a command line asks for. The settings are the empty list where a switch was given the
separator for its argument. -/
structure Request where
  verbose : Bool := false
  radix : Setting := .absent
  precision : Setting := .absent
  angle : Setting := .absent
  /-- The lines to work on, if they are given as arguments. -/
  lines : Option (List String) := none
  /-- The prompt for lines, if one is asked for. -/
  prompt : Option String := none
  mode : Mode := .calculate

/-- A switch with the arguments that belong to it. -/
structure Use where
  switch : Switch
  arguments : List String := []

/-- A switch with one argument, the text attached to it. The separator only counts as text where
lines are wanted. -/
def Use.ofText (s : Switch) (cs : List Char) : Use :=
  if s.appetite ≠ .rest ∧ cs = ['-', '-'] then { switch := s }
  else { switch := s, arguments := [String.ofList cs] }

/-- The uses in one argument, and the arguments that are left. -/
structure Uses where
  uses : List Use
  left : List Argument

namespace Uses

/-- A further use in front. -/
def cons (u : Use) (us : Uses) : Uses :=
  { us with uses := u :: us.uses }

/-- A switch takes its arguments from those that follow. -/
def ofFollowing (s : Switch) (as : List Argument) : Except Refusal Uses :=
  match s.appetite, as with
  | .nothing, as => .ok { uses := [{ switch := s }], left := as }
  | .one, .plain t :: as | .atMostOne, .plain t :: as =>
    .ok { uses := [{ switch := s, arguments := [t] }], left := as }
  | .one, _ => .error .misused
  | .atMostOne, as => .ok { uses := [{ switch := s }], left := as }
  | .rest, as =>
    .ok {
      uses := [{ switch := s, arguments := (as.takeWhile (!·.isSeparator)).map (·.text) }]
      left := as.dropWhile (!·.isSeparator) }

/-- A switch with text attached to it. The text is its argument. If it takes none, and is given by
its letter, the text begins with the letter of a further switch. -/
def ofAttached (s : Switch) (byLetter : Bool) (as : List Argument) :
    List Char → Except Refusal Uses
  | [] =>
    if s.appetite = .nothing then .error .misused
    else .ok { uses := [Use.ofText s []], left := as }
  | c :: cs =>
    if s.appetite ≠ .nothing then .ok { uses := [Use.ofText s (c :: cs)], left := as }
    else if !byLetter then .error .misused
    else
      match Switch.ofLetter? c with
      | none => .error .misused
      | some next =>
        cons { switch := s } <$>
          if cs.isEmpty then ofFollowing next as else ofAttached next true as cs

/-- A switch as it stands in an argument. -/
def ofSwitch (s : Switch) (byLetter : Bool) (as : List Argument) :
    Option (List Char) → Except Refusal Uses
  | none => ofFollowing s as
  | some cs => ofAttached s byLetter as cs

/-- No argument is left that was not there. -/
theorem left_ofFollowing {s : Switch} {as : List Argument} {us : Uses}
    (h : ofFollowing s as = .ok us) : us.left.length ≤ as.length := by
  unfold ofFollowing at h
  split at h <;> cases h <;> simp only [List.length_cons, Nat.le_refl, Nat.le_succ]
  exact (List.dropWhile_suffix _).length_le

/-- A further use leaves over the same arguments. -/
theorem left_cons {u : Use} {r : Except Refusal Uses} {us : Uses} (h : cons u <$> r = .ok us) :
    ∃ vs, r = .ok vs ∧ us.left = vs.left := by
  cases r with
  | error e => cases h
  | ok vs => cases h; exact ⟨vs, rfl, rfl⟩

/-- A switch with characters attached to it leaves over no more arguments than there were. -/
theorem left_ofAttached {s : Switch} {byLetter : Bool} {as : List Argument} {cs : List Char}
    {us : Uses} (h : ofAttached s byLetter as cs = .ok us) : us.left.length ≤ as.length := by
  induction cs generalizing s byLetter us with
  | nil =>
    simp only [ofAttached] at h
    split at h <;> cases h
    exact Nat.le_refl _
  | cons c cs ih =>
    simp only [ofAttached] at h
    split at h
    · cases h
      exact Nat.le_refl _
    · split at h
      · cases h
      · split at h
        · cases h
        · obtain ⟨vs, hv, he⟩ := left_cons h
          rw [he]
          split at hv
          · exact left_ofFollowing hv
          · exact ih hv

/-- Neither does any other switch. -/
theorem left_ofSwitch {s : Switch} {byLetter : Bool} {as : List Argument}
    {attached : Option (List Char)} {us : Uses} (h : ofSwitch s byLetter as attached = .ok us) :
    us.left.length ≤ as.length := by
  cases attached with
  | none => exact left_ofFollowing h
  | some cs => exact left_ofAttached h

end Uses

namespace Request

/-- The setting that the arguments of a switch make. -/
def settingOf (read? : String → Option Setting) : List String → Except Refusal Setting
  | [] => .ok (.list [])
  | text :: _ =>
    match read? text with
    | some given => .ok given
    | none => .error .misused

/-- A radix, named or as a number. -/
def readRadix? (text : String) : Option Setting :=
  match Radix.read text.toList with
  | .ok R => some (.integer R.val)
  | .error _ => none

/-- A precision, which need not make sense yet. -/
def readPrecision? (text : String) : Option Setting :=
  (Setting.readInt? text).map .integer

/-- An angle measure. -/
def readAngle? (text : String) : Option Setting :=
  (AngleMeasure.find? text).map fun m => .text m.name

/-- The prompt where none is named. -/
def defaultPrompt : String := "> "

/-- Carry out a use of a switch. Lines and a prompt exclude each other, and so do the two kinds of
display. -/
def take (r : Request) (u : Use) : Except Refusal Request :=
  match u.switch with
  | .help => .error .help
  | .verbose => .ok { r with verbose := true }
  | .radix => do return { r with radix := ← settingOf readRadix? u.arguments }
  | .precision => do return { r with precision := ← settingOf readPrecision? u.arguments }
  | .angle => do return { r with angle := ← settingOf readAngle? u.arguments }
  | .expression =>
    if r.prompt.isSome then .error .misused else .ok { r with lines := some u.arguments }
  | .prompt =>
    if r.lines.isSome then .error .misused
    else .ok { r with prompt := some (u.arguments.headD defaultPrompt) }
  | .grammar => if r.mode = .dump then .error .misused else .ok { r with mode := .grammar }
  | .dump => if r.mode = .grammar then .error .misused else .ok { r with mode := .dump }

/-- Carry out all switches, then refuse if there was a stray argument. -/
def takeAll (r : Request) (stray : Bool) : List Argument → Except Refusal Request
  | [] => if stray then .error .misused else .ok r
  | .switch _ s byLetter attached :: as =>
    match _h : Uses.ofSwitch s byLetter as attached with
    | .error e => .error e
    | .ok us => do
      let r ← us.uses.foldlM take r
      r.takeAll stray us.left
  | _ :: as => r.takeAll true as
termination_by as => as.length
decreasing_by
  · have := Uses.left_ofSwitch _h
    simp only [List.length_cons]
    omega
  · simp

/-- What the arguments ask for. -/
def read (arguments : List String) : Except Refusal Request := do
  takeAll {} false (← Argument.readAll arguments)

end Request
end StackAlgebra.CommandLine
