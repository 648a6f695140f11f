/-!
# Commands

The words and symbols that act on the stack as a whole and not on the values in it.
-/

namespace StackAlgebra

/-- Stack commands. -/
inductive Command where
  | drop | dup | swap | clear | undo | redo
  /-- Switch an entry between exact and approximate display. -/
  | toggle
  /-- Move an entry one place toward the bottom. -/
  | sink
  /-- Move an entry one place toward the top. -/
  | rise
  /-- Move the selection one place toward the bottom. -/
  | selectBelow
  /-- Move the selection one place toward the top. -/
  | selectAbove
deriving DecidableEq

namespace Command

/-- The commands spelled as words. -/
def words : List (String × Command) :=
  [("drop", drop), ("dup", dup), ("swap", swap), ("clear", clear), ("undo", undo), ("redo", redo),
   ("approx", toggle)]

/-- The commands spelled as single symbols. -/
def symbols : List (String × Command) :=
  [(";", toggle), ("<", sink), (">", rise), ("[", selectBelow), ("]", selectAbove)]

/-- The command with this word or symbol. -/
def find? (name : String) : Option Command :=
  (words ++ symbols).lookup name

end Command
end StackAlgebra
