import StackAlgebra.Number.Shortest
import StackAlgebra.Text.Blank
import StackAlgebra.Text.Decimal
import StackAlgebra.Text.Quoted

/-!
# Settings as they are given

A setting comes from outside and may be anything: nothing, a truth value, a number, a text, a list
or a record. `Setting.text` writes one as messages show it; `Setting.toInt?` and `Setting.integral`
read a whole number out of it, strictly or by conversion.
-/

namespace StackAlgebra

/-- A value given for a setting. -/
inductive Setting where
  | absent
  | flag (b : Bool)
  | integer (n : Int)
  | real (x : Double)
  | text (s : String)
  | list (items : List Setting)
  | record (fields : List (String × Setting))

/-- Why a value is no whole number. -/
inductive NotIntegral where
  /-- A text that is no numeral, or a double that is not a number. -/
  | malformed
  /-- A value of a kind that is never read as a number. -/
  | wrongKind
  /-- An infinite double. -/
  | infinite
deriving DecidableEq

namespace Setting

mutual
/-- The value as messages show it. -/
def written : Setting → String
  | .absent => "None"
  | .flag true => "True"
  | .flag false => "False"
  | .integer n => toString n
  | .real x => x.text
  | .text s => quoted s
  | .list items => "[" ++ ", ".intercalate (writtenItems items) ++ "]"
  | .record fields => "\x7b" ++ ", ".intercalate (writtenFields fields) ++ "\x7d"

/-- The items of a list. -/
def writtenItems : List Setting → List String
  | [] => []
  | item :: items => item.written :: writtenItems items

/-- The fields of a record. -/
def writtenFields : List (String × Setting) → List String
  | [] => []
  | (key, value) :: fields => (quoted key ++ ": " ++ value.written) :: writtenFields fields
end

/-- The whole number that the value is; a truth value is one or zero. -/
def toInt? : Setting → Option Int
  | .flag b => some (if b then 1 else 0)
  | .integer n => some n
  | _ => none

/-- The digits of a numeral without the low lines that may stand between two of them. -/
def joinDigits? : List Char → Option (List Char)
  | [] => none
  | [c] => if isDecimal c then some [c] else none
  | c :: '_' :: rest => if isDecimal c then (joinDigits? rest).map (c :: ·) else none
  | c :: rest => if isDecimal c then (joinDigits? rest).map (c :: ·) else none

/-- The whole number that a text writes: spaces around, a sign, decimal digits of any script. -/
def readInt? (s : String) : Option Int :=
  match trimOff isSpace s.toList with
  | '-' :: ds => (joinDigits? ds).bind fun ds => (readDecimal? ds).map fun n => -(n : Int)
  | '+' :: ds => (joinDigits? ds).bind fun ds => (readDecimal? ds).map fun n => (n : Int)
  | ds => (joinDigits? ds).bind fun ds => (readDecimal? ds).map fun n => (n : Int)

/-- The value converted to a whole number: a double loses its fraction, a text is read. -/
def integral : Setting → Except NotIntegral Int
  | .flag b => .ok (if b then 1 else 0)
  | .integer n => .ok n
  | .real x =>
    match x.truncate? with
    | some n => .ok n
    | none => .error (if x.fraction = 0 then .infinite else .malformed)
  | .text s =>
    match readInt? s with
    | some n => .ok n
    | none => .error .malformed
  | .absent | .list _ | .record _ => .error .wrongKind

end Setting
end StackAlgebra
