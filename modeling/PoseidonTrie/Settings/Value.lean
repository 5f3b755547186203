import PoseidonTrie.Settings.Scan
import PoseidonTrie.Word

namespace PoseidonTrie.Settings

/-- A value. A size cannot be read from what arrays and tables hold. -/
inductive Value where
  | null
  | boolean (b : Bool)
  | integer (n : Int)
  | float (x : Float)
  | string (text : String)
  | array
  | table (isEmpty : Bool)

/-- Decimal digits, an optional plus sign before them. -/
def sizeOfText? (text : String) : Option Nat :=
  let digits := match text.toList with
    | '+' :: digits => digits
    | digits => digits
  if digits.isEmpty || !digits.all Scan.isDigit then
    none
  else
    let n := Scan.natOfDigits 10 digits
    if n ≤ wordMax then some n else none

namespace Value

/-- The size a value stands for. Halves are rounded away from zero, and what is then out of range
goes to the nearest end of it. -/
def toSize? : Value → Option Nat
  | boolean b => some b.toNat
  | integer n => if 0 ≤ n ∧ n ≤ wordMax then some n.toNat else none
  | float x => some x.round.toUInt64.toNat
  | string text =>
    let word := text.toLower
    if word = "true" ∨ word = "on" ∨ word = "yes" then some 1
    else if word = "false" ∨ word = "off" ∨ word = "no" then some 0
    else sizeOfText? text
  | null | array | table _ => none

end Value

/-- A decimal number as a binary float, rounded once: `digits * 10 ^ exponent`. -/
def floatOfDecimal (digits : Nat) (exponent : Int) : Float :=
  let magnitude := exponent + (Nat.toDigits 10 digits).length
  if digits = 0 ∨ magnitude < -400 then 0.0
  else if 400 < magnitude then 1.0 / 0.0
  else match exponent with
    | .ofNat e => Float.ofScientific digits false e
    | .negSucc e => Float.ofScientific digits true (e + 1)

/-- A number with an optional fraction and exponent. Either side of the point may be empty, but
not both. -/
def decimal : Scan Float := do
  let whole ← Scan.takeWhile Scan.isDigit
  let fraction ← optional do
    Scan.char '.'
    Scan.takeWhile Scan.isDigit
  let fraction := fraction.getD []
  if whole.isEmpty && fraction.isEmpty then failure
  let exponent ← optional do
    let _ ← Scan.satisfy fun c => c == 'e' || c == 'E'
    let sign ← optional (Scan.satisfy fun c => c == '+' || c == '-')
    let digits ← Scan.takeWhile1 Scan.isDigit
    let n := Int.ofNat (Scan.natOfDigits 10 digits)
    return if sign == some '-' then -n else n
  return floatOfDecimal (Scan.natOfDigits 10 (whole ++ fraction))
    (exponent.getD 0 - fraction.length)

/-- A float as an environment variable spells it. -/
def float : Scan Float := do
  let sign ← optional (Scan.satisfy fun c => c == '+' || c == '-')
  let name ← optional (Scan.takeWhile1 Char.isAlpha)
  let x ← match name.map fun name => (String.ofList name).toLower with
    | some "inf" | some "infinity" => pure (1.0 / 0.0)
    | some "nan" => pure (0.0 / 0.0)
    | some _ => failure
    | none => decimal
  return if sign == some '-' then -x else x

def integer : Scan Int := do
  let sign ← optional (Scan.satisfy fun c => c == '+' || c == '-')
  let n := Int.ofNat (Scan.natOfDigits 10 (← Scan.takeWhile1 Scan.isDigit))
  let n := if sign == some '-' then -n else n
  if -2 ^ 63 ≤ n ∧ n < 2 ^ 63 then return n else failure

/-- A variable's text stands for the first kind of value that it spells. -/
def Value.ofVariable (text : String) : Value :=
  match text.toLower with
  | "true" => boolean true
  | "false" => boolean false
  | _ =>
    match Scan.all? Settings.integer text with
    | some n => Value.integer n
    | none =>
      match Scan.all? Settings.float text with
      | some x => Value.float x
      | none => string text

end PoseidonTrie.Settings
