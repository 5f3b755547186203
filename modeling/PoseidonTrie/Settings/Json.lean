import PoseidonTrie.Settings.Value

namespace PoseidonTrie.Settings.Json

open Scan

def blank : Scan Unit := do
  let _ ← takeWhile fun c => c == ' ' || c == '\t' || c == '\n' || c == '\r'

def token (c : Char) : Scan Unit := do
  blank
  char c

/-- A code unit written as `uXXXX`. A leading surrogate takes the trailing one after it. -/
def unicode : Scan Char := do
  let unit ← hexNat 4
  if 0xd800 ≤ unit ∧ unit < 0xdc00 then
    text "\\u"
    let low ← hexNat 4
    if 0xdc00 ≤ low ∧ low < 0xe000 then
      charOf? (0x10000 + (unit - 0xd800) * 0x400 + (low - 0xdc00))
    else
      failure
  else
    charOf? unit

def escaped : Scan Char := do
  char '\\'
  match ← satisfy fun _ => true with
  | '"' => return '"'
  | '\\' => return '\\'
  | '/' => return '/'
  | 'b' => return '\x08'
  | 'f' => return '\x0c'
  | 'n' => return '\n'
  | 'r' => return '\r'
  | 't' => return '\t'
  | 'u' => unicode
  | _ => failure

def string : Scan String := do
  char '"'
  let cs ← many (satisfy (fun c => 0x20 ≤ c.toNat && c != '"' && c != '\\') <|> escaped)
  char '"'
  return String.ofList cs

/-- The digits after `n` that still fit a word, and how many were left out. -/
def leading (n : Nat) : List Char → Nat × Nat
  | [] => (n, 0)
  | c :: rest =>
    let next := 10 * n + (digitOf? 10 c).getD 0
    if next ≤ wordMax then leading next rest else (n, rest.length + 1)

/-- Powers of ten within a float's range, the excess taken 308 at a time. There are no floats
beyond the largest. -/
def scale (x : Float) (exponent : Int) : (steps : Nat) → Option Float
  | 0 => some x
  | n + 1 =>
    if exponent.natAbs ≤ 308 then
      let power := Float.ofScientific 1 false exponent.natAbs
      if 0 ≤ exponent then
        let y := x * power
        if y.isInf then none else some y
      else
        some (x / power)
    else if x == 0.0 then some x
    else if 0 ≤ exponent then none
    else scale (x / 1e308) (exponent + 308) n

/-- A number. An integer that is no 64-bit signed one is a float. Of a float's digits only those
count that fit a word, on either side of the point. -/
def number : Scan Value := do
  let negative := (← optional (char '-')).isSome
  let whole ← takeWhile1 isDigit
  if whole.head? = some '0' ∧ whole.length ≠ 1 then failure
  let fraction ← optional do
    char '.'
    takeWhile1 isDigit
  let exponent ← optional do
    let _ ← satisfy fun c => c == 'e' || c == 'E'
    let sign ← optional (satisfy fun c => c == '+' || c == '-')
    let n := Int.ofNat (natOfDigits 10 (← takeWhile1 isDigit))
    return if sign == some '-' then -n else n
  let n := Int.ofNat (natOfDigits 10 whole)
  let n := if negative then -n else n
  if fraction.isNone ∧ exponent.isNone ∧ ¬(negative ∧ n = 0) ∧ -2 ^ 63 ≤ n ∧ n < 2 ^ 63 then
    return .integer n
  else
    let digits := fraction.getD []
    let (kept, dropped) := leading 0 whole
    let (kept, left) := leading kept digits
    let shift : Int := dropped + left - digits.length
    -- Past this range the answer no longer depends on the exponent.
    let exponent := max (-100000) (min 100000 (exponent.getD 0))
    match scale kept.toUInt64.toFloat (exponent + shift) 1000 with
    | some x => return .float (if negative then -x else x)
    | none => failure

def entry (item : Scan Value) : Scan (String × Value) := do
  blank
  let key ← string
  token ':'
  return (key, ← item)

/-- The entries of an object, read with `item`. -/
def object (item : Scan Value) : Scan (List (String × Value)) := do
  char '\x7b'
  let entries ← optional (separated (entry item) (token ','))
  token '\x7d'
  return entries.getD []

def array (item : Scan Value) : Scan Unit := do
  char '['
  let _ ← optional (separated item (token ','))
  token ']'

/-- One value. Those inside it are read with `item`, if it may hold any. -/
def valueOver (item? : Option (Scan Value)) : Scan Value := do
  blank
  match ← peek, item? with
  | '"', _ => .string <$> string
  | 't', _ => do text "true"; return .boolean true
  | 'f', _ => do text "false"; return .boolean false
  | 'n', _ => do text "null"; return .null
  | '[', some item => do array item; return .array
  | '\x7b', some item => return .table (← object item).isEmpty
  | '[', none | '\x7b', none => failure
  | _, _ => number

/-- One value, with at most `depth` arrays and objects inside one another. -/
def value : (depth : Nat) → Scan Value
  | 0 => valueOver none
  | depth + 1 => valueOver (some (value depth))

/-- The entries of an object that is the whole text. A later entry of one key replaces an earlier
one. -/
def document : Scan (List (String × Value)) := do
  blank
  let entries ← object (value 126)
  blank
  return entries.foldl (fun kept (key, v) => kept.filter (·.1 != key) ++ [(key, v)]) []

def parse? (text : String) : Option (List (String × Value)) :=
  Scan.all? document text

end PoseidonTrie.Settings.Json
