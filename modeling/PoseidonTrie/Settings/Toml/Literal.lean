import PoseidonTrie.Settings.Value

namespace PoseidonTrie.Settings.Toml

open Scan

def isBlank (c : Char) : Bool :=
  c == ' ' || c == '\t'

def blank : Scan Unit := do
  let _ ← takeWhile isBlank

def newline : Scan Unit :=
  char '\n' <|> text "\r\n"

/-- Tabs, and all but control characters. -/
def isPlain (c : Char) : Bool :=
  c == '\t' || (0x20 ≤ c.toNat && c.toNat != 0x7f)

def comment : Scan Unit := do
  char '#'
  let _ ← takeWhile isPlain

/-- Blanks, comments and line ends. -/
def gap : Scan Unit := do
  let _ ← many ((do let _ ← takeWhile1 isBlank) <|> newline <|> comment)

def escaped : Scan Char := do
  char '\\'
  match ← satisfy fun _ => true with
  | 'b' => return '\x08'
  | 't' => return '\t'
  | 'n' => return '\n'
  | 'f' => return '\x0c'
  | 'r' => return '\r'
  | '"' => return '"'
  | '\\' => return '\\'
  | 'u' => charOf? (← hexNat 4)
  | 'U' => charOf? (← hexNat 8)
  | _ => failure

def basicString : Scan String := do
  char '"'
  let cs ← many (satisfy (fun c => isPlain c && c != '"' && c != '\\') <|> escaped)
  char '"'
  return String.ofList cs

def literalString : Scan String := do
  char '\x27'
  let cs ← takeWhile fun c => isPlain c && c != '\x27'
  char '\x27'
  return String.ofList cs

/-- The closing delimiter of three, after up to two that belong to the text. -/
def closing (delimiter : Char) : Scan (List Char) := fun cs =>
  let run := ((cs.take 5).takeWhile (· == delimiter)).length
  if 3 ≤ run then some (List.replicate (run - 3) delimiter, cs.drop run) else none

/-- A delimiter that does not start a closing one. -/
def inner (delimiter : Char) : Scan (List Char) := fun cs =>
  match cs with
  | c :: rest =>
    if c == delimiter && rest.take 2 != [delimiter, delimiter] then some ([c], rest) else none
  | [] => none

/-- A backslash at the end of a line swallows the blanks and line ends after it. -/
def continuation : Scan (List Char) := do
  char '\\'
  blank
  newline
  let _ ← many ((do let _ ← takeWhile1 isBlank) <|> newline)
  return []

/-- A string between delimiters of three. A line end at its start is left out. -/
def longString (delimiter : Char) (piece : Scan (List Char)) : Scan String := do
  text (String.ofList (List.replicate 3 delimiter))
  let _ ← optional newline
  let line : Scan (List Char) := do
    newline
    return ['\n']
  let pieces ← many (line <|> inner delimiter <|> piece)
  return String.ofList (pieces.flatten ++ (← closing delimiter))

def longBasicString : Scan String :=
  longString '"' (continuation <|> (do
    let c ← satisfy (fun c => isPlain c && c != '"' && c != '\\') <|> escaped
    return [c]))

def longLiteralString : Scan String :=
  longString '\x27' (takeWhile1 fun c => isPlain c && c != '\x27')

def string : Scan String :=
  longBasicString <|> longLiteralString <|> basicString <|> literalString

def bareKey : Scan String := do
  return String.ofList (← takeWhile1 fun c => c.isAlphanum || c == '_' || c == '-')

def key : Scan (List String) := do
  let names ← separated (bareKey <|> basicString <|> literalString) do
    blank
    char '.'
    blank
  if names.length < 80 then return names else failure

/-- Digits with single underscores between them. -/
def digits (isDigit : Char → Bool) : Scan (List Char) := do
  return (← separated (takeWhile1 isDigit) (char '_')).flatten

def sign : Scan Bool := do
  return (← optional (satisfy fun c => c == '+' || c == '-')) == some '-'

/-- Decimal digits, of which the first is zero only if it stands alone. -/
def wholeDigits : Scan (List Char) := do
  let ds ← (do char '0'; return ['0']) <|> digits isDigit
  return ds

def radixInteger (mark : String) (base : Nat) : Scan Int := do
  text mark
  return natOfDigits base (← digits fun c => (digitOf? base c).isSome)

def decimalInteger : Scan Int := do
  let negative ← sign
  let n := Int.ofNat (natOfDigits 10 (← wholeDigits))
  return if negative then -n else n

def integer : Scan Value := do
  let n ← radixInteger "0x" 16 <|> radixInteger "0o" 8 <|> radixInteger "0b" 2 <|> decimalInteger
  if -2 ^ 63 ≤ n ∧ n < 2 ^ 63 then return .integer n else failure

/-- A number with a fraction or an exponent. It may not exceed the largest float. -/
def fractional : Scan Value := do
  let negative ← sign
  let whole ← wholeDigits
  let fraction ← optional do
    char '.'
    digits isDigit
  let exponent ← optional do
    let _ ← satisfy fun c => c == 'e' || c == 'E'
    let negative ← sign
    let n := Int.ofNat (natOfDigits 10 (← digits isDigit))
    return if negative then -n else n
  if fraction.isNone && exponent.isNone then failure
  let fraction := fraction.getD []
  let x := floatOfDecimal (natOfDigits 10 (whole ++ fraction))
    (exponent.getD 0 - fraction.length)
  if x.isInf && !negative then failure
  return .float (if negative then -x else x)

def specialFloat : Scan Value := do
  let negative ← sign
  let x ← (do text "inf"; return 1.0 / 0.0) <|> (do text "nan"; return 0.0 / 0.0)
  return .float (if negative then -x else x)

/-- A number of exactly so many digits, within bounds. -/
def bounded (width low high : Nat) : Scan Nat := do
  let n := natOfDigits 10 (← times (satisfy isDigit) width)
  if low ≤ n ∧ n ≤ high then return n else failure

def daysIn (year month : Nat) : Nat :=
  if month = 2 then
    if year % 4 = 0 ∧ (year % 100 ≠ 0 ∨ year % 400 = 0) then 29 else 28
  else if month = 4 ∨ month = 6 ∨ month = 9 ∨ month = 11 then 30
  else 31

def date : Scan Unit := do
  let year ← bounded 4 0 9999
  char '-'
  let month ← bounded 2 1 12
  char '-'
  let _ ← bounded 2 1 (daysIn year month)

def time : Scan Unit := do
  let _ ← bounded 2 0 23
  char ':'
  let _ ← bounded 2 0 59
  char ':'
  let _ ← bounded 2 0 60
  let _ ← optional do
    char '.'
    takeWhile1 isDigit

/-- The distance from universal time. -/
def offset : Scan Unit :=
  (do let _ ← satisfy fun c => c == 'Z' || c == 'z') <|> (do
    let _ ← satisfy fun c => c == '+' || c == '-'
    let _ ← bounded 2 0 23
    char ':'
    let _ ← bounded 2 0 59)

/-- A date, a time or both, and an offset only after both. -/
def moment : Scan Unit :=
  (do
    date
    let _ ← optional do
      let _ ← satisfy fun c => c == 'T' || c == 't' || c == ' '
      time
      optional offset) <|> time

/-- A value that is no date, no array and no table. -/
def scalar : Scan Value :=
  (.string <$> string) <|> (do text "true"; return .boolean true) <|>
    (do text "false"; return .boolean false) <|> specialFloat <|> fractional <|> integer

end PoseidonTrie.Settings.Toml
