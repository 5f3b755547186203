/-! Reading text from the front. A failed reading consumes nothing. -/
namespace PoseidonTrie.Settings

abbrev Scan := StateT (List Char) Option

namespace Scan

variable {α : Type}

def satisfy (p : Char → Bool) : Scan Char
  | c :: rest => if p c then some (c, rest) else none
  | [] => none

def char (c : Char) : Scan Unit := do
  let _ ← satisfy (· == c)

/-- The next character, which stays. -/
def peek : Scan Char
  | c :: rest => some (c, c :: rest)
  | [] => none

def text (s : String) : Scan Unit :=
  s.toList.forM char

def takeWhile (p : Char → Bool) : Scan (List Char) := fun cs =>
  some (cs.takeWhile p, cs.dropWhile p)

def takeWhile1 (p : Char → Bool) : Scan (List Char) := do
  let first ← satisfy p
  return first :: (← takeWhile p)

/-- As many times as it succeeds. Past the length of the text it could only read nothing. -/
def many (p : Scan α) : Scan (List α) := fun cs =>
  some (go cs.length cs)
where
  go : Nat → List Char → List α × List Char
    | 0, cs => ([], cs)
    | n + 1, cs =>
      match p cs with
      | some (x, rest) => let (xs, rest) := go n rest; (x :: xs, rest)
      | none => ([], cs)

def times (p : Scan α) : Nat → Scan (List α)
  | 0 => return []
  | n + 1 => do return (← p) :: (← times p n)

def separated (p : Scan α) (separator : Scan Unit) : Scan (List α) := do
  let first ← p
  return first :: (← many do separator; p)

def eof : Scan Unit
  | [] => some ((), [])
  | _ => none

def all? (p : Scan α) (text : String) : Option α :=
  match p text.toList with
  | some (x, []) => some x
  | _ => none

def isDigit (c : Char) : Bool :=
  '0' ≤ c && c ≤ '9'

def digitOf? (base : Nat) (c : Char) : Option Nat :=
  let d :=
    if '0' ≤ c && c ≤ '9' then c.toNat - '0'.toNat
    else if 'a' ≤ c && c ≤ 'f' then c.toNat - 'a'.toNat + 10
    else if 'A' ≤ c && c ≤ 'F' then c.toNat - 'A'.toNat + 10
    else base
  if d < base then some d else none

/-- The number that digits denote. -/
def natOfDigits (base : Nat) (digits : List Char) : Nat :=
  digits.foldl (fun n c => base * n + (digitOf? base c).getD 0) 0

def charOf? (n : Nat) : Option Char :=
  if n.isValidChar then some (Char.ofNat n) else none

def hexNat (digits : Nat) : Scan Nat := do
  return natOfDigits 16 (← times (satisfy fun c => (digitOf? 16 c).isSome) digits)

end Scan

end PoseidonTrie.Settings
