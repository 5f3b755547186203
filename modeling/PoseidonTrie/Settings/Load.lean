import PoseidonTrie.Settings.Source

namespace PoseidonTrie.Settings

inductive LoadError where
  | unreadableFile
  | notASize
deriving DecidableEq

def settingName : String := "batch_size"

def defaultBatchSize : Nat := 1

/-- What follows the setting's name in a key is a path into it: names after dots and indices in
brackets. An index is a 64-bit signed integer. -/
def isPathInto (cs : List Char) : Bool :=
  (Scan.many step cs).any fun (steps, rest) => !steps.isEmpty && rest.isEmpty
where
  blank : Scan Unit := do
    let _ ← Scan.takeWhile fun c => c == ' ' || c == '\t'
  index : Scan Unit := do
    let negative := (← optional (Scan.char '-')).isSome
    let n := Int.ofNat (Scan.natOfDigits 10 (← Scan.takeWhile1 Scan.isDigit))
    let n := if negative then -n else n
    if n < -2 ^ 63 ∨ 2 ^ 63 ≤ n then failure
  step : Scan Unit :=
    (do
      Scan.char '.'
      let _ ← Scan.takeWhile1 fun c => c.isAlphanum || c == '_' || c == '-' || c == ' ') <|>
    (do
      Scan.char '['
      blank
      index
      blank
      Scan.char ']')

/-- One source's entry laid over the setting, its key in any case. An empty table leaves it, and a
path into it makes it a table or an array. -/
def override (current : Value) (entry : String × Value) : Value :=
  let name := lowerName entry.1
  if name = settingName then
    match entry.2 with
    | .table true => current
    | v => v
  else if name.startsWith settingName
      && isPathInto (name.toList.drop settingName.length) then
    .table false
  else
    current

/-- What a caller gives by name, always as text. Only the setting's exact name counts. -/
def ofCaller (given : List (String × String)) : List (String × Value) :=
  (given.filter (·.1 = settingName)).map fun (key, text) => (key, .string text)

/-- The batch size. The file, the environment and the caller override each other in this order. A
file that is there must be readable. -/
def load (files : Files) (env : Environment) (file : String) (given : List (String × String)) :
    Except LoadError Nat := do
  let fromFile ← match files.locate? file with
    | none => pure []
    | some (format, text) =>
      match format.parse? text with
      | some entries => pure entries
      | none => throw .unreadableFile
  let entries := fromFile ++ env.settings ++ ofCaller given
  let value := entries.foldl override (.integer defaultBatchSize)
  match value.toSize? with
  | some n => return n
  | none => throw .notASize

end PoseidonTrie.Settings
