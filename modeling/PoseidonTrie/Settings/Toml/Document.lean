import PoseidonTrie.Settings.Toml.Table

namespace PoseidonTrie.Settings.Toml

open Scan

/-- A key split before its last name. -/
def splitKey (names : List String) : Option (List String × String) :=
  names.getLast?.map (names.dropLast, ·)

def entry (item : Scan Item) : Scan (List String × Item) := do
  let names ← key
  blank
  char '='
  blank
  return (names, ← item)

def array (item : Scan Item) : Scan Item := do
  char '['
  gap
  let items ← optional do
    let items ← separated item do
      gap
      char ','
      gap
    gap
    let _ ← optional (char ',')
    return items
  gap
  char ']'
  return .array (items.getD [])

def inlineTable (item : Scan Item) : Scan Item := do
  char '\x7b'
  blank
  let pairs ← optional (separated (entry item) do
    blank
    char ','
    blank)
  blank
  char '\x7d'
  return .inlineTable (← (pairs.getD []).foldlM (fun (entries : Entries) (names, item) => do
    let (path, name) ← splitKey names
    entries.define path name item) [])

def simpleItem : Scan Item :=
  (do moment; return .moment) <|> (.value <$> scalar)

/-- What stands after an equals sign, with at most `depth` arrays and tables inside one another. -/
def item : (depth : Nat) → Scan Item
  | 0 => simpleItem
  | depth + 1 => array (item depth) <|> inlineTable (item depth) <|> simpleItem

inductive Statement where
  | blank
  | entry (key : List String) (item : Item)
  | table (key : List String)
  | element (key : List String)

def header (opening closing : String) : Scan (List String) := do
  text opening
  Toml.blank
  let names ← key
  Toml.blank
  text closing
  return names

def statement : Scan Statement := do
  Toml.blank
  let s ← (.element <$> header "[[" "]]") <|> (.table <$> header "[" "]") <|>
    ((fun (names, item) => Statement.entry names item) <$> entry (item 79)) <|> pure .blank
  Toml.blank
  let _ ← optional comment
  return s

/-- What the statements so far have built, and the last header. -/
structure Document where
  entries : Entries
  header : List String

def Document.add (d : Document) : Statement → Option Document
  | .blank => some d
  | .entry names item => do
    let (path, name) ← splitKey names
    return { d with entries := ← d.entries.defineIn d.header path name item }
  | .table names => do
    let (path, name) ← splitKey names
    return ⟨← d.entries.openTable path name, names⟩
  | .element names => do
    let (path, name) ← splitKey names
    return ⟨← d.entries.openElement path name, names⟩

/-- One statement a line. A byte order mark may come first. -/
def document : Scan (List Statement) := do
  let _ ← optional (char '\ufeff')
  separated statement newline

def parse? (text : String) : Option (List (String × Value)) := do
  let statements ← Scan.all? document text
  let d ← statements.foldlM Document.add ⟨[], []⟩
  d.entries.values?

end PoseidonTrie.Settings.Toml
