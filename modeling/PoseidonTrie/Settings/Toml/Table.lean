import PoseidonTrie.Settings.Toml.Literal

/-! The tables that a TOML text builds, which of them may be opened again, and what they stand
for. -/
namespace PoseidonTrie.Settings.Toml

/-- What a key holds. A table is implicit until a header names it, and dotted if a dotted key
made it. An array of tables lists its latest first. -/
inductive Item where
  | value (v : Value)
  | moment
  | array (items : List Item)
  | inlineTable (entries : List (String × Item))
  | table (isImplicit isDotted : Bool) (entries : List (String × Item))
  | tables (items : List (List (String × Item)))

abbrev Entries := List (String × Item)

namespace Entries

def get? (entries : Entries) (key : String) : Option Item :=
  (entries.find? (·.1 == key)).map (·.2)

/-- Puts an item in its key's place, or at the end. -/
def put (entries : Entries) (key : String) (item : Item) : Entries :=
  if entries.any (·.1 == key) then
    entries.map fun e => if e.1 == key then (key, item) else e
  else
    entries ++ [(key, item)]

/-- Changes the table at a path. Missing tables are made on the way. A dotted key passes through
no table that a header has named. `change` is also told whether the table is dotted. -/
def alter (byDottedKey isDotted : Bool) (change : Bool → Entries → Option Entries) :
    (path : List String) → Entries → Option Entries
  | [], entries => change isDotted entries
  | key :: path, entries =>
    match get? entries key with
    | none => do
      let inside ← alter byDottedKey byDottedKey change path []
      return put entries key (.table true byDottedKey inside)
    | some (.table isImplicit isDotted inside) => do
      if byDottedKey && !isImplicit then none
      let inside ← alter byDottedKey isDotted change path inside
      return put entries key (.table isImplicit isDotted inside)
    | some (.tables (last :: others)) => do
      let last ← alter byDottedKey false change path last
      return put entries key (.tables (last :: others))
    | some (.tables []) | some (.value _) | some .moment | some (.array _)
    | some (.inlineTable _) => none

/-- Adds an entry under a dotted key. A key with dots ends in a dotted table, and a key is never
set twice. -/
def define (entries : Entries) (path : List String) (name : String) (item : Item) :
    Option Entries :=
  alter true false (fun isDotted inside =>
    if isDotted == path.isEmpty || inside.any (·.1 == name) then none
    else some (inside ++ [(name, item)])) path entries

/-- Opens the table at a path. Only a table that no header or dotted key has named is opened, and
it goes to the end. -/
def openTable (entries : Entries) (path : List String) (name : String) : Option Entries :=
  alter false false (fun _ inside =>
    match get? inside name with
    | none => some (put inside name (.table false false []))
    | some (.table true false kept) =>
      some (inside.filter (·.1 != name) ++ [(name, .table false false kept)])
    | some _ => none) path entries

/-- Opens a new table at the end of an array of tables. -/
def openElement (entries : Entries) (path : List String) (name : String) : Option Entries :=
  alter false false (fun _ inside =>
    match get? inside name with
    | none => some (put inside name (.tables [[]]))
    | some (.tables items) => some (put inside name (.tables ([] :: items)))
    | some _ => none) path entries

/-- Adds an entry within the table that the last header opened. -/
def defineIn (entries : Entries) (header path : List String) (name : String) (item : Item) :
    Option Entries :=
  alter false false (fun _ inside => define inside path name item) header entries

end Entries

/-- The key that, coming first, makes a table a date. -/
def momentKey : String := "$__toml_private_datetime"

/-- A date is a string. It never spells a number. -/
def momentValue : Value := .string "-"

mutual

/-- What an item stands for. A table that starts like a date and is none stands for nothing, and
so does an item that holds such a table. -/
def Item.toValue? : Item → Option Value
  | .value v => some v
  | .moment => some momentValue
  | .array items => if areValues items then some .array else none
  | .inlineTable entries => tableValue? entries
  | .table _ _ entries => tableValue? entries
  | .tables items => if areTableValues items then some .array else none

/-- A table's first key decides whether it is a date, whose other entries are not looked at. -/
def tableValue? : List (String × Item) → Option Value
  | [] => some (.table true)
  | (key, item) :: rest =>
    if key = momentKey then
      match item with
      | .value (.string text) => (Scan.all? moment text).map fun _ => momentValue
      | _ => none
    else if item.toValue?.isSome && areEntryValues rest then
      some (.table false)
    else
      none

def areValues : List Item → Bool
  | [] => true
  | item :: rest => item.toValue?.isSome && areValues rest

def areEntryValues : List (String × Item) → Bool
  | [] => true
  | (_, item) :: rest => item.toValue?.isSome && areEntryValues rest

def areTableValues : List (List (String × Item)) → Bool
  | [] => true
  | entries :: rest => (tableValue? entries).isSome && areTableValues rest

end

/-- The entries of a whole document, which is no date. -/
def Entries.values? (entries : Entries) : Option (List (String × Value)) :=
  if entries.head?.any (·.1 = momentKey) then none
  else entries.mapM fun (key, item) => item.toValue?.map (key, ·)

end PoseidonTrie.Settings.Toml
