import PoseidonTrie.Settings.Files
import PoseidonTrie.Settings.Json
import PoseidonTrie.Settings.Toml.Document

namespace PoseidonTrie.Settings

abbrev Environment := List (String × String)

inductive Format where
  | toml
  | json

namespace Format

def extension : Format → String
  | toml => "toml"
  | json => "json"

/-- The format of a file name's extension, in this case only. A leading dot starts no extension. -/
def ofFileName? (name : String) : Option Format :=
  match (name.splitOn ".").reverse with
  | _ :: [] | [_, ""] => none
  | last :: _ => [toml, json].find? (·.extension = last)
  | [] => none

def parse? : Format → String → Option (List (String × Value))
  | toml => Toml.parse?
  | json => Json.parse?

end Format

/-- The file that a path means: itself, if it is one, otherwise with an extension added. A file of
no known format is passed over. -/
def Files.locate? (files : Files) (path : String) : Option (Format × String) :=
  match (pathNames path).getLast? with
  | none | some ".." => none
  | some name =>
    match files.read? path with
    | some text => (Format.ofFileName? name).map (·, text)
    | none => [Format.toml, Format.json].findSome? fun format =>
      (files.read? (upToName path ++ "." ++ format.extension)).map (format, ·)

/-- The directory that holds the default file. -/
def directoryName : String := ".lurk"

def fileName : String := "trie.toml"

/-- A name in lower case. Beyond the ASCII letters only the Kelvin sign has one of them for its
lower case. -/
def lowerName (name : String) : String :=
  name.map fun c => if c = '\u212a' then 'k' else c.toLower

namespace Environment

def get? (env : Environment) (name : String) : Option String :=
  (env.find? (·.1 = name)).map (·.2)

def variablePrefix : String := "lurk_trie_"

/-- The variables that name a setting, in any case. -/
def settings (env : Environment) : List (String × Value) :=
  env.filterMap fun (name, text) =>
    let name := lowerName name
    if name.startsWith variablePrefix then
      some ((name.drop variablePrefix.length).toString, .ofVariable text)
    else
      none

/-- The home directory, or the account's own where the variable does not name one. -/
def home (env : Environment) : String :=
  match env.get? "HOME" with
  | none | some "" => "/root"
  | some path => path

/-- The directory of the default file, below the home directory. -/
def defaultDirectory (env : Environment) : String :=
  joinPath env.home directoryName

/-- The file to read when none is given. -/
def defaultFile (env : Environment) : String :=
  (env.get? "LURK_TRIE_CONFIG_FILE").getD (joinPath env.defaultDirectory fileName)

end Environment

end PoseidonTrie.Settings
