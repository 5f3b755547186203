import PoseidonTrie.Fold.Run
import PoseidonTrie.Settings.Load

namespace PoseidonTrie.Settings

/-- What the process has settled on. The first use settles each. -/
structure Globals where
  file : Option String
  batchSize : Option Nat

namespace Globals

def unset : Globals := ⟨none, none⟩

/-- The settings file: the given one, the environment's, or the default. -/
def settleFile (env : Environment) (given : Option String) (g : Globals) : String × Globals :=
  match g.file with
  | some file => (file, g)
  | none =>
    let file := given.getD env.defaultFile
    (file, { g with file := some file })

/-- The batch size. Settings that do not load are the default ones. -/
def settleBatchSize (files : Files) (env : Environment) (file : Option String)
    (given : List (String × String)) (g : Globals) : Nat × Globals :=
  match g.batchSize with
  | some n => (n, g)
  | none =>
    let (file, g) := g.settleFile env file
    let n := match load files env file given with
      | .ok n => n
      | .error _ => defaultBatchSize
    (n, { g with batchSize := some n })

end Globals

/-- A request to the process-wide settings. -/
inductive Call where
  | defaultDirectory
  | file (given : Option String)
  | batchSize (file : Option String) (given : List (String × String))
  | defaults
  | proverBatch

/-- What a request answers, as text. -/
def Call.answer (files : Files) (env : Environment) (g : Globals) : Call → String × Globals
  | .defaultDirectory => (env.defaultDirectory, g)
  | .file given => g.settleFile env given
  | .batchSize path given =>
    let (n, g) := g.settleBatchSize files env path given
    (toString n, g)
  | .defaults => (toString defaultBatchSize, g)
  | .proverBatch =>
    let (n, g) := g.settleBatchSize files env none []
    (toString (Prover.ofBatch n).batch, g)

end PoseidonTrie.Settings
