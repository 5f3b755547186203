/-! Names inside a circuit. A path lists the labels from a name out to the top namespace. -/
namespace PoseidonTrie.Circuit

inductive Label where
  | num
  | boolean
  | booleanConstraint
  | andResult
  | andConstraint
  | andNotResult
  | andNotConstraint
  | norResult
  | norConstraint
  | hashOutput
  | bit (i : Nat)
  | runEnding (i : Nat)
  | andWith (k : Nat)
  | strictBits
  | unpackingConstraint
  | packBits
  | pick
  | pickResult
  | pickAt (round j : Nat)
  | bitUnset (i selector : Nat)
  | bitSet (i selector : Nat)
  | inverse
  | numIsNonzero
  | keyBits
  | levelChild (level i : Nat)
  | levelHash (level : Nat)
  | levelCommitment (level : Nat)
  | levelSelect (level : Nat)
  | oldPath
  | valueIsNonzero
  | levelSelectors (level : Nat)
  | levelNewChild (level i : Nat)
  | levelNewHash (level : Nat)
  | slot (i : Nat)
  | key
  | value
  | active
  | insert
  | nextRoot
  | root
  | state (i : Nat)
  | operand (i : Nat)
  | operandBit (i : Nat)
  | equal
  | select
  | nonzero
  | bits
  | selectors
  | hash
deriving DecidableEq

namespace Label

/-- The words of a label. None holds a space or a slash. -/
def words : Label → List String
  | num => ["num"]
  | boolean => ["boolean"]
  | booleanConstraint => ["boolean", "constraint"]
  | andResult => ["and", "result"]
  | andConstraint => ["and", "constraint"]
  | andNotResult => ["and", "not", "result"]
  | andNotConstraint => ["and", "not", "constraint"]
  | norResult => ["nor", "result"]
  | norConstraint => ["nor", "constraint"]
  | hashOutput => ["allocate", "for", "Elt::Num"]
  | bit i => ["bit", toString i]
  | runEnding i => ["run", "ending", "at", toString i]
  | andWith k => ["and", toString k]
  | strictBits => ["strict", "bits"]
  | unpackingConstraint => ["unpacking", "constraint"]
  | packBits => ["pack", "bits"]
  | pick => ["pick"]
  | pickResult => ["pick", "result"]
  | pickAt round j => ["pick", toString round ++ ",", toString j]
  | bitUnset i j => ["bit", toString i, "unset,", "selector", toString j]
  | bitSet i j => ["bit", toString i, "set,", "selector", toString j]
  | inverse => ["inverse"]
  | numIsNonzero => ["num", "is", "nonzero"]
  | keyBits => ["key", "bits"]
  | levelChild l i => ["level", toString l, "child", toString i]
  | levelHash l => ["level", toString l, "hash"]
  | levelCommitment l => ["level", toString l, "commitment", "matches"]
  | levelSelect l => ["level", toString l, "select"]
  | oldPath => ["old", "path"]
  | valueIsNonzero => ["value", "is", "nonzero"]
  | levelSelectors l => ["level", toString l, "selectors"]
  | levelNewChild l i => ["level", toString l, "new", "child", toString i]
  | levelNewHash l => ["level", toString l, "new", "hash"]
  | slot i => ["slot", toString i]
  | key => ["key"]
  | value => ["value"]
  | active => ["active"]
  | insert => ["insert"]
  | nextRoot => ["next", "root"]
  | root => ["root"]
  | state i => ["z" ++ toString i]
  | operand i => ["num", toString i]
  | operandBit i => ["bool", toString i]
  | equal => ["equal"]
  | select => ["select"]
  | nonzero => ["nonzero"]
  | bits => ["bits"]
  | selectors => ["selectors"]
  | hash => ["hash"]

def text (l : Label) : String :=
  " ".intercalate l.words

/-- The namespaces that hold the inside of a hash. -/
def isHash : Label → Bool
  | hash | levelHash _ | levelNewHash _ => true
  | _ => false

end Label

/-- Innermost label first. -/
abbrev Path := List Label

namespace Path

def text (p : Path) : String :=
  "/".intercalate (p.reverse.map Label.text)

/-- Whether a name lies inside a hash. -/
def isInternal (p : Path) : Bool :=
  p.any Label.isHash

end Path

end PoseidonTrie.Circuit
