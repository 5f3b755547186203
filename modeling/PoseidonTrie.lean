import PoseidonTrie.Cache.Lemmas
import PoseidonTrie.Circuit.Trial
import PoseidonTrie.Proofs.Fold.Soundness
import PoseidonTrie.Proofs.Forest.Canonical
import PoseidonTrie.Session.Run
import PoseidonTrie.Settings.Globals
import PoseidonTrie.Proofs.Circuit.Computes
import PoseidonTrie.Proofs.Circuit.Values
import PoseidonTrie.Proofs.Circuit.Selection
import PoseidonTrie.Proofs.Circuit.Unpacking
import PoseidonTrie.Proofs.Circuit.Witness
import PoseidonTrie.Proofs.Trie.Descent
import PoseidonTrie.Proofs.Circuit.Native
import PoseidonTrie.Proofs.Fold.Batching
import PoseidonTrie.Proofs.Fold.DryRun
import PoseidonTrie.Proofs.Trie.Verify
import PoseidonTrie.Proofs.Forest.Attested
import PoseidonTrie.Proofs.Trie.Completeness
import PoseidonTrie.Proofs.Circuit.Accepted
import PoseidonTrie.Proofs.Circuit.Mirror
import PoseidonTrie.Proofs.Circuit.Parallel
import PoseidonTrie.Proofs.Circuit.Shape
import PoseidonTrie.Proofs.Circuit.Kinds
import PoseidonTrie.Proofs.Circuit.Tasks
import PoseidonTrie.Proofs.Trie.Unknown
import PoseidonTrie.Proofs.Trie.Written
import PoseidonTrie.Proofs.Fold.Failure
import PoseidonTrie.Proofs.Forest.Stability
import PoseidonTrie.Proofs.Trie.Refusal
import PoseidonTrie.Proofs.Forest.Heights
import PoseidonTrie.Proofs.Forest.Closure
import PoseidonTrie.Proofs.Forest.Memoized
import PoseidonTrie.Proofs.Trie.Positional
import PoseidonTrie.Proofs.Trie.Effect
import PoseidonTrie.Proofs.Circuit.Exact
import PoseidonTrie.Proofs.Circuit.Canonical
import PoseidonTrie.Proofs.Field.Encoding
import PoseidonTrie.Proofs.Trie.Capacity
import PoseidonTrie.Proofs.Circuit.Indexed
import PoseidonTrie.Proofs.Circuit.Label
import PoseidonTrie.Proofs.Circuit.Names
import PoseidonTrie.Proofs.Circuit.Distinct
import PoseidonTrie.Proofs.Fold.Names
