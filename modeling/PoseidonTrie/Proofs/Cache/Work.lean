import PoseidonTrie.Proofs.Cache.Registration

/-! Computations over the caches, written out as the calls they make, so that what holds between two
calls can be said, and what is answered without a memo can be compared. -/
namespace PoseidonTrie

variable {f : PrimeField}

/-- A node as it is registered, with the height of the tree that it tops. No cache keeps that. -/
structure Registration (f : PrimeField) extends Preimage f where
  height : Nat

/-- The nodes of a path as they are registered, from the leaf up. A path has the topmost first. -/
def Registration.upward (a : Arity) : List (Node f a.width) → List (Registration f)
  | [] => []
  | node :: below => upward a below ++ [⟨⟨a, node⟩, below.length + 1⟩]

/-- A tree of cache calls: each is followed by what depends on its answer. -/
inductive Work (f : PrimeField) (α : Type) where
  | done (x : α)
  /-- Asks for the digest of a node. -/
  | hash (a : Arity) (node : Node f a.width) (next : Element f → Work f α)
  /-- Registers a node under a digest. -/
  | note (r : Registration f) (digest : Element f) (next : Work f α)
  /-- Asks for the preimage of a digest. -/
  | find (a : Arity) (digest : Element f) (next : Option (Node f a.width) → Work f α)

namespace Work

variable {α β : Type} {H : Hasher f} {c : Caches f}

def andThen (p : Work f α) (k : α → Work f β) : Work f β :=
  match p with
  | done x => k x
  | hash a node next => hash a node fun d => (next d).andThen k
  | note r d next => note r d (next.andThen k)
  | find a d next => find a d fun node => (next node).andThen k

instance : Monad (Work f) where
  pure := done
  bind := andThen

/-- What it comes to over caches, and the caches it leaves. -/
def run (H : Hasher f) (c : Caches f) : Work f α → α × Caches f
  | done x => (x, c)
  | hash a node next =>
    (next (c.digests.hash H a node).1).run H { c with digests := (c.digests.hash H a node).2 }
  | note r d next => next.run H { c with preimages := c.preimages.insert r.arity d r.node }
  | find a d next => (next (c.preimages.find? a d)).run H c

@[simp] theorem run_pure (x : α) : (pure x : Work f α).run H c = (x, c) := rfl

@[simp] theorem run_find {a : Arity} (d : Element f) (next : Option (Node f a.width) → Work f α) :
    (find a d next).run H c = (next (c.preimages.find? a d)).run H c := rfl

@[simp] theorem run_bind (p : Work f α) (k : α → Work f β) :
    (p >>= k).run H c = (k (p.run H c).1).run H (p.run H c).2 := by
  induction p generalizing c with
  | done x => rfl
  | hash a node next ih => exact ih _
  | note r d next ih => exact ih
  | find a d next ih => exact ih _

def register (r : Registration f) : Work f (Element f) :=
  hash r.arity r.node fun d => note r d (done d)

@[simp] theorem run_register (r : Registration f) :
    (register r).run H c = c.register H r.arity r.node := rfl

/-- What it registers, in order. -/
def noted (H : Hasher f) (c : Caches f) : Work f α → List (Registration f)
  | done _ => []
  | hash a node next =>
    (next (c.digests.hash H a node).1).noted H { c with digests := (c.digests.hash H a node).2 }
  | note r d next =>
    r :: next.noted H { c with preimages := c.preimages.insert r.arity d r.node }
  | find a d next => (next (c.preimages.find? a d)).noted H c

@[simp] theorem noted_pure (x : α) : (pure x : Work f α).noted H c = [] := rfl

@[simp] theorem noted_find {a : Arity} (d : Element f)
    (next : Option (Node f a.width) → Work f α) :
    (find a d next).noted H c = (next (c.preimages.find? a d)).noted H c := rfl

@[simp] theorem noted_register (r : Registration f) : (register r).noted H c = [r] := rfl

@[simp] theorem noted_bind (p : Work f α) (k : α → Work f β) :
    (p >>= k).noted H c = p.noted H c ++ (k (p.run H c).1).noted H (p.run H c).2 := by
  induction p generalizing c with
  | done x => rfl
  | hash a node next ih => exact ih _
  | note r d next ih => exact congrArg (r :: ·) ih
  | find a d next ih => exact ih _

/-- `P` holds of the caches before and after every call, and `Q` holds before every registration. -/
def Throughout (H : Hasher f) (P : Caches f → Prop) (Q : Caches f → Registration f → Prop)
    (c : Caches f) : Work f α → Prop
  | done _ => P c
  | hash a node next =>
    P c ∧ (next (c.digests.hash H a node).1).Throughout H P Q
      { c with digests := (c.digests.hash H a node).2 }
  | note r d next =>
    P c ∧ Q c r ∧
      next.Throughout H P Q { c with preimages := c.preimages.insert r.arity d r.node }
  | find a d next => P c ∧ (next (c.preimages.find? a d)).Throughout H P Q c

section Throughout

variable {P : Caches f → Prop} {Q : Caches f → Registration f → Prop} {p : Work f α}

theorem Throughout.final (hp : p.Throughout H P Q c) : P (p.run H c).2 := by
  induction p generalizing c with
  | done x => exact hp
  | hash a node next ih => exact ih _ hp.2
  | note r d next ih => exact ih hp.2.2
  | find a d next ih => exact ih _ hp.2

theorem Throughout.bind {k : α → Work f β} (hp : p.Throughout H P Q c)
    (hk : (k (p.run H c).1).Throughout H P Q (p.run H c).2) :
    (p >>= k).Throughout H P Q c := by
  induction p generalizing c with
  | done x => exact hk
  | hash a node next ih => exact ⟨hp.1, ih _ hp.2 hk⟩
  | note r d next ih => exact ⟨hp.1, hp.2.1, ih hp.2.2 hk⟩
  | find a d next ih => exact ⟨hp.1, ih _ hp.2 hk⟩

theorem Throughout.map (hp : p.Throughout H P Q c) (g : α → β) :
    (p >>= fun x => pure (g x)).Throughout H P Q c :=
  hp.bind hp.final

end Throughout

end Work

end PoseidonTrie
