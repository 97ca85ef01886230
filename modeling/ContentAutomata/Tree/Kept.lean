import ContentAutomata.Tree.Guarded
import Mathlib.Logic.Function.Basic

/-!
# Sets of positions that nodes keep

The sets of first and of last positions of a tree are worked out anew in `Tree.first` and
`Tree.last` whenever they are asked for. A node may as well keep what was worked out for it, and
hand it out from then on without looking at the tree again, or at the capacity it is asked for. It
has to forget it when the leaves are numbered anew.

A `Memo` is what the nodes of a tree keep, each node being named by the way from it up to the root.
A `Query` reads and fills it; it may fail, and what was kept until then stays kept. A `Node` is a
tree with what its nodes keep.
-/
namespace ContentAutomata

/-- Which end of a word. -/
inductive Side where
  | first | last
  deriving DecidableEq, Repr

namespace Tree

/-- The positions at one end of the words of a tree, worked out anew. -/
def ends? (side : Side) (n : Nat) (t : Tree) : Option BoundedSet :=
  match side with
  | .first => t.first? n
  | .last => t.last? n

/-- Adds the positions at one end of the words of the trees of a list, worked out anew. -/
def endsOf? (side : Side) (n : Nat) (ts : List Tree) (s : BoundedSet) : Option BoundedSet :=
  match side with
  | .first => firstOf? n ts s
  | .last => lastOf? n ts s

/-! ## Nodes -/

/-- The way from a node up to the root: among the children of its parent, which one it is, and so on
for the parent. -/
abbrev Path := List Nat

/-- The subtrees directly below the root. -/
def children : Tree → List Tree
  | epsilon => []
  | leaf _ => []
  | counted _ _ => []
  | closure _ t => [t]
  | joined _ l r => [l, r]
  | all ts _ => ts

/-- The subtree of a node. -/
def at? (t : Tree) : Path → Option Tree
  | [] => some t
  | i :: path => (t.at? path).bind (·.children[i]?)

end Tree

open ContentAutomata.Tree

/-- What the nodes of a tree keep. -/
abbrev Memo := Path → Side → Option BoundedSet

namespace Memo

/-- Keeps a set at a node. -/
def keep (memo : Memo) (path : Path) (side : Side) (s : BoundedSet) : Memo :=
  Function.update memo path (Function.update (memo path) side (some s))

/-- Forgets what is kept at a node. -/
def forget (memo : Memo) (path : Path) : Memo := Function.update memo path fun _ => none

mutual
/-- Numbers the leaves of a node from left to right; it and all nodes below it forget what they
keep. Mirrors `number_positions`. -/
def renumber : Tree → Path → (next : Nat) → StateM Memo (Tree × Nat)
  | .epsilon, path, next => do
    modify (·.forget path)
    return (.epsilon, next)
  | .leaf l, path, next => do
    modify (·.forget path)
    return (.leaf { l with position := next }, next + 1)
  | .counted l m, path, next => do
    modify (·.forget path)
    return (.counted { l with position := next } m, next + 1)
  | .closure op t, path, next => do
    modify (·.forget path)
    let (t, next) ← renumber t (0 :: path) next
    return (.closure op t, next)
  | .joined op l r, path, next => do
    modify (·.forget path)
    let (l, next) ← renumber l (0 :: path) next
    let (r, next) ← renumber r (1 :: path) next
    return (.joined op l r, next)
  | .all ts m, path, next => do
    modify (·.forget path)
    let (ts, next) ← renumberAll ts 0 path next
    return (.all ts m, next)
/-- Numbers the leaves of those children of a node that begin with the one numbered `i`. -/
def renumberAll : List Tree → (i : Nat) → Path → (next : Nat) → StateM Memo (List Tree × Nat)
  | [], _, _, next => return ([], next)
  | t :: ts, i, path, next => do
    let (t, next) ← renumber t (i :: path) next
    let (ts, next) ← renumberAll ts (i + 1) path next
    return (t :: ts, next)
end

end Memo

/-! ## Queries -/

/-- A computation that reads and fills what is kept. If it fails, that is not undone. -/
abbrev Query := OptionT (StateM Memo)

namespace Query

/-- An access that may fail. -/
def access {α : Type} (o : Option α) : Query α := OptionT.mk (pure o)

/-- What the node keeps; if it does not keep anything, it is worked out and kept. -/
def keeping (side : Side) (path : Path) (work : Query BoundedSet) : Query BoundedSet :=
  OptionT.mk fun memo =>
    match memo path side with
    | some s => (some s, memo)
    | none =>
      match work.run memo with
      | (some s, memo) => (some s, memo.keep path side s)
      | (none, memo) => (none, memo)

mutual
/-- The positions at one end of the words of a node. Mirrors `first_pos` and `last_pos`. -/
def ends (side : Side) (n : Nat) : Tree → Path → Query BoundedSet
  | .epsilon, path => keeping side path (return .empty n)
  | .leaf l, path => keeping side path (access ((BoundedSet.empty n).insert? l.position))
  | .counted l _, path => keeping side path (access ((BoundedSet.empty n).insert? l.position))
  | .closure _ t, path => keeping side path do
    let s ← ends side n t (0 :: path)
    access ((BoundedSet.empty n).assign? s)
  | .joined op l r, path => keeping side path <|
    match side with
    | .first => do
      let s ← ends .first n l (0 :: path)
      let s ← access ((BoundedSet.empty n).assign? s)
      if op = .choice || l.isNullable then
        let s' ← ends .first n r (1 :: path)
        access (s.union? s')
      else return s
    | .last => do
      let s ← ends .last n r (1 :: path)
      let s ← access ((BoundedSet.empty n).assign? s)
      if op = .choice || r.isNullable then
        let s' ← ends .last n l (0 :: path)
        access (s.union? s')
      else return s
  | .all ts _, path => keeping side path (endsOf side n ts 0 path (.empty n))
/-- Adds the positions at one end of the words of those children of a node that begin with the one
numbered `i`. -/
def endsOf (side : Side) (n : Nat) : List Tree → (i : Nat) → Path → BoundedSet → Query BoundedSet
  | [], _, _, s => return s
  | t :: ts, i, path, s => do
    let s' ← ends side n t (i :: path)
    let s ← access (s.union? s')
    endsOf side n ts (i + 1) path s
end

mutual
/-- Adds to a table which positions follow each other in a word of a node. Mirrors
`calc_follow_pos`. -/
def follow (n : Nat) : Tree → Path → Array BoundedSet → Query (Array BoundedSet)
  | .epsilon, _, table => return table
  | .leaf _, _, table => return table
  | .counted l m, _, table =>
    if m.max = some 1 then return table
    else access (change? table l.position (·.insert? l.position))
  | .closure op t, path, table => do
    let table ← follow n t (0 :: path) table
    if op = .optional then return table
    else
      let last ← ends .last n t (0 :: path)
      let first ← ends .first n t (0 :: path)
      access (changeAll? table last first)
  | .joined op l r, path, table => do
    let table ← follow n l (0 :: path) table
    let table ← follow n r (1 :: path) table
    if op = .choice then return table
    else
      let last ← ends .last n l (0 :: path)
      let first ← ends .first n r (1 :: path)
      access (changeAll? table last first)
  | .all ts m, path, table => do
    let first ← ends .first n (.all ts m) path
    followMembers n first ts 0 path table
/-- Adds which positions follow each other in a word of those children of a node that begin with the
one numbered `i`, and that each of them may be followed by `first`. -/
def followMembers (n : Nat) (first : BoundedSet) : List Tree → (i : Nat) → Path →
    Array BoundedSet → Query (Array BoundedSet)
  | [], _, _, table => return table
  | t :: ts, i, path, table => do
    let table ← follow n t (i :: path) table
    let last ← ends .last n t (i :: path)
    let table ← access (changeAll? table last first)
    followMembers n first ts (i + 1) path table
end

end Query

/-! ## Trees with what their nodes keep -/

/-- A tree, and what its nodes keep. -/
structure Node where
  tree : Tree
  memo : Memo

namespace Node

/-- What may be demanded of a tree. -/
inductive Request where
  /-- To number the leaves anew. -/
  | number (next : Nat)
  /-- The positions at one end of the words of a node. -/
  | ends (side : Side) (n : Nat) (path : Path)
  /-- To add to a table which positions follow each other in a word of a node. -/
  | follow (n : Nat) (path : Path) (table : Array BoundedSet)

/-- Puts a query to the node at `path`, if there is one. -/
def ask {α : Type} (x : Node) (path : Path) (query : Tree → Path → Query α) : Option α × Node :=
  match x.tree.at? path with
  | none => (none, x)
  | some t => (((query t path).run x.memo).1, ⟨x.tree, ((query t path).run x.memo).2⟩)

/-- Whether the empty word is among those of the node at `path`. -/
def isNullable (x : Node) (path : Path) : Option Bool := (x.tree.at? path).map (·.isNullable)

/-- The positions at one end of the words of the node at `path`. -/
def ends (x : Node) (side : Side) (n : Nat) (path : Path) : Option BoundedSet × Node :=
  x.ask path (Query.ends side n)

/-- Adds to a table which positions follow each other in a word of the node at `path`. -/
def follow (x : Node) (n : Nat) (path : Path) (table : Array BoundedSet) :
    Option (Array BoundedSet) × Node :=
  x.ask path fun t path => Query.follow n t path table

/-- Numbers the leaves from left to right, beginning with `next`. -/
def number (x : Node) (next : Nat) : Node :=
  ⟨((Memo.renumber x.tree [] next).run x.memo).1.1, ((Memo.renumber x.tree [] next).run x.memo).2⟩

/-- What a request leaves behind. -/
def serve (x : Node) : Request → Node
  | .number next => x.number next
  | .ends side n path => (x.ends side n path).2
  | .follow n path table => (x.follow n path table).2

/-- What requests leave behind, one after the other. -/
def serveAll (x : Node) (requests : List Request) : Node := requests.foldl serve x

end Node

end ContentAutomata
