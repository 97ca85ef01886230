import ContentAutomata.Term

/-!
# Syntax trees of content models

A content model is compiled by way of a syntax tree, a regular expression whose letters are
particles. Its leaves are terms; each leaf says which particle of the content model it came from
(several leaves may come from one particle, if a multiplicity was spelled out) and has a position,
its number among the leaves from left to right. A counted leaf stands for a whole range of
repetitions, which a counter checks at run time. An `all` node stands for members in any order.

Results:
* `number_snd`: numbering hands out one position per leaf;
* `positions_number`: numbering from `k` numbers the leaves `k`, `k + 1`, … from left to right.
-/
namespace ContentAutomata

/-- An occurrence of a particle in a tree. -/
structure Leaf where
  /-- What a child is matched against. -/
  term : Term
  /-- The number of the particle. -/
  particle : Nat
  /-- The number of the leaf. -/
  position : Nat
  deriving DecidableEq, Repr

/-- How a subtree may be repeated. Mirrors `UnaryOp`. -/
inductive Closure where
  /-- At most once. -/
  | optional
  /-- Any number of times. -/
  | star
  /-- At least once. -/
  | plus
  deriving DecidableEq, Repr

/-- The sign written after a repeated subtree. -/
def Closure.sign : Closure → String
  | optional => "?"
  | star => "*"
  | plus => "+"

/-- How two subtrees are joined. Mirrors `BinaryOp`. -/
inductive Connective where
  | choice | sequence
  deriving DecidableEq, Repr

/-- The sign written between two joined subtrees. -/
def Connective.sign : Connective → String
  | choice => "|"
  | sequence => ","

/-- A syntax tree. Mirrors `NodeKind`. -/
inductive Tree where
  /-- No child. -/
  | epsilon
  /-- One child. -/
  | leaf (leaf : Leaf)
  /-- A number of children that a counter checks. -/
  | counted (leaf : Leaf) (occurs : Multiplicity)
  | closure (op : Closure) (body : Tree)
  | joined (op : Connective) (left right : Tree)
  /-- Members in any order. -/
  | all (members : List Tree) (occurs : Multiplicity)
  deriving Repr, Inhabited

namespace Tree

/-! ## Size -/

mutual
/-- The number of nodes. -/
def size : Tree → Nat
  | epsilon => 1
  | leaf _ => 1
  | counted _ _ => 1
  | closure _ t => t.size + 1
  | joined _ l r => l.size + r.size + 1
  | all ts _ => sizes ts + 1
/-- The number of nodes of a list of trees. -/
def sizes : List Tree → Nat
  | [] => 0
  | t :: ts => t.size + sizes ts
end

theorem size_pos (t : Tree) : 0 < t.size := by cases t <;> simp [size]

/-! ## Leaves -/

mutual
/-- The leaves from left to right, each with the range that a counter checks for it. Mirrors
`collect_leaves`. -/
def leaves : Tree → List (Leaf × Option Multiplicity)
  | epsilon => []
  | leaf l => [(l, none)]
  | counted l m => [(l, some m)]
  | closure _ t => t.leaves
  | joined _ l r => l.leaves ++ r.leaves
  | all ts _ => leavesOf ts
/-- The leaves of a list of trees. -/
def leavesOf : List Tree → List (Leaf × Option Multiplicity)
  | [] => []
  | t :: ts => t.leaves ++ leavesOf ts
end

/-- The number of leaves. -/
def leafCount (t : Tree) : Nat := t.leaves.length

/-! ## Numbering -/

mutual
/-- Numbers the leaves from left to right; also the first number left over. Mirrors
`number_positions`. -/
def number : Tree → Nat → Tree × Nat
  | epsilon, next => (epsilon, next)
  | leaf l, next => (leaf { l with position := next }, next + 1)
  | counted l m, next => (counted { l with position := next } m, next + 1)
  | closure op t, next =>
    let (t, next) := t.number next
    (closure op t, next)
  | joined op l r, next =>
    let (l, next) := l.number next
    let (r, next) := r.number next
    (joined op l r, next)
  | all ts m, next =>
    let (ts, next) := numberAll ts next
    (all ts m, next)
/-- Numbers the leaves of a list of trees. -/
def numberAll : List Tree → Nat → List Tree × Nat
  | [], next => ([], next)
  | t :: ts, next =>
    let (t, next) := t.number next
    let (ts, next) := numberAll ts next
    (t :: ts, next)
end

/-- The tree with its leaves numbered from 0. -/
def numbered (t : Tree) : Tree := (t.number 0).1

mutual
theorem number_snd : ∀ (t : Tree) (k : Nat), (t.number k).2 = k + t.leaves.length
  | epsilon, k => rfl
  | leaf _, k => rfl
  | counted _ _, k => rfl
  | closure _ t, k => number_snd t k
  | joined _ l r, k => by
    simp only [number, leaves, number_snd l, number_snd r, List.length_append]
    omega
  | all ts _, k => numberAll_snd ts k
theorem numberAll_snd : ∀ (ts : List Tree) (k : Nat),
    (numberAll ts k).2 = k + (leavesOf ts).length
  | [], k => rfl
  | t :: ts, k => by
    simp only [numberAll, leavesOf, number_snd t, numberAll_snd ts, List.length_append]
    omega
end

mutual
theorem positions_number : ∀ (t : Tree) (k : Nat),
    (t.number k).1.leaves.map (·.1.position) = List.range' k t.leaves.length
  | epsilon, k => rfl
  | leaf _, k => rfl
  | counted _ _, k => rfl
  | closure _ t, k => positions_number t k
  | joined _ l r, k => by
    simp only [number, leaves, List.map_append, positions_number l, positions_number r,
      number_snd l, List.length_append, ← List.range'_append_1]
  | all ts _, k => positions_numberAll ts k
theorem positions_numberAll : ∀ (ts : List Tree) (k : Nat),
    (leavesOf (numberAll ts k).1).map (·.1.position) = List.range' k (leavesOf ts).length
  | [], k => rfl
  | t :: ts, k => by
    simp only [numberAll, leavesOf, List.map_append, positions_number t, positions_numberAll ts,
      number_snd t, List.length_append, ← List.range'_append_1]
end

theorem length_leaves_number (t : Tree) (k : Nat) :
    (t.number k).1.leaves.length = t.leaves.length := by
  simpa using congrArg List.length (positions_number t k)

theorem leafCount_numbered (t : Tree) : t.numbered.leafCount = t.leafCount :=
  length_leaves_number t 0

/-! ## Written form -/

mutual
/-- How a tree is written. -/
def text : Tree → String
  | epsilon => "()"
  | leaf l => l.term.text
  | counted l m => l.term.text ++ m.text
  | closure op t => t.text ++ op.sign
  | joined op l r => "(" ++ l.text ++ " " ++ op.sign ++ " " ++ r.text ++ ")"
  | all ts _ => "all(" ++ ", ".intercalate (texts ts) ++ ")"
/-- How each tree of a list is written. -/
def texts : List Tree → List String
  | [] => []
  | t :: ts => t.text :: texts ts
end

end Tree

end ContentAutomata
