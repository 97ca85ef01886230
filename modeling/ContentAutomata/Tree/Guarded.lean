import ContentAutomata.Position.Bounded
import ContentAutomata.Tree.Basic
import ContentAutomata.Tree.Positions

/-!
# Positions of a tree with every access checked

The sets of positions of a tree leave out what they have no room for, and a table of followers gives
no followers for a position that it does not hold. Nothing can go wrong that way, and nothing would
be noticed if it did. Here the same sets and tables are worked out once more with sets that carry
their capacity and with tables that have to hold what is looked up: where a position is out of
range, two capacities differ or an entry is missing, nothing comes out at all.
-/
namespace ContentAutomata.Tree

/-! ## Tables that have to hold what is looked up -/

/-- Changes the entry of a position, which has to be there. -/
def change? (table : Array BoundedSet) (p : Nat) (f : BoundedSet → Option BoundedSet) :
    Option (Array BoundedSet) := do
  let s ← table[p]?
  let s ← f s
  return table.setIfInBounds p s

/-- Adds `next` to the entry of each position of `ends`. Mirrors `add_follow`. -/
def changeAll? (table : Array BoundedSet) (ends next : BoundedSet) : Option (Array BoundedSet) :=
  ends.set.members.foldlM (fun table p => change? table p (·.union? next)) table

/-! ## The tables of a tree -/

mutual
/-- The positions that a word of the tree may begin with, in sets of capacity `n`. Mirrors
`calc_first_pos`. -/
def first? (n : Nat) : Tree → Option BoundedSet
  | epsilon => some (.empty n)
  | leaf l => (BoundedSet.empty n).insert? l.position
  | counted l _ => (BoundedSet.empty n).insert? l.position
  | closure _ t => do
    let s ← t.first? n
    (BoundedSet.empty n).assign? s
  | joined .choice l r => do
    let s ← l.first? n
    let s ← (BoundedSet.empty n).assign? s
    let s' ← r.first? n
    s.union? s'
  | joined .sequence l r => do
    let s ← l.first? n
    let s ← (BoundedSet.empty n).assign? s
    if l.isNullable then
      let s' ← r.first? n
      s.union? s'
    else return s
  | all ts _ => firstOf? n ts (.empty n)
/-- Adds the positions that a word of some tree of a list may begin with. -/
def firstOf? (n : Nat) : List Tree → BoundedSet → Option BoundedSet
  | [], s => some s
  | t :: ts, s => do
    let s' ← t.first? n
    let s ← s.union? s'
    firstOf? n ts s
end

mutual
/-- The positions that a word of the tree may end with, in sets of capacity `n`. Mirrors
`calc_last_pos`. -/
def last? (n : Nat) : Tree → Option BoundedSet
  | epsilon => some (.empty n)
  | leaf l => (BoundedSet.empty n).insert? l.position
  | counted l _ => (BoundedSet.empty n).insert? l.position
  | closure _ t => do
    let s ← t.last? n
    (BoundedSet.empty n).assign? s
  | joined .choice l r => do
    let s ← r.last? n
    let s ← (BoundedSet.empty n).assign? s
    let s' ← l.last? n
    s.union? s'
  | joined .sequence l r => do
    let s ← r.last? n
    let s ← (BoundedSet.empty n).assign? s
    if r.isNullable then
      let s' ← l.last? n
      s.union? s'
    else return s
  | all ts _ => lastOf? n ts (.empty n)
/-- Adds the positions that a word of some tree of a list may end with. -/
def lastOf? (n : Nat) : List Tree → BoundedSet → Option BoundedSet
  | [], s => some s
  | t :: ts, s => do
    let s' ← t.last? n
    let s ← s.union? s'
    lastOf? n ts s
end

mutual
/-- Adds to a table of sets of capacity `n` which positions follow each other in a word of the tree.
Mirrors `calc_follow_pos`. -/
def follow? (n : Nat) : Tree → Array BoundedSet → Option (Array BoundedSet)
  | epsilon, table => some table
  | leaf _, table => some table
  | counted l m, table =>
    if m.max = some 1 then some table else change? table l.position (·.insert? l.position)
  | closure .optional t, table => t.follow? n table
  | closure .star t, table => do
    let table ← t.follow? n table
    let ends ← t.last? n
    let starts ← t.first? n
    changeAll? table ends starts
  | closure .plus t, table => do
    let table ← t.follow? n table
    let ends ← t.last? n
    let starts ← t.first? n
    changeAll? table ends starts
  | joined .choice l r, table => do
    let table ← l.follow? n table
    r.follow? n table
  | joined .sequence l r, table => do
    let table ← l.follow? n table
    let table ← r.follow? n table
    let ends ← l.last? n
    let starts ← r.first? n
    changeAll? table ends starts
  | all ts _, table => do
    let starts ← firstOf? n ts (.empty n)
    followMembers? n starts ts table
/-- Adds which positions follow each other in a word of some member of an `all` node, and that a
member may be followed by `starts`. -/
def followMembers? (n : Nat) (starts : BoundedSet) : List Tree → Array BoundedSet →
    Option (Array BoundedSet)
  | [], table => some table
  | t :: ts, table => do
    let table ← t.follow? n table
    let ends ← t.last? n
    let table ← changeAll? table ends starts
    followMembers? n starts ts table
end

end ContentAutomata.Tree
