import ContentAutomata.Position.Set
import ContentAutomata.Tree.Basic

/-!
# Where the words of a tree begin, end and go on

The leaves of a numbered tree are read as the letters of a regular expression. For each subtree this
module computes whether it matches the empty word, the positions its words may begin with, those
they may end with, and, for every position, the positions that may directly follow it. These sets
are what the automaton is built from.

A counted leaf is followed by itself unless it may occur at most once; how often is left to the
counter. The members of an `all` node may come in any order, so every end of a member is followed by
every beginning.

Sets of positions are below a bound `n`, one more than the number of leaves where an automaton is
built, which leaves the position `n - 1` for the end of the content.

Results:
* `allNullable_eq`: the members of an `all` node are nullable together when each of them is;
* `size_add`, `after_add`: adding to a table of followers adds to the entry of one position.
-/
namespace ContentAutomata.Tree

/-! ## The empty word -/

mutual
/-- Whether the tree matches the empty word. Mirrors `is_nullable`. -/
def isNullable : Tree → Bool
  | epsilon => true
  | leaf _ => false
  | counted _ m => m.min == 0
  | closure .optional _ => true
  | closure .star _ => true
  | closure .plus t => t.isNullable
  | joined .choice l r => l.isNullable || r.isNullable
  | joined .sequence l r => l.isNullable && r.isNullable
  | all ts m => m.min == 0 || allNullable ts
/-- Whether every tree of a list matches the empty word. -/
def allNullable : List Tree → Bool
  | [] => true
  | t :: ts => t.isNullable && allNullable ts
end

theorem allNullable_eq (ts : List Tree) : allNullable ts = ts.all isNullable := by
  induction ts with
  | nil => rfl
  | cons t ts ih => simp [allNullable, ih]

/-! ## First and last positions -/

mutual
/-- The positions that a word of the tree may begin with. Mirrors `calc_first_pos`. -/
def first (n : Nat) : Tree → PositionSet n
  | epsilon => ∅
  | leaf l => .singleton l.position
  | counted l _ => .singleton l.position
  | closure _ t => first n t
  | joined .choice l r => first n l ∪ first n r
  | joined .sequence l r => if l.isNullable then first n l ∪ first n r else first n l
  | all ts _ => firstOf n ts
/-- The positions that a word of some tree of a list may begin with. -/
def firstOf (n : Nat) : List Tree → PositionSet n
  | [] => ∅
  | t :: ts => first n t ∪ firstOf n ts
end

mutual
/-- The positions that a word of the tree may end with. Mirrors `calc_last_pos`. -/
def last (n : Nat) : Tree → PositionSet n
  | epsilon => ∅
  | leaf l => .singleton l.position
  | counted l _ => .singleton l.position
  | closure _ t => last n t
  | joined .choice l r => last n l ∪ last n r
  | joined .sequence l r => if r.isNullable then last n l ∪ last n r else last n r
  | all ts _ => lastOf n ts
/-- The positions that a word of some tree of a list may end with. -/
def lastOf (n : Nat) : List Tree → PositionSet n
  | [] => ∅
  | t :: ts => last n t ∪ lastOf n ts
end

/-! ## Following positions -/

/-- For each position, the positions that may directly follow it. -/
abbrev FollowTable (n : Nat) := Array (PositionSet n)

/-- Adds `next` to what may follow position `p`. -/
def FollowTable.add {n : Nat} (table : FollowTable n) (p : Nat) (next : PositionSet n) :
    FollowTable n :=
  table.modify p (· ∪ next)

/-- Adds `next` to what may follow each position of `ends`. Mirrors `add_follow`. -/
def FollowTable.addAll {n : Nat} (table : FollowTable n) (ends next : PositionSet n) :
    FollowTable n :=
  ends.members.foldl (fun table p => table.add p next) table

/-- The positions that may directly follow `p`. -/
def FollowTable.after {n : Nat} (table : FollowTable n) (p : Nat) : PositionSet n :=
  table[p]?.getD ∅

mutual
/-- Adds to a table which positions follow each other in a word of the tree. Mirrors
`calc_follow_pos`. -/
def follow {n : Nat} : Tree → FollowTable n → FollowTable n
  | epsilon, table => table
  | leaf _, table => table
  | counted l m, table =>
    if m.max = some 1 then table else table.add l.position (.singleton l.position)
  | closure .optional t, table => t.follow table
  | closure .star t, table => (t.follow table).addAll (last n t) (first n t)
  | closure .plus t, table => (t.follow table).addAll (last n t) (first n t)
  | joined .choice l r, table => r.follow (l.follow table)
  | joined .sequence l r, table => (r.follow (l.follow table)).addAll (last n l) (first n r)
  | all ts _, table => followMembers (firstOf n ts) ts table
/-- Adds which positions follow each other in a word of some member of an `all` node, and that a
member may be followed by what any member begins with. -/
def followMembers {n : Nat} (starts : PositionSet n) : List Tree → FollowTable n → FollowTable n
  | [], table => table
  | t :: ts, table => followMembers starts ts ((t.follow table).addAll (last n t) starts)
end

/-- Which positions follow each other in a word of the tree. -/
def followTable (t : Tree) (n : Nat) : FollowTable n := t.follow (Array.replicate n ∅)

/-! ## What the operations on tables do -/

namespace FollowTable

variable {n : Nat}

@[simp] theorem size_add (table : FollowTable n) (p : Nat) (next : PositionSet n) :
    (table.add p next).size = table.size := by
  simp [add]

theorem after_add {table : FollowTable n} {p q : Nat} {next : PositionSet n}
    (hp : p < table.size) :
    (table.add p next).after q = if p = q then table.after q ∪ next else table.after q := by
  simp only [after, add, Array.getElem?_modify]
  split
  · rename_i h
    subst h
    simp [hp]
  · rfl

end FollowTable

end ContentAutomata.Tree
