import ContentAutomata.Automaton.StateTable
import ContentAutomata.Journal
import ContentAutomata.Tree.Positions

/-!
# The automaton of a content model

The automaton of a numbered tree has as its states the sets of positions that may come next, found
one after the other from the set of first positions. One position past the last leaf marks the end
of the content: it follows every position that a word may end with, so a state accepts exactly when
it contains it.

The letters are the particles. Each has one entry, which gathers the positions of all its leaves; an
entry leads from a state to the positions that follow those of its leaves that are in the state.

A state that one of its counted entries leads back to is a *counting state*: there a counter at run
time checks how often the entry was taken.
-/
namespace ContentAutomata

/-- A letter of an automaton: a particle, as its first leaf shows it. Mirrors `ElementMapEntry`. -/
structure Entry where
  /-- What a child is matched against. -/
  term : Term
  /-- The number of the particle. -/
  particle : Nat
  /-- The range that a counter checks, if there is one. -/
  occurs : Option Multiplicity
  deriving DecidableEq, Repr

/-- What is counted in a state. Mirrors `Occurrence`. -/
structure Counter where
  /-- The range that the count has to end up in. -/
  occurs : Multiplicity
  /-- The number of the entry that is counted. -/
  entry : Nat
  deriving DecidableEq, Repr

/-- An automaton over the particles of a content model. Mirrors `DfaContentModel`. -/
structure Automaton where
  /-- The number of leaves of the tree. -/
  leafCount : Nat
  /-- The letters, in the order of their first leaves. -/
  entries : Array Entry
  /-- The positions that may come next, for each state. -/
  states : Array (PositionSet (leafCount + 1))
  /-- For each state and each entry the state that it leads to, if it is allowed there. -/
  rows : Array (Array (Option Nat))
  /-- What is counted in each state, if anything. -/
  counters : Array (Option Counter)
  /-- Whether the automaton only serves to find ambiguities. -/
  isApproximate : Bool

namespace Automaton

/-! ## Letters -/

/-- The entries of a list of leaves, each with the positions of its leaves. -/
abbrev Letters (n : Nat) := Array (Entry × PositionSet n)

/-- Adds a leaf to the entry of its particle, or makes one. -/
def addLeaf {n : Nat} (letters : Letters n) (leaf : Leaf) (occurs : Option Multiplicity) :
    Letters n :=
  match letters.findIdx? (·.1.particle == leaf.particle) with
  | some i => letters.modify i fun (e, positions) => (e, positions.insert leaf.position)
  | none => letters.push (⟨leaf.term, leaf.particle, occurs⟩, .singleton leaf.position)

/-- The entries of a tree. -/
def lettersOf (n : Nat) (t : Tree) : Letters n :=
  t.leaves.foldl (fun letters (leaf, occurs) => addLeaf letters leaf occurs) #[]

/-! ## States -/

/-- The positions that may come after one of `positions` was met in state `s`; `none` if none of
them may be met there. -/
def move {n : Nat} (follow : Tree.FollowTable n) (s positions : PositionSet n) :
    Option (PositionSet n) :=
  let met := s ∩ positions
  if met.isEmpty then none
  else some (met.members.foldl (fun next p => next ∪ follow.after p) ∅)

/-- The state that each entry leads to from state `s`; states met for the first time are added to
the table. -/
def moves {n : Nat} (follow : Tree.FollowTable n) (s : PositionSet n) :
    List (PositionSet n) → StateTable n → List (Option Nat) × StateTable n
  | [], table => ([], table)
  | positions :: rest, table =>
    match move follow s positions with
    | none =>
      let (row, table) := moves follow s rest table
      (none :: row, table)
    | some next =>
      let (target, table) := table.intern next
      let (row, table) := moves follow s rest table
      (some target :: row, table)

/-- Works out the moves of the states of the table one after the other, from the first one that has
no row yet, until every state has one; at most `fuel` of them. -/
def explore {n : Nat} (follow : Tree.FollowTable n) (letters : List (PositionSet n)) :
    (fuel : Nat) → StateTable n → Array (Array (Option Nat)) →
      StateTable n × Array (Array (Option Nat))
  | 0, table, rows => (table, rows)
  | fuel + 1, table, rows =>
    match table.order[rows.size]? with
    | none => (table, rows)
    | some s =>
      let (row, table) := moves follow s letters table
      explore follow letters fuel table (rows.push row.toArray)

/-- Which positions follow each other, where the end of the content is position `leafCount`. -/
def followWithEnd (t : Tree) (leafCount : Nat) : Tree.FollowTable (leafCount + 1) :=
  (t.followTable (leafCount + 1)).addAll (t.last (leafCount + 1)) (.singleton leafCount)

/-- The positions that the content may begin with, the end of the content among them if the content
may be empty. -/
def initial (t : Tree) (leafCount : Nat) : PositionSet (leafCount + 1) :=
  if t.isNullable then (t.first (leafCount + 1)).insert leafCount else t.first (leafCount + 1)

/-- What is counted in state `s`, given its row: the first counted entry that leads back to it. -/
def counterOf (entries : Array Entry) (s : Nat) (row : Array (Option Nat)) : Option Counter :=
  (List.range entries.size).findSome? fun e =>
    match row[e]?.join, entries[e]?.bind (·.occurs) with
    | some target, some occurs => if target = s then some ⟨occurs, e⟩ else none
    | _, _ => none

/-- The automaton of a tree whose leaves are numbered from 0. The number of sets of positions is the
power of two `1 <<< (leafCount + 1)`, so that many steps suffice to find all states. Mirrors
`DfaContentModel.new`. -/
def ofTree (t : Tree) (leafCount : Nat) (isApproximate : Bool) : Automaton :=
  let letters := lettersOf (leafCount + 1) t
  let entries := letters.map (·.1)
  let (_, table) := StateTable.empty.intern (initial t leafCount)
  let (table, rows) :=
    explore (followWithEnd t leafCount) (letters.toList.map (·.2)) (1 <<< (leafCount + 1)) table #[]
  { leafCount, entries, states := table.order, rows, isApproximate,
    counters := rows.mapIdx (counterOf entries) }

/-! ## Looking up -/

/-- The number of states. Mirrors `state_count`. -/
def stateCount (a : Automaton) : Nat := a.rows.size

/-- The state that an entry leads to from a state, if it is allowed there. -/
def target (a : Automaton) (state entry : Nat) : Option Nat :=
  (a.rows[state]?.bind (·[entry]?)).join

/-- Whether the content may end in a state. Mirrors `is_final`. -/
def isFinal (a : Automaton) (state : Nat) : Bool :=
  match a.states[state]? with
  | some s => decide (a.leafCount ∈ s)
  | none => false

/-- What is counted in a state, if anything. -/
def counter (a : Automaton) (state : Nat) : Option Counter := a.counters[state]?.join

/-- What a child is matched against for an entry. -/
def term? (a : Automaton) (entry : Nat) : Option Term := a.entries[entry]?.map (·.term)

/-! ## What is said about it -/

/-- How the target of an entry is written in the log. -/
def targetText : Option Nat → String
  | some target => "Some(" ++ toString target ++ ")"
  | none => "None"

/-- How a row is written in the log. -/
def rowText (row : Array (Option Nat)) : String :=
  "[" ++ ", ".intercalate (row.toList.map targetText) ++ "]"

/-- What is said about each state of an automaton. -/
def stateEvents (a : Automaton) : List Event :=
  ((List.range a.rows.size).zip (a.states.toList.zip a.rows.toList)).map fun (i, s, row) =>
    .trace ("state " ++ toString i ++ " " ++ s.text ++ " -> " ++ rowText row)

/-- What is said when an automaton is complete. -/
def summary (a : Automaton) : Event :=
  .debug ("built content model automaton: " ++ toString a.leafCount ++ " positions, " ++
    toString a.entries.size ++ " symbols, " ++ toString a.stateCount ++ " states")

/-- What is said while an automaton is made, up to the given level of detail. -/
def events (a : Automaton) (level : Level) : List Event :=
  (if level = .trace then a.stateEvents else []) ++ [a.summary]

end Automaton

end ContentAutomata
