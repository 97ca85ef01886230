import ContentAutomata.Automaton.Run
import ContentAutomata.Tree.Guarded

/-!
# Automata with every access checked

An automaton is made from tables: of entries, of the positions that belong to them, of followers, of
states found so far, and of rows that are filled in column by column. Here it is made once more with
every access checked. Sets carry their capacity, an entry that is looked up or written has to be
there, and the search for states has to have come to its end. Where anything of this fails, no
automaton is made.

A run looks things up in the same tables: the row of its state, the column of an entry, what is
counted in the state and in the state that it goes to. Where something is missing, there is no
result.
-/
namespace ContentAutomata.Automaton

/-! ## Entries -/

/-- Adds a leaf to the entry of its particle, or makes one; each entry has a list of positions. -/
def sortLeaf? : Array Entry × Array (List Nat) → Leaf × Option Multiplicity →
    Option (Array Entry × Array (List Nat))
  | (entries, sorter), (leaf, occurs) =>
    match entries.findIdx? (·.particle == leaf.particle) with
    | some e => do
      let _ ← sorter[e]?
      return (entries, sorter.modify e (· ++ [leaf.position]))
    | none =>
      return (entries.push ⟨leaf.term, leaf.particle, occurs⟩, sorter.push [leaf.position])

/-- The entries of a list of leaves, and the positions of each. -/
def sortLeaves? (leaves : List (Leaf × Option Multiplicity)) :
    Option (Array Entry × Array (List Nat)) := leaves.foldlM sortLeaf? (#[], #[])

/-! ## Rows -/

/-- Gathers what follows those of the given positions that are in a state, and whether there are
any. -/
def gather? (follow : Array BoundedSet) (s : BoundedSet) :
    List Nat → BoundedSet → Bool → Option (BoundedSet × Bool)
  | [], next, isMet => some (next, isMet)
  | p :: ps, next, isMet => do
    if ← s.contains? p then
      let after ← follow[p]?
      let next ← next.union? after
      gather? follow s ps next true
    else gather? follow s ps next isMet

/-- The number of a set among the states found so far; a new one is added at the end. -/
def place (states : Array BoundedSet) (s : BoundedSet) : Nat × Array BoundedSet :=
  match states.findIdx? (· == s) with
  | some i => (i, states)
  | none => (states.size, states.push s)

/-- Writes a column of a row, which has to be there. -/
def write? (row : Array (Option Nat)) (e target : Nat) : Option (Array (Option Nat)) :=
  if e < row.size then some (row.setIfInBounds e (some target)) else none

/-- Fills in a row, from column `e` on: the number of the set that each letter leads to. -/
def moves? (n : Nat) (follow : Array BoundedSet) (s : BoundedSet) : List (List Nat) → (e : Nat) →
    Array (Option Nat) → Array BoundedSet → Option (Array (Option Nat) × Array BoundedSet)
  | [], _, row, states => some (row, states)
  | positions :: rest, e, row, states => do
    let (next, isMet) ← gather? follow s positions (.empty n) false
    if isMet then
      let (target, states) := place states next
      let row ← write? row e target
      moves? n follow s rest (e + 1) row states
    else moves? n follow s rest (e + 1) row states

/-- Fills in the rows of the states one after the other, until every state has one; this has to
take less than `fuel` rounds. -/
def explore? (n : Nat) (follow : Array BoundedSet) (sorter : Array (List Nat)) (columns : Nat) :
    (fuel : Nat) → Array BoundedSet → Array (Array (Option Nat)) →
      Option (Array BoundedSet × Array (Array (Option Nat)))
  | 0, _, _ => none
  | fuel + 1, states, rows =>
    match states[rows.size]? with
    | none => some (states, rows)
    | some s => do
      let (row, states) ← moves? n follow s sorter.toList 0 (Array.replicate columns none) states
      explore? n follow sorter columns fuel states (rows.push row)

/-! ## The tables of an automaton -/

/-- What is counted in a state, given the part of its row from column `e` on. -/
def counterOf? (entries : Array Entry) (state : Nat) :
    List (Option Nat) → (e : Nat) → Option (Option Counter)
  | [], _ => some none
  | target :: row, e => do
    let entry ← entries[e]?
    match target, entry.occurs with
    | some target, some occurs =>
      if target = state then return some ⟨occurs, e⟩
      else counterOf? entries state row (e + 1)
    | _, _ => counterOf? entries state row (e + 1)

/-- The tables that an automaton is kept in. -/
structure Tables where
  entries : Array Entry
  /-- The positions that may come next, for each state. -/
  states : Array BoundedSet
  rows : Array (Array (Option Nat))
  /-- Whether the content may end, for each state. -/
  finals : Array Bool
  counters : Array (Option Counter)

/-- Which positions follow each other, the end of the content being position `leafCount`. -/
def followWithEnd? (t : Tree) (leafCount : Nat) : Option (Array BoundedSet) := do
  let n := leafCount + 1
  let table ← t.follow? n (Array.replicate n (.empty n))
  let ends ← t.last? n
  ends.set.members.foldlM (fun table p => Tree.change? table p (·.insert? leafCount)) table

/-- The positions that the content may begin with. -/
def initial? (t : Tree) (leafCount : Nat) : Option BoundedSet := do
  let starts ← t.first? (leafCount + 1)
  if t.isNullable then starts.insert? leafCount else return starts

/-- Adds to the rows which states are final, those that hold position `leafCount`, and what is
counted. -/
def complete? (leafCount : Nat) (entries : Array Entry) (states : Array BoundedSet)
    (rows : Array (Array (Option Nat))) : Option Tables := do
  let finals ← states.toList.mapM (·.contains? leafCount)
  let counters ← rows.toList.zipIdx.mapM fun (row, state) => counterOf? entries state row.toList 0
  return ⟨entries, states, rows, finals.toArray, counters.toArray⟩

/-- Makes the tables of a tree whose leaves are numbered from 0. The search for states has to take
less than `fuel` rounds. Mirrors `DfaContentModel.new`. -/
def construct? (fuel : Nat) (t : Tree) (leafCount : Nat) : Option Tables := do
  let follow ← followWithEnd? t leafCount
  let (entries, sorter) ← sortLeaves? t.leaves
  let initial ← initial? t leafCount
  let (states, rows) ←
    explore? (leafCount + 1) follow sorter entries.size fuel (place #[] initial).2 #[]
  complete? leafCount entries states rows

/-! ## Running -/

namespace Tables

/-- The first entry of a list that is allowed in a row and accepts a name, and the state it leads
to. -/
def firstOf? (a : Tables) (row : Array (Option Nat)) (name : Name) :
    List Nat → Option (Option (Nat × Nat))
  | [] => some none
  | e :: es => do
    match ← row[e]? with
    | none => a.firstOf? row name es
    | some next =>
      let entry ← a.entries[e]?
      if entry.term.accepts name then return some (e, next) else a.firstOf? row name es

/-- The same for all entries from `least` on. -/
def choose? (a : Tables) (row : Array (Option Nat)) (name : Name) (least : Nat) :
    Option (Option (Nat × Nat)) :=
  a.firstOf? row name (List.range' least (a.entries.size - least))

/-- Goes to a state by way of an entry. Mirrors `DfaContentModel.enter`. -/
def enter? (a : Tables) (s : State) (e next : Nat) : Option State := do
  match ← a.counters[next]? with
  | some c => return { s with current := next, count := if e = c.entry then 1 else 0 }
  | none => return { s with current := next }

/-- Attributes a child to an entry. -/
def take? (a : Tables) (e : Nat) (s : State) : Option (Option Term × State) := do
  let entry ← a.entries[e]?
  return (some entry.term, s)

/-- Attributes a child to an entry and goes to the state that it leads to. -/
def proceed? (a : Tables) (s : State) (e next : Nat) : Option (Option Term × State) := do
  let s ← a.enter? s e next
  a.take? e s

/-- Takes a child: the term it is attributed to, if it is not refused, and where the run stands
afterwards. Mirrors `DfaContentModel.step` with `find_alternative`. -/
def step? (a : Tables) (s : State) (name : Name) : Option (Option Term × State) := do
  if s.failed then return (none, s)
  let row ← a.rows[s.current]?
  match ← a.choose? row name 0 with
  | none => return (none, s.fail)
  | some (e, next) =>
    match ← a.counters[s.current]? with
    | none => a.proceed? s e next
    | some c =>
      if next = s.current then
        let s := { s with count := s.count + 1 }
        if c.occurs.isExceeded s.count then
          let row ← a.rows[s.current]?
          match ← a.choose? row name (e + 1) with
          | some (e, next) => a.proceed? s e next
          | none => return (none, s.fail)
        else a.take? e s
      else if c.occurs.isMissing s.count then return (none, s.fail)
      else a.proceed? s e next

/-- Where a run stands after some children. -/
def run? (a : Tables) (names : List Name) : Option State :=
  names.foldlM (fun s name => (a.step? s name).map (·.2)) start

/-- Whether the children so far are complete content. A state that is not listed is not final.
Mirrors `DfaContentModel.end`. -/
def isComplete? (a : Tables) (s : State) : Option Bool :=
  if s.failed || !(a.finals[s.current]?.getD false) then some false
  else do
    match ← a.counters[s.current]? with
    | some c => return !c.occurs.isMissing s.count
    | none => return true

/-- The term of an entry if it may be taken, given what is counted. -/
def offer? (a : Tables) (c : Option Counter) (s : State) :
    Option Nat × Nat → Option (Option Term)
  | (none, _) => some none
  | (some next, e) =>
    let isAllowed := match c with
      | some c => if next = s.current then !c.occurs.isFull s.count else !c.occurs.isMissing s.count
      | none => true
    if isAllowed then a.entries[e]?.map fun entry => some entry.term else some none

/-- The terms that a next child may be matched against, in the order of the entries. Mirrors
`DfaContentModel.expected`. -/
def expected? (a : Tables) (s : State) : Option (List Term) := do
  let c ← a.counters[s.current]?
  let row ← a.rows[s.current]?
  let terms ← row.toList.zipIdx.mapM (a.offer? c s)
  return terms.filterMap id

end Tables

end ContentAutomata.Automaton
