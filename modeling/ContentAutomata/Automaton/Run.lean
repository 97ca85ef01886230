import ContentAutomata.Automaton.Basic

/-!
# Running an automaton over the children of an element

A run is in a state of the automaton. A child is attributed to the first entry that is allowed in
the state and accepts the child's name, and the run goes to the state that the entry leads to.

In a counting state a counter, a 32-bit word, holds how often the counted entry was taken. Staying
in the state counts one up. If the count then exceeds its range, the next allowed entry that accepts
the name is taken instead. Going to another state is refused as long as the count falls short of its
range.

A run that has refused a child has failed: it accepts no more children and is never complete.

Results:
* `step_of_failed`, `isComplete_of_failed`: nothing changes in a failed run, and it is not complete.
-/
namespace ContentAutomata.Automaton

/-- Where a run of an automaton stands. Mirrors `CmState`. -/
structure State where
  /-- The state of the automaton. -/
  current : Nat
  /-- How often the counted entry was taken, in a counting state. -/
  count : UInt32
  /-- Whether a child was refused. -/
  failed : Bool
  deriving DecidableEq, Repr

/-- Where every run starts. Mirrors `DfaContentModel.start`. -/
def start : State := ⟨0, 0, false⟩

/-- The first entry from `least` on that is allowed in a state and accepts a name, and the state it
leads to. Mirrors the search in `DfaContentModel.step` and in `find_alternative`. -/
def choose (a : Automaton) (state : Nat) (name : Name) (least : Nat) : Option (Nat × Nat) :=
  (List.range' least (a.entries.size - least)).findSome? fun entry =>
    match a.target state entry, a.term? entry with
    | some next, some term => if term.accepts name then some (entry, next) else none
    | _, _ => none

/-- Goes to a state by way of an entry. A count begins with 1 if it is the counted entry, and with 0
otherwise. Mirrors `DfaContentModel.enter`. -/
def enter (a : Automaton) (s : State) (entry next : Nat) : State :=
  match a.counter next with
  | some c => { s with current := next, count := if entry = c.entry then 1 else 0 }
  | none => { s with current := next }

/-- Refuses a child. -/
def State.fail (s : State) : State := { s with failed := true }

/-- Takes a child: the entry it is attributed to, if it is not refused, and where the run stands
afterwards. Mirrors `DfaContentModel.step` with `find_alternative`. -/
def step (a : Automaton) (s : State) (name : Name) : Option Nat × State :=
  if s.failed then (none, s)
  else match a.choose s.current name 0 with
    | none => (none, s.fail)
    | some (entry, next) =>
      match a.counter s.current with
      | none => (some entry, a.enter s entry next)
      | some c =>
        if next = s.current then
          let s := { s with count := s.count + 1 }
          if c.occurs.isExceeded s.count then
            match a.choose s.current name (entry + 1) with
            | some (entry, next) => (some entry, a.enter s entry next)
            | none => (none, s.fail)
          else (some entry, s)
        else if c.occurs.isMissing s.count then (none, s.fail)
        else (some entry, a.enter s entry next)

/-- Whether the children so far are complete content. Mirrors `DfaContentModel.end`. -/
def isComplete (a : Automaton) (s : State) : Bool :=
  !s.failed && a.isFinal s.current &&
    match a.counter s.current with
    | some c => !c.occurs.isMissing s.count
    | none => true

/-- Whether an entry that leads to `next` may be taken, as far as the count is concerned. -/
def countAllows (a : Automaton) (s : State) (next : Nat) : Bool :=
  match a.counter s.current with
  | some c => if next = s.current then !c.occurs.isFull s.count else !c.occurs.isMissing s.count
  | none => true

/-- The terms that a next child may be matched against, in the order of the entries. Mirrors
`DfaContentModel.expected`. -/
def expected (a : Automaton) (s : State) : List Term :=
  (List.range a.entries.size).filterMap fun entry =>
    match a.target s.current entry with
    | some next => if a.countAllows s next then a.term? entry else none
    | none => none

@[simp] theorem step_of_failed {a : Automaton} {s : State} (h : s.failed = true) (name : Name) :
    a.step s name = (none, s) := by
  simp [step, h]

theorem isComplete_of_failed {a : Automaton} {s : State} (h : s.failed = true) :
    a.isComplete s = false := by
  simp [isComplete, h]

end ContentAutomata.Automaton
