import ContentAutomata.Attribution
import ContentAutomata.Automaton.Run

/-!
# Content models and runs over children

A content model says which sequences of children an element may have. It admits no children at all,
or is an automaton, or an `all` group. A `Run` is a model together with a point reached in going
through the children of an element; it takes them one by one and says after each which terms may
come next and whether the content is complete.

`Model.validate` goes through all children: its verdict is that they are valid, that one of them
does not fit, or that more should follow.

Results:
* `step_of_hasFailed`, `isComplete_of_hasFailed`: a run that refused a child stays as it is and is
  never complete.
-/
namespace ContentAutomata

/-- A compiled content model. Mirrors the three kinds of `ContentModel`. -/
inductive Model where
  /-- No children are allowed. -/
  | empty
  | automaton (automaton : Automaton)
  | all (group : AllGroup)

namespace Model

/-- Whether the model only serves to find ambiguities. Mirrors `is_compacted_for_upa`. -/
def isApproximate : Model → Bool
  | automaton a => a.isApproximate
  | _ => false

/-- The pairs of particles that some child could be attributed to. -/
def ambiguities : Model → List Ambiguity
  | empty => []
  | automaton a => a.ambiguities
  | all g => g.ambiguities

end Model

/-! ## Runs -/

/-- A model and a point reached in going through the children of an element. Mirrors `CmState`. -/
inductive Run where
  | empty (failed : Bool)
  | automaton (automaton : Automaton) (state : Automaton.State)
  | all (group : AllGroup) (state : AllGroup.State)

/-- The run of a model that has not met a child yet. -/
def Model.start : Model → Run
  | empty => .empty false
  | automaton a => .automaton a Automaton.start
  | all g => .all g g.start

namespace Run

/-- Whether a child was refused. -/
def hasFailed : Run → Bool
  | empty failed => failed
  | automaton _ s => s.failed
  | all _ s => s.failed

/-- A number for the point reached: the state of an automaton, or how many children were counted
for an `all` group. -/
def current : Run → Nat
  | empty _ => 0
  | automaton _ s => s.current
  | all _ s => s.taken

/-- Takes a child: the particle it is attributed to if it is not refused, and the run afterwards. -/
def step : Run → Name → Option Claimant × Run
  | empty _, _ => (none, empty true)
  | automaton a s, name =>
    let (entry, s) := a.step s name
    ((entry.bind (a.entries[·]?)).map Entry.claimant, automaton a s)
  | all g s, name =>
    let (found, s) := g.step s name
    (found.map AllGroup.Member.claimant, all g s)

/-- Whether the children so far are complete content. -/
def isComplete : Run → Bool
  | empty failed => !failed
  | automaton a s => a.isComplete s
  | all g s => g.isComplete s

/-- The terms that a next child may be matched against. -/
def expected : Run → List Term
  | empty _ => []
  | automaton a s => a.expected s
  | all g s => g.expected s

theorem step_of_hasFailed {r : Run} (h : r.hasFailed = true) (name : Name) :
    r.step name = (none, r) := by
  cases r with
  | empty failed =>
    simp only [hasFailed] at h
    subst h
    rfl
  | automaton a s => simp [step, Automaton.step_of_failed (a := a) (s := s) h]
  | all g s => simp [step, AllGroup.step_of_failed (g := g) (s := s) h]

theorem isComplete_of_hasFailed {r : Run} (h : r.hasFailed = true) : r.isComplete = false := by
  cases r with
  | empty failed => simpa [isComplete, hasFailed] using h
  | automaton a s => exact Automaton.isComplete_of_failed h
  | all g s =>
    simp only [hasFailed] at h
    simp [isComplete, AllGroup.isComplete, h]

end Run

/-! ## Verdicts -/

/-- The verdict on the children of an element. Mirrors `ValidationResult`. -/
inductive Verdict where
  | valid
  /-- The child at this index does not fit. -/
  | invalid (index : Nat)
  /-- All these children fit, but more should follow. -/
  | incomplete (length : Nat)
  deriving DecidableEq, Repr

namespace Verdict

/-- Whether the children are valid. -/
def isValid : Verdict → Bool
  | valid => true
  | _ => false

/-- How a verdict is written. -/
def text : Verdict → String
  | valid => "valid"
  | invalid index => "invalid child at index " ++ toString index
  | incomplete length => "content incomplete after " ++ toString length ++ " children"

end Verdict

/-- The verdict on children from the run on, `index` of which were taken before. Mirrors the loop of
`validate`. -/
def Run.verdict : Run → (index : Nat) → List Name → Verdict
  | r, index, [] => if r.isComplete then .valid else .incomplete index
  | r, index, name :: names =>
    match r.step name with
    | (none, _) => .invalid index
    | (some _, r) => r.verdict (index + 1) names

/-- The verdict on all children of an element. Mirrors `validate`. -/
def Model.validate (m : Model) (children : List Name) : Verdict := m.start.verdict 0 children

/-- A range of children that goes beyond their number. -/
structure RangeFault where
  offset : Nat
  length : Nat
  /-- The number of children. -/
  count : Nat
  deriving DecidableEq, Repr

/-- The wording of a range that goes too far. -/
def RangeFault.message (f : RangeFault) : String :=
  "range " ++ toString f.offset ++ ".." ++ toString f.offset ++ "+" ++ toString f.length ++
    " out of bounds for " ++ toString f.count ++ " children"

/-- The verdict on `length` children from `offset` on, as if they were all. Mirrors
`validate_range`. -/
def Model.validateRange (m : Model) (children : List Name) (offset length : Nat) :
    Except RangeFault Verdict :=
  if offset + length ≤ children.length then
    .ok (m.validate ((children.drop offset).take length))
  else .error ⟨offset, length, children.length⟩

end ContentAutomata
