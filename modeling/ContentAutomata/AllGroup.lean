import ContentAutomata.Journal
import ContentAutomata.Tree.Positions

/-!
# Groups whose members come in any order

The content model of an `all` group needs no automaton: each member has a count, and a child is
counted for the first member that accepts its name and has room left. The content is complete when
no member falls short, or when the group may be absent and no child came.

Results:
* `step_of_failed`: a run that refused a child refuses every further one and stays as it is.
-/
namespace ContentAutomata

/-- A member of an `all` group. Mirrors `AllMember`. -/
structure AllGroup.Member where
  /-- What a child is matched against. -/
  term : Term
  /-- The number of the particle. -/
  particle : Nat
  /-- How often the member may occur. -/
  occurs : Multiplicity
  deriving DecidableEq, Repr

/-- The content model of an `all` group. Mirrors `AllContentModel`. -/
structure AllGroup where
  /-- The members in document order. -/
  members : List AllGroup.Member
  /-- Whether the group may be absent. -/
  isNullable : Bool
  deriving DecidableEq, Repr

namespace AllGroup

/-- The member that a leaf of a tree stands for; other trees stand for none. -/
def memberOf : Tree → Option Member
  | .leaf l => some ⟨l.term, l.particle, .once⟩
  | .counted l m => some ⟨l.term, l.particle, m⟩
  | _ => none

/-- The content model of an `all` node; any other tree is taken for the only member of one. Mirrors
`AllContentModel.new`. -/
def ofTree (t : Tree) : AllGroup :=
  match t with
  | .all ts _ => ⟨ts.filterMap memberOf, t.isNullable⟩
  | t => ⟨(memberOf t).toList, t.isNullable⟩

/-- What is said when the content model is complete. -/
def summary (g : AllGroup) : Event :=
  .debug ("built all-group content model with " ++ toString g.members.length ++ " members")

/-! ## Runs -/

/-- Where a run over the children stands. Mirrors the counts of `CmState`. -/
structure State where
  /-- How many children were counted for each member. -/
  counts : List UInt32
  /-- How many children were counted. -/
  taken : Nat
  /-- Whether a child was refused. -/
  failed : Bool
  deriving DecidableEq, Repr

/-- Where every run starts. Mirrors `AllContentModel.start`. -/
def start (g : AllGroup) : State := ⟨g.members.map fun _ => 0, 0, false⟩

/-- Counts a child for the first member that accepts its name and has room left: the member and the
counts afterwards. Mirrors the loop of `AllContentModel.step`. -/
def count (name : Name) : List Member → List UInt32 → Option (Member × List UInt32)
  | m :: ms, c :: cs =>
    if m.term.accepts name && !m.occurs.isFull c then some (m, (c + 1) :: cs)
    else (count name ms cs).map fun (found, cs) => (found, c :: cs)
  | _, _ => none

/-- Takes a child: the member it is attributed to, if it is not refused, and where the run stands
afterwards. Mirrors `AllContentModel.step`. -/
def step (g : AllGroup) (s : State) (name : Name) : Option Member × State :=
  if s.failed then (none, s)
  else match count name g.members s.counts with
    | some (found, counts) => (some found, { s with counts, taken := s.taken + 1 })
    | none => (none, { s with failed := true })

/-- Whether the children so far are complete content. Mirrors `AllContentModel.end`. -/
def isComplete (g : AllGroup) (s : State) : Bool :=
  !s.failed &&
    ((g.isNullable && s.counts.all (· == 0)) ||
      (g.members.zip s.counts).all fun (m, c) => !m.occurs.isMissing c)

/-- The terms that a next child may be matched against, in document order. Mirrors
`AllContentModel.expected`. -/
def expected (g : AllGroup) (s : State) : List Term :=
  (g.members.zip s.counts).filterMap fun (m, c) =>
    if m.occurs.isFull c then none else some m.term

@[simp] theorem step_of_failed {g : AllGroup} {s : State} (h : s.failed = true) (name : Name) :
    g.step s name = (none, s) := by
  simp [step, h]

end AllGroup

end ContentAutomata
