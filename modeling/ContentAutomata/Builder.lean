import ContentAutomata.Model
import ContentAutomata.Tree.Draft

/-!
# Compiling content models

A builder compiles particles under limits that may be changed between one particle and the next. It
keeps a ledger of the nodes it pays for and clears it after each particle, whatever the outcome. How
far the terms of the last particle were numbered stays as it is until numbering starts anew.

An `all` group at the top needs no tree of the usual kind: its members are drawn up as counted
leaves of an `all` node. Any other particle is compiled by way of its syntax tree.

What is said is what was said while the particle was drawn up, and then what the outcome has to say:
`Builder.treeJournal` and `Builder.buildJournal`. That a refusal is reported once, whatever came
before it, makes all of it depend on the outcome only: `Builder.treeEvents` and
`Builder.buildEvents`.

Results:
* `run_limits`, `run_spent`: drawing up a tree leaves the limits as they are and a cleared ledger.
-/
namespace ContentAutomata

/-- A model, and the syntax tree it was made from; an `all` group has none. -/
structure Compilation where
  tree : Option SyntaxTree
  model : Model

namespace Compilation

/-- Compiles an `all` group. Mirrors `create_all_cm`. -/
def allGroup (members : List Particle) (m : Multiplicity) : Draft Compilation := do
  match ← Draft.allGroup members m with
  | some t => return ⟨none, .all (.ofTree t)⟩
  | none => return ⟨none, .empty⟩

/-- The model of a syntax tree. -/
def ofTree (t : SyntaxTree) : Compilation :=
  match t.root with
  | some root => ⟨some t, .automaton (.ofTree root t.leafCount t.isApproximate)⟩
  | none => ⟨some t, .empty⟩

/-- Compiles a particle. Mirrors `CmBuilder.compile`. -/
def ofParticle (limits : Limits) (purpose : Purpose) : Particle → Draft Compilation
  | .group .all members m => allGroup members m
  | p => ofTree <$> SyntaxTree.draft limits purpose p

/-- What is said when a particle was compiled, up to the given level of detail. -/
def events (c : Compilation) (level : Level) : List Event :=
  (match c.tree with
    | some t => t.events
    | none => []) ++
  match c.model with
  | .empty => []
  | .automaton a => a.events level
  | .all g => [g.summary]

end Compilation

/-- Compiles particles one after the other. Mirrors `CmBuilder`. -/
structure Builder where
  limits : Limits
  ledger : Ledger
  /-- How far the terms of the last particle were numbered. -/
  nextParticle : Nat
  /-- What was said while the last particle was drawn up. -/
  said : List Event
  deriving DecidableEq, Repr

namespace Builder

/-- A builder that has not compiled anything yet. Mirrors `CmBuilder.new`. -/
def new (limits : Limits) : Builder := ⟨limits, .ofLimits limits, 0, []⟩

/-- Changes the limits. Mirrors `set_limits`. -/
def setLimits (b : Builder) (limits : Limits) : Builder :=
  { b with limits, ledger := .ofLimits limits }

/-- What a draft finds at its start. -/
def start (b : Builder) : Draft.State := ⟨b.ledger, b.nextParticle, []⟩

/-- The builder after something was drawn up, or until it was refused: its ledger is cleared. -/
def resume (b : Builder) (s : Draft.State) : Builder :=
  { b with ledger := s.ledger.clear, nextParticle := s.nextParticle, said := s.said }

/-- Draws up something and clears the ledger. Mirrors how `build` and `build_tree` call
`reset_node_count`. -/
def run {α : Type} (b : Builder) (draft : Draft α) : Except Error α × Builder :=
  match draft b.start with
  | .ok (a, s) => (.ok a, b.resume s)
  | .error failure => (.error failure.error, b.resume failure.state)

/-- The syntax tree of a particle. Mirrors `build_tree`. -/
def syntaxTree (b : Builder) (p : Particle) (purpose : Purpose) :
    Except Error SyntaxTree × Builder :=
  b.run (SyntaxTree.draft b.limits purpose p)

/-- The model of a particle. Mirrors `CmBuilder.build`. -/
def build (b : Builder) (p : Particle) (purpose : Purpose) : Except Error Compilation × Builder :=
  b.run (Compilation.ofParticle b.limits purpose p)

/-- What is said when a syntax tree was asked for. -/
def treeJournal (r : Except Error SyntaxTree × Builder) : List Event :=
  r.2.said ++
    match r.1 with
    | .ok t => t.events
    | .error _ => []

/-- What is said when a model was asked for, up to the given level of detail. -/
def buildJournal (level : Level) (r : Except Error Compilation × Builder) : List Event :=
  r.2.said ++
    match r.1 with
    | .ok c => c.events level
    | .error e => [.debug ("content model compilation failed: " ++ e.text)]

/-- What the outcome of drawing up a syntax tree has to say. -/
def treeEvents : Except Error SyntaxTree → List Event
  | .ok t => t.events
  | .error e => e.events

/-- What the outcome of compiling a particle has to say, up to the given level of detail. -/
def buildEvents (level : Level) : Except Error Compilation → List Event
  | .ok c => c.events level
  | .error e => e.events ++ [.debug ("content model compilation failed: " ++ e.text)]

@[simp] theorem run_limits {α : Type} (b : Builder) (draft : Draft α) :
    (b.run draft).2.limits = b.limits := by
  unfold run
  split <;> rfl

@[simp] theorem run_spent {α : Type} (b : Builder) (draft : Draft α) :
    (b.run draft).2.ledger.spent = 0 := by
  unfold run
  split <;> rfl

end Builder

end ContentAutomata
