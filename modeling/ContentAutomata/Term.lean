import ContentAutomata.Wildcard.Basic

/-!
# Terms: what a single child is matched against

A term is an element name or a wildcard. Two terms overlap when some element could be attributed to
either; that is what makes a content model ambiguous.

Results:
* `overlaps_comm`: overlap is symmetric;
* `overlaps_element`: an element name overlaps exactly the terms that accept it.
-/
namespace ContentAutomata

/-- An element name or a wildcard. -/
inductive Term where
  | element (name : Name)
  | wildcard (wildcard : Wildcard)
  deriving DecidableEq, Repr

namespace Term

/-- Whether an element of the given name may stand for the term. Mirrors `Term.matches`. -/
def accepts : Term → Name → Bool
  | element n, name => n == name
  | wildcard w, name => w.allows name

/-- Whether some element may stand for both terms. Mirrors `Term.overlaps`. -/
def overlaps : Term → Term → Bool
  | element n, t => t.accepts n
  | t, element n => t.accepts n
  | wildcard v, wildcard w => v.spaces.overlaps w.spaces

/-- The element name, if the term is one. -/
def name? : Term → Option Name
  | element n => some n
  | wildcard _ => none

/-- The form of the wildcard, if the term is one. -/
def constraintKind? : Term → Option ConstraintKind
  | element _ => none
  | wildcard w => some w.spaces.kind

/-- How a term is written. -/
def text : Term → String
  | element n => n.text
  | wildcard w => w.text

@[simp] theorem accepts_element {n name : Name} : (element n).accepts name = true ↔ n = name := by
  simp [accepts]

theorem overlaps_element (n : Name) (t : Term) : (element n).overlaps t = t.accepts n := rfl

theorem overlaps_comm (s t : Term) : s.overlaps t = t.overlaps s := by
  cases s <;> cases t <;>
    simp [overlaps, accepts, NamespaceConstraint.overlaps_comm, Bool.beq_comm]

end Term

end ContentAutomata
