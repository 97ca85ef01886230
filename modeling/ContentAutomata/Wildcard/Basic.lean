import ContentAutomata.Multiplicity
import ContentAutomata.Name
import ContentAutomata.Wildcard.Constraint

/-!
# Element wildcards

A wildcard stands for any element whose namespace its constraint admits. It is a particle of its
own and carries its multiplicity with it, so two wildcards are equal only if that agrees too.
-/
namespace ContentAutomata

/-- An element wildcard. Mirrors `XsdAnyElement`. -/
structure Wildcard where
  /-- The admitted namespaces. -/
  spaces : NamespaceConstraint
  /-- How often the wildcard may occur as a particle. -/
  occurs : Multiplicity
  deriving DecidableEq, Repr

namespace Wildcard

/-- Any element, any number of times. -/
def anything : Wildcard := ⟨.any, .zeroOrMore⟩

/-- Whether the wildcard admits an element of the given name. Mirrors `is_matching`. -/
def allows (w : Wildcard) (name : Name) : Bool := w.spaces.allows name.space

/-- How a wildcard is written: its constraint in parentheses. -/
def text (w : Wildcard) : String := "(" ++ w.spaces.text ++ ")"

end Wildcard

end ContentAutomata
