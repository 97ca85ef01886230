/-!
# Expanded names

The children of an element are told apart by their expanded names: a local part, and the namespace
it belongs to. The empty string is a namespace like any other and is not the same as having none.

Names are written `{namespace}local`, or `local` alone without a namespace, and are ordered by
namespace first (none before any), then by local part, strings by code points.
-/
namespace ContentAutomata

/-- An expanded name. -/
structure Name where
  /-- The namespace, if there is one. -/
  space : Option String
  /-- The part after the namespace. -/
  localPart : String
  deriving DecidableEq, Repr, Inhabited, Ord

namespace Name

/-- The name without a namespace. -/
def bare (localPart : String) : Name := ⟨none, localPart⟩

/-- How a name is written. -/
def text (n : Name) : String :=
  match n.space with
  | some s => "\x7b" ++ s ++ "\x7d" ++ n.localPart
  | none => n.localPart

/-- The order of names: none before any namespace, then by namespace, then by local part. -/
def le (a b : Name) : Bool := (compare a b).isLE

/-- The names in order; equal names keep their places. -/
def sort (names : List Name) : List Name := names.mergeSort le

end Name

end ContentAutomata
