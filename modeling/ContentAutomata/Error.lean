import ContentAutomata.SchemaError
import ContentAutomata.Term

/-!
# What can go wrong

The reasons why compiling a content model, checking it or reading settings fails. That the children
of some element do not fit a content model is no error but a verdict on them.
-/
namespace ContentAutomata

/-- A particle that lays claim to a child. -/
structure Claimant where
  /-- What the particle matches. -/
  term : Term
  /-- The number of the particle. -/
  particle : Nat
  deriving DecidableEq, Repr

/-- Two particles that some child could be attributed to without looking ahead. -/
structure Ambiguity where
  first : Claimant
  second : Claimant
  deriving DecidableEq, Repr

/-- The wording of an ambiguity. -/
def Ambiguity.text (a : Ambiguity) : String :=
  a.first.term.text ++ " and " ++ a.second.term.text ++ " violate Unique Particle Attribution"

/-- A reason for failure. -/
inductive Error where
  /-- The schema is at fault. -/
  | schema (error : SchemaError)
  /-- Particles are nested too deeply. -/
  | tooDeep (depth bound : Nat)
  /-- The tree of a content model would have too many nodes. -/
  | tooManyNodes (bound : Nat)
  /-- A content model is ambiguous. -/
  | ambiguous (ambiguity : Ambiguity)
  /-- A settings document is malformed. -/
  | malformedSettings
  /-- A settings document cannot be read. -/
  | unreadableSettings
  deriving DecidableEq, Repr

namespace Error

/-- The error for a fault found at an unknown place. -/
def ofFault (fault : SchemaFault) : Error := schema (.ofFault fault)

/-- The wording of an error. -/
def text : Error → String
  | schema e => "parse error: " ++ e.text
  | tooDeep depth bound =>
    "limit exceeded: content model depth " ++ toString depth ++ " exceeds maximum " ++
      toString bound
  | tooManyNodes bound =>
    "limit exceeded: content model exceeds the limit of " ++ toString bound ++ " nodes"
  | ambiguous a => "ambiguous content model: " ++ a.text
  | malformedSettings => "configuration error"
  | unreadableSettings => "I/O error"

end Error

end ContentAutomata
