import ContentAutomata.Multiplicity

/-!
# What can be wrong with a schema

`SchemaFault` lists the reasons why a particle or an attribute of a schema is refused, with what a
reader needs to find the place; `SchemaFault.message` is the wording. A `SchemaError` adds where in
the schema the fault was found and the text it was found in, when the caller knows them.

Results:
* `check_eq_ok_iff`: a multiplicity is accepted exactly when its bounds are in order.
-/
namespace ContentAutomata

/-- A reason to refuse a schema. -/
inductive SchemaFault where
  /-- The bounds of a particle are out of order. -/
  | invertedBounds (min max : UInt32)
  /-- A token of a namespace attribute has the form of a keyword and is none. -/
  | unknownKeyword (token attributeName : String)
  /-- An `all` group stands inside another group. -/
  | nestedAll
  /-- An `all` group holds a group. -/
  | groupInAll
  /-- A fault that the schema reader found and put into words itself. -/
  | other (message : String)
  deriving DecidableEq, Repr

/-- The wording of a fault. -/
def SchemaFault.message : SchemaFault → String
  | invertedBounds min max =>
    "minOccurs (" ++ toString min ++ ") must be lesser or equal than maxOccurs (" ++
      toString max ++ ")"
  | unknownKeyword token attributeName =>
    "wrong value '" ++ token ++ "' in '" ++ attributeName ++ "' attribute"
  | nestedAll => "an 'all' group must be the only model group of a content type"
  | groupInAll => "an 'all' group can only contain elements and wildcards"
  | other message => message

/-- Refuses bounds that are out of order. Mirrors `Occurs.checked`. -/
def Multiplicity.check (m : Multiplicity) : Except SchemaFault Unit :=
  match m.max with
  | some max => if m.min ≤ max then .ok () else .error (.invertedBounds m.min max)
  | none => .ok ()

theorem Multiplicity.check_eq_ok_iff {m : Multiplicity} :
    m.check = .ok () ↔ m.isOrdered = true := by
  unfold check isOrdered
  cases m.max with
  | some max => by_cases h : m.min ≤ max <;> simp [h]
  | none => simp

/-- A fault together with the place it was found at. -/
structure SchemaError where
  fault : SchemaFault
  /-- Where in the schema, if known. -/
  location : Option String
  /-- The text at fault, if known. -/
  source : Option String
  deriving DecidableEq, Repr

namespace SchemaError

/-- A fault found at an unknown place. -/
def ofFault (fault : SchemaFault) : SchemaError := ⟨fault, none, none⟩

/-- The message, followed by a paragraph for each part of the place that is known. -/
def text (e : SchemaError) : String :=
  let place := match e.location with
    | some l => "\n\nLocation: " ++ l
    | none => ""
  let quoted := match e.source with
    | some s => "\n\nSource:\n" ++ s
    | none => ""
  e.fault.message ++ place ++ quoted

end SchemaError

end ContentAutomata
