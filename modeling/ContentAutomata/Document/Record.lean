import ContentAutomata.Document.Json

/-!
# Records in JSON documents

A record is an object whose fields have known names, or an array that gives the values of the fields
in their order. Fields that are not known are passed over, a known field given twice is an error,
and so is an array that is too long.
-/
namespace ContentAutomata.Json

/-- The values of the fields of a record with the given names, `none` for those that are missing. -/
def fieldsOf (names : List String) : Json → Option (List (Option Json))
  | object fields =>
    if fields.all (·.1.isSome) then
      names.mapM fun name =>
        match fields.filter fun (key, _) => key == some name with
        | [] => some none
        | [(_, value)] => some (some value)
        | _ => none
    else none
  | list items =>
    if items.length ≤ names.length then
      some ((List.range names.length).map fun i => items[i]?)
    else none
  | _ => none

/-- Reads a field, which has a default value. -/
def fieldOr {α : Type} (fallback : α) (read : Json → Option α) : Option Json → Option α
  | some value => read value
  | none => some fallback

/-- Reads a truth value. -/
def bool? : Json → Option Bool
  | bool b => some b
  | _ => none

/-- Reads a 64-bit word. -/
def word64? : Json → Option UInt64
  | natural n => if n < UInt64.size then some (UInt64.ofNat n) else none
  | _ => none

/-- Reads a 32-bit word. -/
def word32? : Json → Option UInt32
  | natural n => if n < UInt32.size then some (UInt32.ofNat n) else none
  | _ => none

/-- Reads a value that may be null. -/
def nullable? {α : Type} (read : Json → Option α) : Json → Option (Option α)
  | null => some none
  | value => (read value).map some

end ContentAutomata.Json
