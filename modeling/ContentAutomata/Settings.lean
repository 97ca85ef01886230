import ContentAutomata.Document.Record
import ContentAutomata.Journal
import ContentAutomata.Limits

/-!
# Settings

The settings of a compilation are its limits, whether content models are checked for unique particle
attribution, and how serious a violation is. They are read from a JSON document in which every field
may be missing.

Multiplicities can be read from a document too; their lower bound may not be missing.
-/
namespace ContentAutomata

/-- The settings of a compilation. -/
structure Settings where
  limits : Limits
  /-- Whether content models are checked for unique particle attribution. -/
  checksAttribution : Bool
  /-- How serious a violation is. -/
  severity : Severity
  deriving DecidableEq, Repr

namespace Settings

/-- The settings used unless others are asked for. -/
def default : Settings := ⟨.default, true, .error⟩

instance : Inhabited Settings := ⟨default⟩

end Settings

/-! ## Reading documents -/

/-- Reads limits. Only the number of nodes may be null, for no bound. -/
def Limits.ofJson? (doc : Json) : Option Limits := do
  match ← doc.fieldsOf ["max_occur_node_limit", "node_limit_multiplier", "max_model_depth"] with
  | [nodes, multiplier, depth] =>
    return {
      nodes := ← Json.fieldOr Limits.default.nodes (Json.nullable? Json.word64?) nodes
      multiplier := ← Json.fieldOr Limits.default.multiplier Json.word64? multiplier
      depth := ← Json.fieldOr Limits.default.depth Json.word64? depth }
  | _ => none

/-- The severity of the given name. -/
def Severity.ofName? : String → Option Severity
  | "warning" => some .warning
  | "error" => some .error
  | "fatal_error" => some .fatal
  | _ => none

/-- Reads a severity: its name, or an object with the name as its only key and null as the value. -/
def Severity.ofJson? : Json → Option Severity
  | .string (some name) => ofName? name
  | .object [(some name, .null)] => ofName? name
  | _ => none

/-- Reads settings. -/
def Settings.ofJson? (doc : Json) : Option Settings := do
  match ← doc.fieldsOf ["limits", "upa_checking", "upa_severity"] with
  | [limits, checksAttribution, severity] =>
    return {
      limits := ← Json.fieldOr Settings.default.limits Limits.ofJson? limits
      checksAttribution := ← Json.fieldOr Settings.default.checksAttribution Json.bool?
        checksAttribution
      severity := ← Json.fieldOr Settings.default.severity Severity.ofJson? severity }
  | _ => none

/-- Reads the text of a settings document. -/
def Settings.ofText (text : String) : Except Error Settings :=
  match (Json.ofText? text).bind Settings.ofJson? with
  | some settings => .ok settings
  | none => .error .malformedSettings

/-- Reads the bytes of a settings document, which are missing if there is none. -/
def Settings.ofBytes (bytes : Option ByteArray) : Except Error Settings :=
  match bytes.bind String.fromUTF8? with
  | some text => Settings.ofText text
  | none => .error .unreadableSettings

/-- Reads a multiplicity. In an object the upper bound may be missing, for unbounded. -/
def Multiplicity.ofJson? (doc : Json) : Option Multiplicity := do
  let isObject := match doc with
    | .object _ => true
    | _ => false
  match ← doc.fieldsOf ["min", "max"] with
  | [some min, some max] => return ⟨← min.word32?, ← max.nullable? Json.word32?⟩
  | [some min, none] => if isObject then return ⟨← min.word32?, none⟩ else none
  | _ => none

/-- Reads the text of a document that holds a multiplicity. -/
def Multiplicity.ofText (text : String) : Except Error Multiplicity :=
  match (Json.ofText? text).bind Multiplicity.ofJson? with
  | some m => .ok m
  | none => .error .malformedSettings

end ContentAutomata
