import ContentAutomata.Error

/-!
# Diagnostics and log records

While it works, the library speaks in two ways: it reports *diagnostics*, which are addressed to the
author of the schema, and it writes *records* to a log, which are addressed to whoever runs the
program. Both are values here, kept in the order in which they arise.

A reporter decides what becomes of the diagnostics: a collecting reporter keeps them, a logging
reporter turns each into a record.

Results:
* `kept_absorb_collector`: a collecting reporter keeps every diagnostic, in order;
* `absorb_logging_fst`: a logging reporter keeps nothing.
-/
namespace ContentAutomata

/-! ## Diagnostics -/

/-- How serious a diagnostic is. -/
inductive Severity where
  | warning | error | fatal
  deriving DecidableEq, Repr

/-- How a severity is written. -/
def Severity.text : Severity → String
  | warning => "warning"
  | error => "error"
  | fatal => "fatal error"

/-- Which rule a diagnostic is about. -/
inductive Rule where
  /-- A content model must not need too many nodes. -/
  | nodeLimit
  /-- A content model must attribute each child to one particle. -/
  | uniqueAttribution
  deriving DecidableEq, Repr

/-- The key by which a rule is known. -/
def Rule.key : Rule → String
  | nodeLimit => "maxOccurLimit"
  | uniqueAttribution => "cos-nonambig"

/-- A message to the author of a schema. -/
structure Diagnostic where
  rule : Rule
  severity : Severity
  message : String
  /-- The parts of the schema that are involved. -/
  components : List String
  deriving DecidableEq, Repr

/-- How a diagnostic is written. -/
def Diagnostic.text (d : Diagnostic) : String :=
  "[" ++ d.severity.text ++ "] " ++ d.rule.key ++ ": " ++ d.message

/-- The diagnostic for a content model that needs more nodes than allowed. -/
def Diagnostic.nodeLimit (bound : Nat) : Diagnostic where
  rule := .nodeLimit
  severity := .fatal
  message := "Current configuration of the parser doesn't allow the expansion of a content " ++
    "model for a complex type to contain more than " ++ toString bound ++ " nodes"
  components := [toString bound]

/-- The diagnostic for an ambiguity. -/
def Diagnostic.ambiguity (severity : Severity) (a : Ambiguity) : Diagnostic where
  rule := .uniqueAttribution
  severity := severity
  message := a.text
  components := [a.first.term.text, a.second.term.text]

/-! ## Records -/

/-- How important a log record is. -/
inductive Level where
  | error | warn | debug | trace
  deriving DecidableEq, Repr

namespace Level

/-- The rank of a level; the most important one comes first. -/
def rank : Level → Nat
  | error => 0
  | warn => 1
  | debug => 2
  | trace => 3

/-- Whether a log kept at level `l` has room for records of level `k`. -/
def admits (l k : Level) : Bool := k.rank ≤ l.rank

/-- How a level is written. -/
def text : Level → String
  | error => "ERROR"
  | warn => "WARN"
  | debug => "DEBUG"
  | trace => "TRACE"

end Level

/-- A log record. -/
structure Record where
  level : Level
  text : String
  deriving DecidableEq, Repr

/-- Something the library says while it works. -/
inductive Event where
  | record (record : Record)
  | diagnostic (diagnostic : Diagnostic)
  deriving DecidableEq, Repr

namespace Event

/-- A record of level `warn`. -/
def warn (text : String) : Event := record ⟨.warn, text⟩

/-- A record of level `debug`. -/
def debug (text : String) : Event := record ⟨.debug, text⟩

/-- A record of level `trace`. -/
def trace (text : String) : Event := record ⟨.trace, text⟩

/-- The diagnostic, if the event is one. -/
def diagnostic? : Event → Option Diagnostic
  | record _ => none
  | diagnostic d => some d

end Event

/-! ## Reporters -/

/-- What becomes of diagnostics. -/
inductive Reporter where
  /-- They are kept, in order. -/
  | collecting (kept : Array Diagnostic)
  /-- They are written to the log. -/
  | logging
  deriving DecidableEq, Repr

namespace Reporter

/-- A collecting reporter that has kept nothing yet. -/
def collector : Reporter := collecting #[]

/-- The record that stands for a diagnostic in a log. -/
def recordOf (d : Diagnostic) : Record :=
  ⟨if d.severity = .warning then .warn else .error, d.text⟩

/-- Takes one event: what becomes of the reporter and of the records written so far. -/
def take : Reporter × Array Record → Event → Reporter × Array Record
  | (r, written), .record record => (r, written.push record)
  | (collecting kept, written), .diagnostic d => (collecting (kept.push d), written)
  | (logging, written), .diagnostic d => (logging, written.push (recordOf d))

/-- Takes events one after the other: the reporter afterwards, and the records written. -/
def absorb (r : Reporter) (events : List Event) : Reporter × Array Record :=
  events.foldl take (r, #[])

/-- The diagnostics kept so far. -/
def kept : Reporter → List Diagnostic
  | collecting kept => kept.toList
  | logging => []

/-- Forgets the diagnostics kept so far. -/
def clear : Reporter → Reporter
  | collecting _ => collector
  | logging => logging

/-- Whether something worse than a warning was kept. -/
def hasErrors (r : Reporter) : Bool := r.kept.any fun d => d.severity != .warning

/-- Whether something fatal was kept. -/
def hasFatalErrors (r : Reporter) : Bool := r.kept.any fun d => d.severity == .fatal

theorem kept_foldl_take (es : List Event) (ds : Array Diagnostic) (rs : Array Record) :
    (es.foldl take (collecting ds, rs)).1.kept = ds.toList ++ es.filterMap Event.diagnostic? := by
  induction es generalizing ds rs with
  | nil => simp [kept]
  | cons e es ih =>
    cases e <;> simp [take, ih, Event.diagnostic?, List.filterMap_cons]

theorem kept_absorb_collector (es : List Event) :
    (collector.absorb es).1.kept = es.filterMap Event.diagnostic? := by
  simpa [collector, absorb] using kept_foldl_take es #[] #[]

theorem absorb_logging_fst (es : List Event) : (logging.absorb es).1 = logging := by
  have key : ∀ (es : List Event) (rs : Array Record),
      (es.foldl take (logging, rs)).1 = logging := by
    intro es
    induction es with
    | nil => intro rs; rfl
    | cons e es ih => intro rs; cases e <;> exact ih _
  exact key es #[]

end Reporter

end ContentAutomata
