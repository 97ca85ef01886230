import ContentAutomata.ComplexType
import ContentAutomata.Settings

/-!
# Checking for unique particle attribution

A checker reports each ambiguity of a content model as a diagnostic, of the severity that the
settings ask for. If the settings switch checking off, every model passes and nothing is compiled
for the purpose.

Results:
* `check_eq_true_iff`: a model passes exactly when checking is off or it has no ambiguities;
* `ensure_eq_ok_iff`: the check that stops at the first ambiguity agrees with the one that reports
  them all.
-/
namespace ContentAutomata

/-- Checks content models for unique particle attribution. Mirrors `UpaChecker`. -/
structure Checker where
  /-- Whether anything is checked. -/
  enabled : Bool
  /-- How serious an ambiguity is. -/
  severity : Severity
  deriving DecidableEq, Repr

namespace Checker

/-- The checker that the settings ask for. Mirrors `UpaChecker.new`. -/
def ofSettings (s : Settings) : Checker := ⟨s.checksAttribution, s.severity⟩

/-- Whether a model passes, and what is reported. Mirrors `check_model`. -/
def check (c : Checker) (m : Model) : Bool × List Event :=
  if c.enabled then
    let found := m.ambiguities
    (found.isEmpty, found.map fun a => .diagnostic (.ambiguity c.severity a))
  else (true, [])

/-- The error for the first ambiguity of a model. Mirrors `ensure_unambiguous`. -/
def ensure (c : Checker) (m : Model) : Except Error Unit :=
  if c.enabled then
    match m.ambiguities.head? with
    | some a => .error (.ambiguous a)
    | none => .ok ()
  else .ok ()

/-- What comes of checking a type. -/
structure Reply where
  /-- Whether the type passes. -/
  passes : Except Error Bool
  /-- The type afterwards. -/
  type : ComplexType
  /-- The builder afterwards. -/
  builder : Builder
  /-- What is said on the way. -/
  events : List Event

/-- Checks the content model of a type; what is said reaches up to the given level of detail.
Mirrors `UpaChecker.check`. -/
def checkType (c : Checker) (t : ComplexType) (b : Builder) (level : Level) : Reply :=
  if c.enabled then
    let reply := t.contentModel b .attribution
    let said := reply.journal level
    match reply.model with
    | .ok (some m) =>
      let (passes, reported) := c.check m
      ⟨.ok passes, reply.type, reply.builder, said ++ reported⟩
    | .ok none => ⟨.ok true, reply.type, reply.builder, said⟩
    | .error e => ⟨.error e, reply.type, reply.builder, said⟩
  else ⟨.ok true, t, b, []⟩

theorem check_eq_true_iff {c : Checker} {m : Model} :
    (c.check m).1 = true ↔ c.enabled = false ∨ m.ambiguities = [] := by
  unfold check
  cases c.enabled <;> simp

theorem ensure_eq_ok_iff {c : Checker} {m : Model} :
    c.ensure m = .ok () ↔ (c.check m).1 = true := by
  unfold ensure check
  cases c.enabled with
  | false => simp
  | true =>
    cases h : m.ambiguities with
    | nil => simp
    | cons a as => simp

end Checker

end ContentAutomata
