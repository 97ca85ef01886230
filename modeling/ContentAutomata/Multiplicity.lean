/-!
# Multiplicities: how often a particle may occur

A multiplicity is a lower bound and an upper bound, which may be absent ("unbounded"). Both bounds
are 32-bit words, as are the run-time counters compared with them.

Nothing forces the bounds to be in order: a schema document can ask for `minOccurs="3"
maxOccurs="1"`. Such a multiplicity is a value here, and `isOrdered` tells it apart; the tree
builder refuses it.

Results:
* `isOrdered_iff`: a multiplicity is ordered exactly when no upper bound lies below the lower one;
* `isOnce_iff`, `isNever_iff`: the two special cases as equations;
* `eq_once_or_optional`: what is allowed at most once.
-/
namespace ContentAutomata

/-- Bounds on the number of occurrences of a particle. Mirrors `Occurs`. -/
structure Multiplicity where
  /-- The least number of occurrences. -/
  min : UInt32
  /-- The greatest number of occurrences, `none` for unbounded. -/
  max : Option UInt32
  deriving DecidableEq, Repr, Inhabited

namespace Multiplicity

/-- Exactly one occurrence, the multiplicity of a particle that states none. -/
def once : Multiplicity := ⟨1, some 1⟩

/-- At most one occurrence. -/
def optional : Multiplicity := ⟨0, some 1⟩

/-- Any number of occurrences. -/
def zeroOrMore : Multiplicity := ⟨0, none⟩

/-- At least one occurrence. -/
def oneOrMore : Multiplicity := ⟨1, none⟩

/-- No occurrence at all. -/
def never : Multiplicity := ⟨0, some 0⟩

/-- Whether the lower bound does not exceed the upper one. -/
def isOrdered (m : Multiplicity) : Bool :=
  match m.max with
  | some max => m.min ≤ max
  | none => true

/-- Whether no occurrence is allowed. Mirrors `is_empty`. -/
def isNever (m : Multiplicity) : Bool := m.max == some 0

/-- Whether exactly one occurrence is asked for. Mirrors `is_once`. -/
def isOnce (m : Multiplicity) : Bool := m.min == 1 && m.max == some 1

/-- Whether `count` occurrences are too few. Mirrors `is_missing`. -/
def isMissing (m : Multiplicity) (count : UInt32) : Bool := count < m.min

/-- Whether `count` occurrences leave room for no further one. Mirrors `is_over`. -/
def isFull (m : Multiplicity) (count : UInt32) : Bool :=
  match m.max with
  | some max => max ≤ count
  | none => false

/-- Whether `count` occurrences are too many. -/
def isExceeded (m : Multiplicity) (count : UInt32) : Bool :=
  match m.max with
  | some max => max < count
  | none => false

/-- Whether more than one occurrence is asked for or allowed by a bound. -/
def isRepeated (m : Multiplicity) : Bool :=
  1 < m.min || m.max.any (1 < ·)

/-- How a multiplicity is written: `{min,max}`, with the word `unbounded` for an absent bound. -/
def text (m : Multiplicity) : String :=
  let max := match m.max with
    | some max => toString max
    | none => "unbounded"
  "\x7b" ++ toString m.min ++ "," ++ max ++ "\x7d"

theorem isOrdered_iff {m : Multiplicity} :
    m.isOrdered = true ↔ ∀ max, m.max = some max → m.min ≤ max := by
  cases h : m.max <;> simp [isOrdered, h]

theorem isOnce_iff {m : Multiplicity} : m.isOnce = true ↔ m = once := by
  cases m; simp [isOnce, once]

theorem isNever_iff {m : Multiplicity} : m.isNever = true ↔ m.max = some 0 := by
  simp [isNever]

/-- At most once is once or optional. -/
theorem eq_once_or_optional {m : Multiplicity} (ho : m.isOrdered = true)
    (hmax : m.max = some 1) : m = once ∨ m = optional := by
  obtain ⟨min, max⟩ := m
  cases (show max = some 1 from hmax)
  have hle : min.toNat ≤ 1 := UInt32.le_iff_toNat_le.1 (isOrdered_iff.1 ho 1 rfl)
  have hmin : min.toNat = 0 ∨ min.toNat = 1 := by omega
  rcases hmin with e | e
  · exact .inr (by rw [UInt32.toNat_inj.1 (e.trans UInt32.toNat_zero.symm)]; rfl)
  · exact .inl (by rw [UInt32.toNat_inj.1 (e.trans UInt32.toNat_one.symm)]; rfl)

end Multiplicity

end ContentAutomata
