import ContentAutomata.Error

/-!
# Limits on compilation

A large `maxOccurs` can ask for a tree of billions of nodes, so compilation is bounded: by a number
of tree nodes, which may be scaled by a multiplier, and by the nesting depth of model groups. The
three numbers are 64-bit words; the scaled bound saturates at the largest word instead of wrapping.

Results:
* `nodeBound_none_iff`: there is no node bound exactly when none is set;
* `nodeBound_le`: the node bound is always a 64-bit word;
* `checkDepth_eq_ok_iff`: a depth is accepted exactly when it does not exceed the limit.
-/
namespace ContentAutomata

/-- Bounds on the size and the depth of content models. -/
structure Limits where
  /-- The number of tree nodes allowed, before scaling; `none` for no bound. -/
  nodes : Option UInt64
  /-- The factor by which the number of nodes is scaled. -/
  multiplier : UInt64
  /-- The greatest nesting depth of particles, the outermost one being at depth 1. -/
  depth : UInt64
  deriving DecidableEq, Repr

namespace Limits

/-- The limits used unless others are asked for. -/
def default : Limits := ⟨some 3000, 1, 100⟩

instance : Inhabited Limits := ⟨default⟩

/-- Limits for schemas from untrusted sources. -/
def strict : Limits := ⟨some 500, 1, 20⟩

/-- Limits for large schemas from trusted sources. -/
def permissive : Limits := ⟨some 100000, 1, 1000⟩

/-- No bound on the number of nodes. -/
def unlimited : Limits := { permissive with nodes := none }

/-- The largest 64-bit word. -/
def largestWord : Nat := UInt64.size - 1

/-- The number of nodes a tree may have. -/
def nodeBound (l : Limits) : Option Nat :=
  l.nodes.map fun n => min (n.toNat * l.multiplier.toNat) largestWord

/-- Refuses particles that are nested too deeply. Mirrors `check_model_depth`. -/
def checkDepth (l : Limits) (depth : Nat) : Except Error Unit :=
  if depth ≤ l.depth.toNat then .ok () else .error (.tooDeep depth l.depth.toNat)

@[simp] theorem nodeBound_none_iff {l : Limits} : l.nodeBound = none ↔ l.nodes = none := by
  simp [nodeBound]

theorem nodeBound_le {l : Limits} {n : Nat} (h : l.nodeBound = some n) : n ≤ largestWord := by
  simp only [nodeBound, Option.map_eq_some_iff] at h
  obtain ⟨a, -, rfl⟩ := h
  exact Nat.min_le_right _ _

theorem checkDepth_eq_ok_iff {l : Limits} {depth : Nat} :
    l.checkDepth depth = .ok () ↔ depth ≤ l.depth.toNat := by
  unfold checkDepth
  split <;> simp [*]

end Limits

end ContentAutomata
