import ContentAutomata.Position.Set
import Std.Data.TreeMap

/-!
# Numbering sets of positions

The states of an automaton are sets of positions, numbered in the order in which they are found. A
state table holds the sets in that order together with an index by which the number of a set is
found again; that the two agree is part of the type, so no set has two numbers.

Results:
* `intern_getElem?`: interning a set gives the number under which the table then holds it;
* `getElem?_of_intern`: sets keep their numbers;
* `number_unique`: no set has two numbers.
-/
namespace ContentAutomata

/-- Distinct sets of positions, numbered in the order in which they were found. -/
structure StateTable (n : Nat) where
  /-- The sets in order. -/
  order : Array (PositionSet n)
  /-- The number of each set, found by its bits. -/
  index : Std.TreeMap Nat Nat
  /-- The index gives a set the number of its place in the order. -/
  index_eq : ∀ (s : PositionSet n) (i : Nat), index[s.bits]? = some i ↔ order[i]? = some s

namespace StateTable

variable {n : Nat}

/-- The table without sets. -/
def empty : StateTable n := ⟨#[], ∅, by simp⟩

theorem bits_injective {s t : PositionSet n} (h : s.bits = t.bits) : s = t := by
  cases s; cases t; cases h; rfl

theorem index_eq_insert (table : StateTable n) (s : PositionSet n)
    (h : table.index[s.bits]? = none) (t : PositionSet n) (i : Nat) :
    (table.index.insert s.bits table.order.size)[t.bits]? = some i ↔
      (table.order.push s)[i]? = some t := by
  rw [Std.TreeMap.getElem?_insert, Array.getElem?_push]
  by_cases e : s = t
  · subst e
    rw [if_pos (by simp)]
    by_cases hi : i = table.order.size
    · simp [hi]
    · rw [if_neg hi, ← table.index_eq, h]
      simpa using Ne.symm hi
  · rw [if_neg (by simpa using fun h => e (bits_injective h)), table.index_eq]
    by_cases hi : i = table.order.size
    · simp [hi, e]
    · rw [if_neg hi]

/-- The number of a set, which is added at the end if it is not in the table yet. -/
def intern (table : StateTable n) (s : PositionSet n) : Nat × StateTable n :=
  match h : table.index[s.bits]? with
  | some i => (i, table)
  | none =>
    (table.order.size,
      ⟨table.order.push s, table.index.insert s.bits table.order.size, index_eq_insert table s h⟩)

theorem intern_getElem? (table : StateTable n) (s : PositionSet n) :
    (table.intern s).2.order[(table.intern s).1]? = some s := by
  unfold intern
  split
  · rename_i i h
    exact (table.index_eq s i).1 h
  · simp

theorem getElem?_of_intern {table : StateTable n} {s t : PositionSet n} {i : Nat}
    (h : table.order[i]? = some t) : (table.intern s).2.order[i]? = some t := by
  unfold intern
  split
  · exact h
  · rw [Array.getElem?_push]
    have hi : i < table.order.size := (Array.getElem?_eq_some_iff.1 h).1
    rw [if_neg (Nat.ne_of_lt hi)]
    exact h

theorem number_unique (table : StateTable n) {s : PositionSet n} {i j : Nat}
    (hi : table.order[i]? = some s) (hj : table.order[j]? = some s) : i = j := by
  rw [← table.index_eq] at hi hj
  rw [hi] at hj
  exact Option.some.inj hj

end StateTable

end ContentAutomata
