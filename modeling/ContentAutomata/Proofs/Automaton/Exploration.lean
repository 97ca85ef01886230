import ContentAutomata.Automaton.Basic
import Mathlib.Data.List.Forall2
import Mathlib.Data.List.Nodup
import Mathlib.Data.List.Perm.Subperm

/-!
# Finding the states of an automaton

The states are found by working out the moves of one state after the other and adding the sets of
positions that turn up for the first time. What holds of the table at every point is `Explored`: the
rows made so far lead where the moves lead, and every state but the first was found from an earlier
one. There are only so many sets of positions, so in the end every state has its row.

Results:
* `size_order_le`: a table never holds more sets than there are;
* `explored_moves`: one more row keeps what was explored;
* `explored_explore`: in the end every state has a row.
-/
namespace ContentAutomata

namespace StateTable

variable {n : Nat}

/-- Every set keeps its number. -/
structure Extends (table table' : StateTable n) : Prop where
  getElem? {i : Nat} {s : PositionSet n} : table.order[i]? = some s → table'.order[i]? = some s

theorem Extends.refl (table : StateTable n) : table.Extends table := ⟨id⟩

theorem Extends.trans {t u v : StateTable n} (h : t.Extends u) (h' : u.Extends v) : t.Extends v :=
  ⟨fun hi => h'.getElem? (h.getElem? hi)⟩

theorem extends_intern (table : StateTable n) (s : PositionSet n) :
    table.Extends (table.intern s).2 := ⟨getElem?_of_intern⟩

theorem size_intern (table : StateTable n) (s : PositionSet n) :
    (table.intern s).2.order.size = table.order.size ∨
      ((table.intern s).2.order.size = table.order.size + 1 ∧
        (table.intern s).1 = table.order.size) := by
  unfold intern
  split
  · exact .inl rfl
  · exact .inr ⟨Array.size_push _, rfl⟩

theorem bits_lt (s : PositionSet n) : s.bits < 1 <<< n := by
  rw [Nat.one_shiftLeft]
  apply Nat.lt_pow_two_of_testBit
  intro i hi
  rw [← Bool.not_eq_true]
  intro h
  exact Nat.not_lt.2 hi (s.lt_of_testBit i h)

/-- A table holds no more sets than there are. -/
theorem size_order_le (table : StateTable n) : table.order.size ≤ 1 <<< n := by
  have hnodup : (table.order.toList.map (·.bits)).Nodup := by
    rw [List.nodup_iff_injective_getElem]
    intro hx hy h
    obtain ⟨i, hi⟩ := hx
    obtain ⟨j, hj⟩ := hy
    simp only [List.getElem_map, Array.getElem_toList] at h
    simp only [List.length_map, Array.length_toList] at hi hj
    rw [Fin.mk.injEq]
    apply table.number_unique (s := table.order[i]) (by simp)
    rw [bits_injective h]
    simp
  have hsubset : table.order.toList.map (·.bits) ⊆ List.range (1 <<< n) := by
    intro b hb
    obtain ⟨s, -, rfl⟩ := List.mem_map.1 hb
    exact List.mem_range.2 (bits_lt s)
  simpa using (List.subperm_of_subset hnodup hsubset).length_le

end StateTable

namespace Automaton

variable {n : Nat} {follow : Tree.FollowTable n} {letters : List (PositionSet n)}

/-- The row of a state holds the numbers of the sets that its moves lead to. -/
def IsRow (follow : Tree.FollowTable n) (letters : List (PositionSet n)) (table : StateTable n)
    (s : PositionSet n) (row : List (Option Nat)) : Prop :=
  List.Forall₂ (fun positions target =>
    Option.Rel (fun next j => table.order[j]? = some next) (move follow s positions) target)
    letters row

theorem IsRow.extends {table table' : StateTable n} {s : PositionSet n} {row : List (Option Nat)}
    (h : IsRow follow letters table s row) (he : table.Extends table') :
    IsRow follow letters table' s row := by
  refine List.Forall₂.imp (fun positions target h => ?_) h
  generalize move follow s positions = next at h
  cases h with
  | some hj => exact .some (he.getElem? hj)
  | none => exact .none

/-- Where a letter leads to can be read off the row. -/
theorem IsRow.getElem? {table : StateTable n} {s : PositionSet n} {row : List (Option Nat)}
    (h : IsRow follow letters table s row) (e : Nat) :
    Option.Rel (fun next j => table.order[j]? = some next) (letters[e]?.bind (move follow s))
      row[e]?.join := by
  induction h generalizing e with
  | nil => exact .none
  | cons hmove _ ih =>
    cases e with
    | zero => exact hmove
    | succ e => exact ih e

theorem isRow_moves (follow : Tree.FollowTable n) (letters : List (PositionSet n))
    (s : PositionSet n) (table : StateTable n) :
    table.Extends (moves follow s letters table).2 ∧
      IsRow follow letters (moves follow s letters table).2 s (moves follow s letters table).1 := by
  induction letters generalizing table with
  | nil => exact ⟨.refl table, .nil⟩
  | cons positions letters ih =>
    unfold moves
    cases hm : move follow s positions with
    | none =>
      simp only
      obtain ⟨hext, hrow⟩ := ih table
      exact ⟨hext, .cons (by rw [hm]; exact .none) hrow⟩
    | some next =>
      simp only
      obtain ⟨hext, hrow⟩ := ih (table.intern next).2
      refine ⟨(table.extends_intern next).trans hext, .cons ?_ hrow⟩
      rw [hm]
      exact .some (hext.getElem? (table.intern_getElem? next))

/-- What is added to the table is what the row leads to. -/
theorem mem_moves_of_new (s : PositionSet n) (table : StateTable n) {j : Nat}
    (hle : table.order.size ≤ j) (hlt : j < (moves follow s letters table).2.order.size) :
    some j ∈ (moves follow s letters table).1 := by
  induction letters generalizing table with
  | nil => exact absurd hlt (Nat.not_lt.2 hle)
  | cons positions letters ih =>
    rw [moves] at hlt ⊢
    cases hm : move follow s positions with
    | none =>
      simp only [hm] at hlt ⊢
      exact List.mem_cons_of_mem _ (ih table hle hlt)
    | some next =>
      simp only [hm] at hlt ⊢
      rcases table.size_intern next with hs | ⟨hs, hj⟩
      · exact List.mem_cons_of_mem _ (ih _ (hs ▸ hle) hlt)
      · rcases Nat.eq_or_lt_of_le hle with rfl | hlt'
        · rw [hj]
          exact List.mem_cons_self
        · exact List.mem_cons_of_mem _ (ih _ (hs ▸ hlt') hlt)

/-- What holds while the states are found. -/
structure Explored (follow : Tree.FollowTable n) (letters : List (PositionSet n))
    (table : StateTable n) (rows : Array (Array (Option Nat))) : Prop where
  size_le : rows.size ≤ table.order.size
  isRow : ∀ {i : Nat} {row : Array (Option Nat)} {s : PositionSet n}, rows[i]? = some row →
    table.order[i]? = some s → IsRow follow letters table s row.toList
  found : ∀ {j : Nat}, 0 < j → j < table.order.size →
    ∃ i row, i < j ∧ rows[i]? = some row ∧ some j ∈ row.toList

theorem explored_moves {table : StateTable n} {rows : Array (Array (Option Nat))}
    (h : Explored follow letters table rows) {s : PositionSet n}
    (hs : table.order[rows.size]? = some s) :
    Explored follow letters (moves follow s letters table).2
      (rows.push (moves follow s letters table).1.toArray) := by
  obtain ⟨hext, hrow⟩ := isRow_moves follow letters s table
  have hlt : rows.size < table.order.size := (Array.getElem?_eq_some_iff.1 hs).1
  constructor
  · rw [Array.size_push]
    exact (Array.getElem?_eq_some_iff.1 (hext.getElem? hs)).1
  · intro i row s' hi hi'
    rw [Array.getElem?_push] at hi
    split at hi
    · rename_i e
      subst e
      obtain rfl := Option.some.inj hi
      obtain rfl := Option.some.inj ((hext.getElem? hs).symm.trans hi')
      exact hrow
    · have hlt' : i < table.order.size :=
        Nat.lt_trans (Array.getElem?_eq_some_iff.1 hi).1 hlt
      have he := hext.getElem? (Array.getElem?_eq_getElem hlt')
      obtain rfl := Option.some.inj (he.symm.trans hi')
      exact (h.isRow hi (Array.getElem?_eq_getElem hlt')).extends hext
  · intro j hpos hj
    rcases Nat.lt_or_ge j table.order.size with hj' | hj'
    · obtain ⟨i, row, hij, hi, hmem⟩ := h.found hpos hj'
      refine ⟨i, row, hij, ?_, hmem⟩
      rw [Array.getElem?_push, if_neg (Nat.ne_of_lt (Array.getElem?_eq_some_iff.1 hi).1), hi]
    · exact ⟨rows.size, _, Nat.lt_of_lt_of_le hlt hj', Array.getElem?_push_size,
        by simpa using mem_moves_of_new s table hj' hj⟩

/-- In the end every state has a row. -/
theorem explored_explore (fuel : Nat) {table : StateTable n} {rows : Array (Array (Option Nat))}
    (h : Explored follow letters table rows) (hfuel : 1 <<< n ≤ rows.size + fuel) :
    Explored follow letters (explore follow letters fuel table rows).1
        (explore follow letters fuel table rows).2 ∧
      (explore follow letters fuel table rows).2.size =
        (explore follow letters fuel table rows).1.order.size ∧
      table.Extends (explore follow letters fuel table rows).1 := by
  induction fuel generalizing table rows with
  | zero =>
    have hle := table.size_order_le
    exact ⟨h, Nat.le_antisymm h.size_le (by simpa [explore] using Nat.le_trans hle hfuel),
      .refl table⟩
  | succ fuel ih =>
    unfold explore
    cases hs : table.order[rows.size]? with
    | none =>
      exact ⟨h, Nat.le_antisymm h.size_le (Array.getElem?_eq_none_iff.1 hs), .refl table⟩
    | some s =>
      have hext := (isRow_moves follow letters s table).1
      obtain ⟨hexp, hsize, hext'⟩ := ih (explored_moves h hs) (by rw [Array.size_push]; omega)
      exact ⟨hexp, hsize, hext.trans hext'⟩

end Automaton

end ContentAutomata
