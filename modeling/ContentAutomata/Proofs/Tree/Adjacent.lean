import ContentAutomata.Proofs.Language.Tame
import ContentAutomata.Proofs.Tree.Reading

/-!
# What stands next to each other in words

Of a language one may ask which letters its words begin with, which they end with, and which follow
which. All of this is one relation: `Adjacent L x y` says that a word of `L` can be split between
`x` and `y`, where `none` is the beginning of the word as `x` and its end as `y`.

The relation can be worked out along a regular expression, whatever is repeated in it, as long as no
part has an empty language. What comes out is what `Tree.Next` says of a tree. So the sets of
positions of any tree are right as soon as its ranges admit something, and not only those of trees
that were drawn for a particle.

Results:
* `adjacent_mul`, `adjacent_kstar`, `adjacent_plus`: products and repetitions;
* `Tree.next_iff_adjacent`: what comes next in a tree is what is adjacent in its words;
* `Tree.isNullable_iff_mem`, `Tree.mem_first_iff`, `Tree.mem_last_iff`, `Tree.mem_followTable_iff`:
  the sets of positions, through the words of positions.
-/
namespace ContentAutomata

open scoped Computability

/-! ## Languages -/

/-- The letter `y` comes directly after `x` in a word of the language; `none` stands for the
beginning of the word as `x` and for its end as `y`. -/
def Adjacent {α : Type} (L : Language α) (x y : Option α) : Prop :=
  ∃ u v, u ++ v ∈ L ∧ u.getLast? = x ∧ v.head? = y

section Adjacent

variable {α : Type} {L M : Language α} {x y : Option α}

theorem Adjacent.mono (h : ∀ w ∈ L, w ∈ M) (ha : Adjacent L x y) : Adjacent M x y := by
  obtain ⟨u, v, hw, hx, hy⟩ := ha
  exact ⟨u, v, h _ hw, hx, hy⟩

theorem adjacent_none_none : Adjacent L none none ↔ [] ∈ L := by
  constructor
  · rintro ⟨u, v, hw, hu, hv⟩
    rwa [List.getLast?_eq_none_iff.1 hu, List.head?_eq_none_iff.1 hv] at hw
  · exact fun h => ⟨[], [], h, rfl, rfl⟩

theorem adjacent_none_some {b : α} : Adjacent L none (some b) ↔ ∃ v, b :: v ∈ L := by
  constructor
  · rintro ⟨u, v, hw, hu, hv⟩
    obtain ⟨v, rfl⟩ := List.head?_eq_some_iff.1 hv
    rw [List.getLast?_eq_none_iff.1 hu] at hw
    exact ⟨v, hw⟩
  · rintro ⟨v, hw⟩
    exact ⟨[], b :: v, hw, rfl, rfl⟩

theorem adjacent_some_none {a : α} : Adjacent L (some a) none ↔ ∃ u, u ++ [a] ∈ L := by
  constructor
  · rintro ⟨u, v, hw, hu, hv⟩
    obtain ⟨u, rfl⟩ := List.getLast?_eq_some_iff.1 hu
    rw [List.head?_eq_none_iff.1 hv, List.append_nil] at hw
    exact ⟨u, hw⟩
  · rintro ⟨u, hw⟩
    exact ⟨u ++ [a], [], by rwa [List.append_nil], by simp, rfl⟩

theorem adjacent_some_some {a b : α} :
    Adjacent L (some a) (some b) ↔ ∃ u v, u ++ a :: b :: v ∈ L := by
  constructor
  · rintro ⟨u, v, hw, hu, hv⟩
    obtain ⟨u, rfl⟩ := List.getLast?_eq_some_iff.1 hu
    obtain ⟨v, rfl⟩ := List.head?_eq_some_iff.1 hv
    exact ⟨u, v, by simpa using hw⟩
  · rintro ⟨u, v, hw⟩
    exact ⟨u ++ [a], b :: v, by simpa using hw, by simp, rfl⟩

theorem adjacent_one : Adjacent (1 : Language α) x y ↔ x = none ∧ y = none := by
  constructor
  · rintro ⟨u, v, hw, rfl, rfl⟩
    obtain ⟨rfl, rfl⟩ := List.append_eq_nil_iff.1 hw
    exact ⟨rfl, rfl⟩
  · rintro ⟨rfl, rfl⟩
    exact adjacent_none_none.2 rfl

theorem adjacent_add : Adjacent (L + M) x y ↔ Adjacent L x y ∨ Adjacent M x y := by
  constructor
  · rintro ⟨u, v, hw | hw, hx, hy⟩
    · exact .inl ⟨u, v, hw, hx, hy⟩
    · exact .inr ⟨u, v, hw, hx, hy⟩
  · rintro (h | h)
    · exact h.mono fun w => .inl
    · exact h.mono fun w => .inr

/-- The split is in the left part, in the right part, or between them. -/
theorem adjacent_mul (hL : ∃ w, w ∈ L) (hM : ∃ w, w ∈ M) :
    Adjacent (L * M) x y ↔
      (y ≠ none ∧ Adjacent L x y) ∨ (x ≠ none ∧ Adjacent M x y) ∨
        (Adjacent L x none ∧ Adjacent M none y) := by
  constructor
  · rintro ⟨u, v, ⟨a, ha, b, hb, hw⟩, rfl, rfl⟩
    rcases List.append_eq_append_iff.1 hw.symm with ⟨c, rfl, rfl⟩ | ⟨c, rfl, rfl⟩
    · cases c with
      | nil =>
        rw [List.append_nil] at ha
        exact .inr (.inr ⟨⟨u, [], by rwa [List.append_nil], rfl, rfl⟩, [], b, hb, rfl, rfl⟩)
      | cons p c => exact .inl ⟨by simp, u, p :: c, ha, rfl, rfl⟩
    · rcases List.eq_nil_or_concat c with rfl | ⟨c, p, rfl⟩
      · rw [List.append_nil]
        exact .inr (.inr ⟨⟨a, [], by rwa [List.append_nil], rfl, rfl⟩, [], v, hb, rfl, rfl⟩)
      · exact .inr (.inl ⟨by simp, c.concat p, v, hb, by simp, rfl⟩)
  · rintro (⟨hy, u, v, ha, hx, rfl⟩ | ⟨hx, u, v, hb, rfl, hy⟩ |
      ⟨⟨u, v, ha, hx, hv⟩, u', v', hb, hu', hy⟩)
    · obtain ⟨b, hb⟩ := hM
      refine ⟨u, v ++ b, ?_, hx, ?_⟩
      · rw [← List.append_assoc]
        exact Language.append_mem_mul ha hb
      · rw [List.head?_append_of_ne_nil _ (by simpa using hy)]
    · obtain ⟨a, ha⟩ := hL
      refine ⟨a ++ u, v, ?_, ?_, hy⟩
      · rw [List.append_assoc]
        exact Language.append_mem_mul ha hb
      · rw [List.getLast?_append_of_ne_nil _ (by simpa using hx)]
    · rw [List.head?_eq_none_iff.1 hv, List.append_nil] at ha
      rw [List.getLast?_eq_none_iff.1 hu', List.nil_append] at hb
      exact ⟨u, v', Language.append_mem_mul ha hb, hx, hy⟩

/-- Between repetitions, the beginning follows the end. -/
theorem adjacent_kstar (hL : ∃ w, w ∈ L) :
    Adjacent L∗ x y ↔
      Adjacent L x y ∨ (x = none ∧ y = none) ∨ (Adjacent L x none ∧ Adjacent L none y) := by
  constructor
  · rintro ⟨u, v, hw, hx, hy⟩
    rw [Language.kstar_eq_iSup_pow, Language.mem_iSup] at hw
    obtain ⟨n, hw⟩ := hw
    have h : Adjacent (L ^ n) x y := ⟨u, v, hw, hx, hy⟩
    clear hw hx hy
    induction n generalizing x with
    | zero => exact .inr (.inl (adjacent_one.1 h))
    | succ n ih =>
      rw [pow_succ', adjacent_mul hL (exists_mem_pow hL n)] at h
      rcases h with ⟨-, h⟩ | ⟨-, h⟩ | ⟨hx, h⟩
      · exact .inl h
      · exact ih h
      · -- the split is after the first repetition
        rcases ih h with h | ⟨-, rfl⟩ | ⟨-, h⟩
        · exact .inr (.inr ⟨hx, h⟩)
        · exact .inl hx
        · exact .inr (.inr ⟨hx, h⟩)
  · rintro (h | ⟨rfl, rfl⟩ | h)
    · exact h.mono fun w hw => (le_kstar : L ≤ L∗) hw
    · exact adjacent_none_none.2 (Language.nil_mem_kstar L)
    · refine ((adjacent_mul hL hL).2 (.inr (.inr h))).mono ?_
      rintro _ ⟨w, hw, v, hv, rfl⟩
      have hstar := Language.append_mem_mul (show w ∈ L∗ from (le_kstar : L ≤ L∗) hw)
        (show v ∈ L∗ from (le_kstar : L ≤ L∗) hv)
      rwa [kstar_mul_kstar] at hstar

theorem adjacent_plus (hL : ∃ w, w ∈ L) :
    Adjacent (L * L∗) x y ↔ Adjacent L x y ∨ (Adjacent L x none ∧ Adjacent L none y) := by
  rw [adjacent_mul hL ⟨[], Language.nil_mem_kstar L⟩, adjacent_kstar hL, adjacent_kstar hL]
  by_cases hx : x = none <;> by_cases hy : y = none <;> simp [hx, hy]
  all_goals tauto

/-- A power of a single letter is split into two. -/
theorem adjacent_powers_singleton {m : Multiplicity} {l : α} :
    Adjacent (m.powers {[l]}) x y ↔
      ∃ i j, m.Admits (i + j) ∧ (x = if i = 0 then none else some l) ∧
        y = if j = 0 then none else some l := by
  constructor
  · rintro ⟨u, v, ⟨k, hk, hw⟩, rfl, rfl⟩
    obtain ⟨hlen, hall⟩ := List.eq_replicate_iff.1 (Tree.mem_singleton_pow.1 hw)
    rw [List.length_append] at hlen
    have hu := List.eq_replicate_of_mem fun b hb => hall b (List.mem_append_left v hb)
    have hv := List.eq_replicate_of_mem fun b hb => hall b (List.mem_append_right u hb)
    refine ⟨u.length, v.length, hlen ▸ hk, ?_, ?_⟩
    · rw [hu, List.getLast?_replicate, List.length_replicate]
    · rw [hv, List.head?_replicate, List.length_replicate]
  · rintro ⟨i, j, hk, rfl, rfl⟩
    refine ⟨List.replicate i l, List.replicate j l, ⟨i + j, hk, ?_⟩, List.getLast?_replicate,
      List.head?_replicate⟩
    exact Tree.mem_singleton_pow.2 (List.replicate_append_replicate)

end Adjacent

/-! ## Trees -/

namespace Tree

/-- How a power of a counted leaf may be split. -/
theorem next_counted_iff {l : Leaf} {m : Multiplicity} (ho : m.isOrdered = true)
    (hn : m.isNever = false) {x y : Option Leaf} :
    (counted l m).Next x y ↔ Adjacent (m.powers {[l]}) x y := by
  rw [adjacent_powers_singleton, Next]
  have hone := Multiplicity.admits_max_min_one ho hn
  constructor
  · rintro (⟨rfl, rfl⟩ | ⟨rfl, rfl⟩ | ⟨hmax, rfl, rfl⟩ | ⟨hmin, rfl, rfl⟩)
    · exact ⟨0, m.min.toNat ⊔ 1, by rwa [Nat.zero_add], rfl, by rw [if_neg (by omega)]⟩
    · exact ⟨m.min.toNat ⊔ 1, 0, hone, by rw [if_neg (by omega)], rfl⟩
    · -- what is not bounded by one admits two
      refine ⟨1, (m.min.toNat - 1) ⊔ 1, ⟨by omega, fun max h => ?_⟩, rfl, by rw [if_neg (by omega)]⟩
      have hle := hone.2 max h
      have hne : max.toNat ≠ 1 := fun e => hmax (h.trans (congrArg some (UInt32.toNat_inj.1 e)))
      omega
    · have hzero := Multiplicity.admits_min ho
      rw [hmin] at hzero
      exact ⟨0, 0, hzero, rfl, rfl⟩
  · rintro ⟨i, j, hk, rfl, rfl⟩
    by_cases hi : i = 0 <;> by_cases hj : j = 0
    · have hmin : m.min = 0 := UInt32.toNat_inj.1 (Nat.le_zero.1 (by simpa [hi, hj] using hk.1))
      simp [hi, hj, hmin]
    · simp [hi, hj]
    · simp [hi, hj]
    · have hmax : m.max ≠ some 1 := fun h => by
        have hle := hk.2 1 h
        rw [UInt32.toNat_one] at hle
        omega
      simp [hi, hj, hmax]

/-- What comes next in an expression is what is adjacent in its words. -/
theorem next_iff_adjacent : ∀ {t : Tree} {x y : Option Leaf}, t.IsExpression →
    (t.Next x y ↔ Adjacent t.words x y)
  | epsilon, x, y, _ => adjacent_one.symm
  | leaf l, x, y, _ => by
    have hone : (leaf l).words = Multiplicity.once.powers {[l]} := (Multiplicity.powers_once _).symm
    rw [hone, ← next_counted_iff rfl rfl]
    simp [Next, Multiplicity.once]
  | counted l m, x, y, h => next_counted_iff h.1 h.2
  | closure .optional t, x, y, h => by
    have hwords : (closure .optional t).words = 1 + t.words := by simp only [words, language]
    rw [hwords, adjacent_add, adjacent_one, Next, or_comm]
    simp only [next_iff_adjacent (t := t) h, ne_eq, reduceCtorEq, not_false_eq_true,
      not_true_eq_false, false_and, or_false, true_and]
  | closure .star t, x, y, h => by
    have hwords : (closure .star t).words = t.words∗ := by simp only [words, language]
    rw [hwords, adjacent_kstar (IsExpression.exists_mem_words (t := t) h), Next]
    simp only [next_iff_adjacent (t := t) h, ne_eq, reduceCtorEq, not_false_eq_true, true_and]
  | closure .plus t, x, y, h => by
    have hwords : (closure .plus t).words = t.words * t.words∗ := by simp only [words, language]
    rw [hwords, adjacent_plus (IsExpression.exists_mem_words (t := t) h), Next]
    simp only [next_iff_adjacent (t := t) h, ne_eq, reduceCtorEq, not_false_eq_true,
      not_true_eq_false, false_and, false_or, true_and]
  | joined .choice l r, x, y, h => by
    have hwords : (joined .choice l r).words = l.words + r.words := by simp only [words, language]
    rw [hwords, adjacent_add, Next, next_iff_adjacent h.1, next_iff_adjacent h.2]
  | joined .sequence l r, x, y, h => by
    have hwords : (joined .sequence l r).words = l.words * r.words := by
      simp only [words, language]
    rw [hwords, adjacent_mul h.1.exists_mem_words h.2.exists_mem_words, Next]
    simp only [next_iff_adjacent h.1, next_iff_adjacent h.2]

/-! ## Words of positions -/

/-- The words of a tree, as lists of the positions of their leaves. -/
def positionWords (t : Tree) : Language Nat := t.language fun l => {[l.position]}

theorem mem_positionWords_iff {t : Tree} {u : List Nat} :
    u ∈ t.positionWords ↔ ∃ w ∈ t.words, w.map (·.position) = u :=
  mem_language_label

section Positions

variable {t : Tree} {n p q : Nat} (h : t.IsExpression)

include h

theorem isNullable_iff_mem : t.isNullable = true ↔ [] ∈ t.positionWords := by
  rw [isNullable_iff h.isAllFree, next_iff_adjacent h, adjacent_none_none, mem_positionWords_iff]
  simp

/-- The first positions are those that a word begins with. -/
theorem mem_first_iff (hf : t.Fits n) : p ∈ t.first n ↔ ∃ v, p :: v ∈ t.positionWords := by
  simp only [mem_first h.isAllFree hf, AtPosition, next_iff_adjacent h, adjacent_none_some,
    mem_positionWords_iff, List.map_eq_cons_iff]
  constructor
  · rintro ⟨l, rfl, w, hw⟩
    exact ⟨_, _, hw, l, w, rfl, rfl, rfl⟩
  · rintro ⟨_, _, hw, l, w, rfl, rfl, rfl⟩
    exact ⟨l, rfl, w, hw⟩

/-- The last positions are those that a word ends with. -/
theorem mem_last_iff (hf : t.Fits n) : p ∈ t.last n ↔ ∃ u, u ++ [p] ∈ t.positionWords := by
  simp only [mem_last h.isAllFree hf, AtPosition, next_iff_adjacent h, adjacent_some_none,
    mem_positionWords_iff, List.map_eq_append_iff, List.map_eq_singleton_iff]
  constructor
  · rintro ⟨l, rfl, w, hw⟩
    exact ⟨_, _, hw, w, [l], rfl, rfl, l, rfl, rfl⟩
  · rintro ⟨_, _, hw, w, _, rfl, rfl, l, rfl, rfl⟩
    exact ⟨l, rfl, w, hw⟩

/-- The pairs in the table are those that follow each other in a word. -/
theorem mem_followTable_iff (hf : t.Fits n) :
    q ∈ (t.followTable n).after p ↔ ∃ u v, u ++ p :: q :: v ∈ t.positionWords := by
  simp only [mem_followTable h.isAllFree hf, FollowsAt, AtPosition, next_iff_adjacent h,
    adjacent_some_some, mem_positionWords_iff]
  constructor
  · rintro ⟨k, rfl, l, rfl, u, v, hw⟩
    exact ⟨u.map (·.position), v.map (·.position), _, hw, by simp⟩
  · rintro ⟨u, v, w, hw, he⟩
    obtain ⟨u, w', rfl, rfl, hw'⟩ := List.map_eq_append_iff.1 he
    obtain ⟨k, w'', rfl, rfl, hw''⟩ := List.map_eq_cons_iff.1 hw'
    obtain ⟨l, v, rfl, rfl, rfl⟩ := List.map_eq_cons_iff.1 hw''
    exact ⟨k, rfl, l, rfl, u, v, hw⟩

end Positions

end Tree

end ContentAutomata
