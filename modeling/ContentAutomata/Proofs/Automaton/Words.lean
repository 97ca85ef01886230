import ContentAutomata.Proofs.Automaton.Plain

/-!
# The words of an automaton

An automaton can be followed without any children, by the numbers of particles alone: each number is
looked up among the entries, and the entry is taken. The tree need not be one that was drawn for a
particle: its leaves may stand for any particles, one particle may have many leaves, and they may
come in any order. Since an entry gathers all leaves of its particle, what is followed are sets of
leaves, and the state that a word leads to offers what may come after any leaf that the word can be
read up to.

Results:
* `hop_cases`: one step, where leaves of the particle are offered;
* `walk_cases`: a whole word leads somewhere exactly when words of the tree begin with it;
* `exists_walk_isFinal_iff`: the automaton of a plain tree accepts the language of the tree.
-/
namespace ContentAutomata.Automaton

open ContentAutomata.Tree

/-- The entry of a particle. -/
def entryOf (a : Automaton) (particle : Nat) : Option Nat :=
  a.entries.findIdx? (·.particle == particle)

/-- The state that the entry of a particle leads to, if it is allowed there. -/
def hop (a : Automaton) (state particle : Nat) : Option Nat :=
  (a.entryOf particle).bind (a.target state)

/-- The state that a list of particles leads to, if each of them is allowed in turn. -/
def walk (a : Automaton) : (state : Nat) → List Nat → Option Nat
  | state, [] => some state
  | state, particle :: rest => (a.hop state particle).bind (a.walk · rest)

theorem walk_append (a : Automaton) (u v : List Nat) (state : Nat) :
    a.walk state (u ++ v) = (a.walk state u).bind (a.walk · v) := by
  induction u generalizing state with
  | nil => rfl
  | cons particle u ih =>
    rw [List.cons_append, walk, walk, Option.bind_assoc]
    simp only [ih]

theorem walk_singleton (a : Automaton) (state particle : Nat) :
    a.walk state [particle] = a.hop state particle := by
  simp [walk]

/-- The entry of a particle has this particle. -/
theorem particle?_entryOf {a : Automaton} {e particle : Nat} (h : a.entryOf particle = some e) :
    a.particle? e = some particle := by
  obtain ⟨hlt, he, -⟩ := Array.findIdx?_eq_some_iff_getElem.1 h
  simpa [particle?, Array.getElem?_eq_getElem hlt] using he

section Walk

variable {t : Tree} {isApproximate : Bool} (numbered : t.IsNumbered)

include numbered

/-- Each leaf has its entry. -/
theorem exists_entryOf (isApproximate : Bool) {l : Leaf} (hl : t.Has l) :
    ∃ e, (t.automaton isApproximate).entryOf l.particle = some e := by
  obtain ⟨x, hx, rfl⟩ := List.mem_map.1 hl
  obtain ⟨letter, hmem, he⟩ := List.mem_map.1 ((gathered_of_numbered numbered).found x hx)
  rw [← Option.isSome_iff_exists, entryOf, Array.findIdx?_isSome, Array.any_eq_true']
  exact ⟨letter.1, Array.mem_map.2 ⟨letter, Array.mem_toList_iff.1 hmem, rfl⟩, by simpa using he⟩

/-- Where a particle leads to from a state. -/
theorem hop_cases {i : Nat} {next : Option Leaf → Prop} (h : Offers t isApproximate i next)
    (p : Nat) :
    ((t.automaton isApproximate).hop i p = none ∧ ∀ k, next (some k) → k.particle ≠ p) ∨
      ∃ j, (t.automaton isApproximate).hop i p = some j ∧
        (∃ k, next (some k) ∧ k.particle = p) ∧ Offers t isApproximate j fun y =>
          ∃ k, next (some k) ∧ k.particle = p ∧ t.Next (some k) y := by
  unfold hop
  cases he : (t.automaton isApproximate).entryOf p with
  | none =>
    refine .inl ⟨rfl, fun k hk hp => ?_⟩
    obtain ⟨e, hsome⟩ := exists_entryOf numbered isApproximate (h.has k hk)
    rw [hp, he] at hsome
    cases hsome
  | some e => exact target_cases numbered h (particle?_entryOf he)

variable (plain : t.IsPlain)

include plain

/-- A word leads somewhere if words of the tree begin with it, and then to what comes after it. -/
theorem walk_cases (isApproximate : Bool) (u : List Nat) :
    ((t.automaton isApproximate).walk 0 u = none ∧ u ∉ beginnings t.attributions) ∨
      ∃ i, (t.automaton isApproximate).walk 0 u = some i ∧ u ∈ beginnings t.attributions ∧
        Offers t isApproximate i (PlainNext t u) := by
  induction u using List.reverseRecOn with
  | nil => exact .inr ⟨0, rfl, nil_mem_beginnings plain.isRegular, offers_nil numbered⟩
  | append_singleton u p ih =>
    rw [walk_append]
    rcases ih with ⟨hw, hu⟩ | ⟨i, hw, -, ho⟩
    · exact .inl ⟨by rw [hw]; rfl, fun h => hu (mem_beginnings_of_append h)⟩
    · have hnext : u ++ [p] ∈ beginnings t.attributions ↔
          ∃ k, PlainNext t u (some k) ∧ k.particle = p := by
        rw [append_mem_beginnings_iff plain.isRegular (indexes_uncounted numbered plain)]
        simp only [PlainNext, allows_uncounted, ← and_assoc, exists_and_right, exists_comm]
      rw [hw, Option.bind_some, walk_singleton, hnext]
      rcases hop_cases numbered ho p with ⟨hh, hne⟩ | ⟨j, hh, hk, ho'⟩
      · refine .inl ⟨hh, ?_⟩
        rintro ⟨k, hk, hp⟩
        exact hne k hk hp
      · exact .inr ⟨j, hh, hk, ho'.congr fun y => plainNext_append.symm⟩

end Walk

/-- The automaton of a plain tree accepts the words of the tree, and its transitions go on as far as
words of the tree do. -/
theorem exists_walk_isFinal_iff {t : Tree} (plain : t.IsPlain) (isApproximate : Bool)
    (w : List Nat) :
    let a := ofTree (t.number 0).1 (t.number 0).2 isApproximate
    ((∃ i, a.walk 0 w = some i ∧ a.isFinal i = true) ↔ w ∈ t.attributions) ∧
      ((a.walk 0 w).isSome = true ↔ w ∈ beginnings t.attributions) := by
  have hplain : t.numbered.IsPlain := plain.number 0
  have numbered : t.numbered.IsNumbered := isNumbered_numbered hplain.isAllFree
  have hcount : (t.number 0).2 = t.numbered.leafCount := by
    rw [number_snd, Nat.zero_add, leafCount_numbered]
    rfl
  rw [hcount, ← attributions_numbered t]
  intro a
  rcases walk_cases numbered hplain isApproximate w with
    ⟨hw, hnot⟩ | ⟨i, hw, hmem, ho⟩
  · have hnone : a.walk 0 w = none := hw
    simp [hnone, hnot, mt mem_beginnings_of_mem hnot]
  · have hsome : a.walk 0 w = some i := hw
    have hfinal : a.isFinal i = true ↔ w ∈ t.numbered.attributions := by
      rw [show a.isFinal i = true ↔ _ from isFinal_iff numbered ho,
        mem_attributions_iff hplain.isRegular (indexes_uncounted numbered hplain)]
      simp only [PlainNext, allows_uncounted]
    simp [hsome, hfinal, hmem]

/-- One or more times an `a` that may be followed by a `b` or another `a`: two leaves stand for the
particle of `a`. The words are those that begin with `a` and hold no two `b` in a row. -/
theorem exists_walk_isFinal_iff_shared :
    let a : Term := .element (.bare "a")
    let b : Term := .element (.bare "b")
    let t : Tree := .closure .plus (.joined .sequence (.leaf ⟨a, 7, 0⟩)
      (.closure .optional (.joined .choice (.leaf ⟨b, 3, 0⟩) (.leaf ⟨a, 7, 0⟩))))
    [7, 3, 7, 7] ∈ t.attributions ∧ [] ∉ t.attributions ∧ [] ∈ beginnings t.attributions ∧
      [7, 3, 3] ∉ beginnings t.attributions := by
  intro a b t
  have plain : t.IsPlain := ⟨trivial, trivial, trivial⟩
  have hword := exists_walk_isFinal_iff plain false [7, 3, 7, 7]
  have hempty := exists_walk_isFinal_iff plain false []
  have hdouble := exists_walk_isFinal_iff plain false [7, 3, 3]
  exact ⟨hword.1.1 ⟨1, by decide +kernel⟩, fun h => absurd (hempty.1.2 h) (by decide +kernel),
    hempty.2.1 (by decide +kernel), fun h => absurd (hdouble.2.2 h) (by decide +kernel)⟩

end ContentAutomata.Automaton
