import ContentAutomata.Proofs.Language.Tree
import ContentAutomata.Proofs.Tree.Outcome

/-!
# The tree of a particle has the language of the particle

Both shapes of tree mean what the particle means: the compact one, whose ranges are left to
counters, and the expanded one, which spells them out. That a particle has no tree means that it
stands for the empty word.

Results:
* `language_compactTree`, `language_expandedTree`: the language of either tree;
* `compactTree_eq_none_iff`: there is no compact tree exactly when the particle vanishes.
-/
namespace ContentAutomata

namespace Particle

/-! ## The three shapes of a group in the compact tree -/

theorem compactTree_once (c : Compositor) (members : List Particle) (next : Nat) :
    (group c members .once).compactTree next =
      Draft.composed c ((compactTrees members next).length < members.length)
        (compactTrees members next) := by
  have hn : Multiplicity.once.isNever = false := rfl
  have ho : Multiplicity.once.isOnce = true := rfl
  cases h : Draft.onlyTerm? members <;> simp [compactTree, hn, ho, h]

theorem compactTree_nil (c : Compositor) (m : Multiplicity) (next : Nat) :
    (group c [] m).compactTree next = none := by
  simp [compactTree, Draft.onlyTerm?, Draft.composed, compactTrees]

theorem compactTree_repeated {c : Compositor} {p : Particle} {term : Term} {m : Multiplicity}
    (hn : m.isNever = false) (ho : m.isOnce = false) (h : p.term? = some term) (next : Nat) :
    (group c [p] m).compactTree next = some (Draft.countedTerm ⟨term, next, 0⟩ m) := by
  simp [compactTree, Draft.onlyTerm?, hn, ho, h]

/-! ## Vanishing -/

theorem vanishes_of_term {p : Particle} {term : Term} (h : p.term? = some term)
    (ho : p.occurs = .once) : p.vanishes = false := by
  cases p with
  | element name o =>
    unfold vanishes
    rw [show o = .once from ho]
    rfl
  | wildcard w =>
    unfold vanishes
    rw [show w.occurs = .once from ho]
    rfl
  | group c ms m => simp [term?] at h

mutual
theorem compactTree_eq_none_iff : ∀ {p : Particle} (next : Nat), p.isCountable = true →
    (p.compactTree next = none ↔ p.vanishes = true)
  | element name m, next, _ => by simp [compactTree, vanishes]
  | wildcard w, next, _ => by simp [compactTree, vanishes]
  | group c members m, next, hc => by
    cases hn : m.isNever with
    | true => simp [compactTree, vanishes, hn]
    | false =>
      cases ho : m.isOnce with
      | true =>
        have hlen := length_compactTrees next (Draft.allCountable_of_isOnce hc ho)
        cases Multiplicity.isOnce_iff.1 ho
        rw [compactTree_once, Draft.composed_eq_none_iff, ← List.length_eq_zero_iff, hlen]
        simp [vanishes, allVanish_eq, hn]
      | false =>
        rcases Draft.repeated_group_cases hc ho with rfl | ⟨p, rfl, hp, honce⟩
        · simp [compactTree_nil, vanishes, allVanish]
        · obtain ⟨term, hterm⟩ := Option.isSome_iff_exists.1 hp
          simp [compactTree_repeated hn ho hterm, vanishes, hn, allVanish,
            vanishes_of_term hterm honce]
theorem length_compactTrees : ∀ {ps : List Particle} (next : Nat), allCountable ps = true →
    (compactTrees ps next).length = ps.countP (fun p => !p.vanishes)
  | [], next, _ => rfl
  | p :: ps, next, hc => by
    simp only [allCountable, Bool.and_eq_true] at hc
    have ih := length_compactTrees (next + p.terms.length) hc.2
    have hp := compactTree_eq_none_iff next hc.1
    cases h : p.compactTree next <;> simp_all [compactTrees]
end

end Particle

/-! ## The language of joined trees -/

section Joined

variable {α : Type} {letter : Leaf → Language α}

/-- The language of a tree that may be missing: without a tree, only the empty word. -/
def Tree.languageOf? (letter : Leaf → Language α) : Option Tree → Language α
  | none => 1
  | some t => t.language letter

/-- The language of a list of trees of which one is chosen. -/
def Tree.choiceOf (letter : Leaf → Language α) (ts : List Tree) : Language α :=
  (ts.map (Tree.language letter)).sum

theorem Tree.languageOf_append (o : Option Tree) (ts : List Tree) :
    Tree.languageOf letter (o.toList ++ ts) =
      Tree.languageOf? letter o * Tree.languageOf letter ts := by
  cases o <;> simp [Tree.languageOf?, Tree.languageOf]

theorem Tree.language_foldl_sequence (t : Tree) (ts : List Tree) :
    (ts.foldl (.joined .sequence) t).language letter =
      t.language letter * Tree.languageOf letter ts := by
  induction ts generalizing t with
  | nil => simp [Tree.languageOf]
  | cons u us ih => rw [List.foldl_cons, ih, Tree.language, Tree.languageOf, mul_assoc]

theorem Tree.language_foldl_choice (t : Tree) (ts : List Tree) :
    (ts.foldl (.joined .choice) t).language letter =
      t.language letter + Tree.choiceOf letter ts := by
  induction ts generalizing t with
  | nil => simp [Tree.choiceOf]
  | cons u us ih =>
    rw [List.foldl_cons, ih, Tree.language, Tree.choiceOf, Tree.choiceOf, List.map_cons,
      List.sum_cons, add_assoc]

theorem Draft.language_composed_sequence (someVanished : Bool) (built : List Tree) :
    Tree.languageOf? letter (Draft.composed .sequence someVanished built) =
      Tree.languageOf letter built := by
  cases built with
  | nil => rfl
  | cons t ts =>
    simp only [Draft.composed, Tree.languageOf?, Tree.language_foldl_sequence, Tree.languageOf]

theorem Draft.language_composed_choice {built : List Tree} (someVanished : Bool)
    (h : built ≠ []) :
    Tree.languageOf? letter (Draft.composed .choice someVanished built) =
      Tree.choiceOf letter built + if someVanished = true then 1 else 0 := by
  cases built with
  | nil => exact absurd rfl h
  | cons t ts =>
    cases someVanished <;>
      simp [Draft.composed, Tree.languageOf?, Tree.language, Tree.language_foldl_choice,
        Tree.choiceOf]

end Joined

/-! ## The language of a drawn tree -/

namespace Particle

section Language

variable {α : Type} {letter : Nat → Term → Language α}

/-- What a leaf contributes when its term contributes what `letter` says. -/
def leafLetter (letter : Nat → Term → Language α) (l : Leaf) : Language α :=
  letter l.particle l.term

/-- The trees of a list of particles, `total` in number, stand for the particles: in sequence, and
with the empty word for those that vanished also by choice. -/
structure StandFor (letter : Nat → Term → Language α) (built : List Tree) (ps : List Particle)
    (next : Nat) : Prop where
  length_le : built.length ≤ ps.length
  sequence : Tree.languageOf (leafLetter letter) built = sequenceOf letter ps next
  choice : (Tree.choiceOf (leafLetter letter) built +
    if built.length < ps.length then 1 else 0) = choiceOf letter ps next

theorem standFor_nil (next : Nat) : StandFor letter [] [] next := by
  constructor <;> simp [Tree.languageOf, sequenceOf, Tree.choiceOf, choiceOf]

theorem standFor_cons {p : Particle} {ps : List Particle} {o : Option Tree} {built : List Tree}
    {next : Nat} (hp : Tree.languageOf? (leafLetter letter) o = p.language letter next)
    (hps : StandFor letter built ps (next + p.terms.length)) :
    StandFor letter (o.toList ++ built) (p :: ps) next := by
  have hle := hps.length_le
  constructor
  · cases o <;> simp <;> omega
  · rw [Tree.languageOf_append, hp, hps.sequence, sequenceOf]
  · unfold choiceOf
    rw [← hps.choice, ← hp]
    cases o with
    | none =>
      have hlt : built.length < ps.length + 1 := by omega
      simp only [Option.toList_none, List.nil_append, List.length_cons, hlt, if_true,
        Tree.languageOf?]
      split
      · rw [add_left_comm, Language.add_self]
      · rw [add_zero, add_comm]
    | some t =>
      simp [Tree.languageOf?, Tree.choiceOf, add_assoc]

/-- The trees of the members of a group, joined as the group says, stand for the group. -/
theorem language_group_of_standFor {c : Compositor} {members : List Particle} {m : Multiplicity}
    {built : List Tree} {next : Nat} (hc : c ≠ .all) (hn : m.isNever = false)
    (h : StandFor letter built members next) :
    (group c members m).language letter next = m.powers (Tree.languageOf? (leafLetter letter)
      (Draft.composed c (built.length < members.length) built)) := by
  simp only [language, hn, Bool.false_eq_true, if_false]
  congr 1
  cases c with
  | sequence => rw [Draft.language_composed_sequence, h.sequence]
  | choice =>
    cases built with
    | nil =>
      cases members with
      | nil => rfl
      | cons p ps => simpa [Tree.choiceOf, Draft.composed, Tree.languageOf?] using h.choice.symm
    | cons t ts =>
      cases members with
      | nil => exact absurd h.length_le (by simp)
      | cons p ps =>
        rw [Draft.language_composed_choice _ (by simp), ← h.choice]
        simp
  | all => exact absurd rfl hc

/-- A missing tree may be repeated as often as one likes. -/
theorem languageOf?_map_repeated {o : Option Tree} {m : Multiplicity} {f : Leaf → Language α}
    (ho : m.isOrdered = true) (hn : m.isNever = false) :
    Tree.languageOf? f (o.map (·.repeated m)) = m.powers (Tree.languageOf? f o) := by
  cases o with
  | none => exact (Multiplicity.powers_one ho).symm
  | some t => exact Tree.language_repeated t ho hn

theorem language_of_term {p : Particle} {term : Term} (h : p.term? = some term)
    (ho : p.occurs = .once) (next : Nat) : p.language letter next = letter next term := by
  have hn : Multiplicity.once.isNever = false := rfl
  cases p with
  | element name m =>
    cases h
    simp only [language, show m = .once from ho, hn, Multiplicity.powers_once]
    rfl
  | wildcard w =>
    cases h
    simp only [language, show w.occurs = .once from ho, hn, Multiplicity.powers_once]
    rfl
  | group c ms m => simp [term?] at h

/-- Spelled out or not, a term that may occur stands for its multiplicity of letters. -/
theorem language_expandedTermTree (term : Term) (next : Nat) {m : Multiplicity}
    (ho : m.isOrdered = true) (hn : m.isNever = false) :
    (expandedTermTree .validation ⟨term, next, 0⟩ m).language (leafLetter letter) =
      m.powers (letter next term) := by
  unfold expandedTermTree Draft.spelledOut
  rw [Tree.language_repeated _ ho hn, Tree.language, leafLetter]

mutual
theorem language_compactTree : ∀ {p : Particle} {next : Nat}, p.isCountable = true →
    p.isWellFormed = true →
    Tree.languageOf? (leafLetter letter) (p.compactTree next) = p.language letter next
  | element name m, next, _, _ => by
    cases hn : m.isNever <;>
      simp [compactTree, language, hn, Tree.languageOf?, Tree.language_countedTerm, leafLetter]
  | wildcard w, next, _, _ => by
    cases hn : w.occurs.isNever <;>
      simp [compactTree, language, hn, Tree.languageOf?, Tree.language_countedTerm, leafLetter]
  | group c members m, next, hc, hw => by
    cases hn : m.isNever with
    | true => simp [compactTree, language, hn, Tree.languageOf?]
    | false =>
      simp only [isWellFormed, hn, Bool.false_or, Bool.and_eq_true, bne_iff_ne] at hw
      cases ho : m.isOnce with
      | true =>
        have hall := Draft.allCountable_of_isOnce hc ho
        cases Multiplicity.isOnce_iff.1 ho
        rw [language_group_of_standFor hw.2.1 hn (standFor_compactTrees hall hw.2.2),
          compactTree_once, Multiplicity.powers_once]
      | false =>
        rcases Draft.repeated_group_cases hc ho with rfl | ⟨p, rfl, hp, honce⟩
        · rw [language_group_of_standFor hw.2.1 hn (standFor_nil next), compactTree_nil]
          exact (Multiplicity.powers_one hw.1).symm
        · obtain ⟨term, hterm⟩ := Option.isSome_iff_exists.1 hp
          have hone : Tree.languageOf? (leafLetter letter) (some (.leaf ⟨term, next, 0⟩)) =
              p.language letter next := (language_of_term hterm honce next).symm
          rw [language_group_of_standFor hw.2.1 hn (standFor_cons hone (standFor_nil _)),
            compactTree_repeated hn ho hterm, Tree.languageOf?, Tree.language_countedTerm]
          cases c <;> rfl
theorem standFor_compactTrees : ∀ {ps : List Particle} {next : Nat}, allCountable ps = true →
    allWellFormed ps = true → StandFor letter (compactTrees ps next) ps next
  | [], next, _, _ => standFor_nil next
  | p :: ps, next, hc, hw => by
    simp only [allCountable, allWellFormed, Bool.and_eq_true] at hc hw
    exact standFor_cons (language_compactTree hc.1 hw.1) (standFor_compactTrees hc.2 hw.2)
end

mutual
theorem language_expandedTree : ∀ {p : Particle} {next : Nat}, p.isWellFormed = true →
    Tree.languageOf? (leafLetter letter) (p.expandedTree .validation next) =
      p.language letter next
  | element name m, next, hw => by
    cases hn : m.isNever with
    | true => simp [expandedTree, language, hn, Tree.languageOf?]
    | false => simp [expandedTree, language, hn, Tree.languageOf?,
        language_expandedTermTree (.element name) next hw hn]
  | wildcard w, next, hw => by
    cases hn : w.occurs.isNever with
    | true => simp [expandedTree, language, hn, Tree.languageOf?]
    | false => simp [expandedTree, language, hn, Tree.languageOf?,
        language_expandedTermTree (.wildcard w) next hw hn]
  | group c members m, next, hw => by
    cases hn : m.isNever with
    | true => simp [expandedTree, language, hn, Tree.languageOf?]
    | false =>
      simp only [isWellFormed, hn, Bool.false_or, Bool.and_eq_true, bne_iff_ne] at hw
      rw [language_group_of_standFor hw.2.1 hn (standFor_expandedTrees hw.2.2),
        ← languageOf?_map_repeated hw.1 hn]
      simp [expandedTree, hn, Draft.spelledOut]
theorem standFor_expandedTrees : ∀ {ps : List Particle} {next : Nat}, allWellFormed ps = true →
    StandFor letter (expandedTrees .validation ps next) ps next
  | [], next, _ => standFor_nil next
  | p :: ps, next, hw => by
    simp only [allWellFormed, Bool.and_eq_true] at hw
    exact standFor_cons (language_expandedTree hw.1) (standFor_expandedTrees hw.2)
end

end Language

end Particle

end ContentAutomata
