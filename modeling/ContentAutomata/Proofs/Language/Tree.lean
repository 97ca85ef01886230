import ContentAutomata.Proofs.Language.Repetition
import ContentAutomata.Tree.Draft

/-!
# The language of a syntax tree

A syntax tree is a regular expression: its language is built from what `letter` gives for a single
leaf. A counted leaf stands for as many words of its letter as its range admits, so counting at run
time and spelling out copies have to come out the same.

Results:
* `language_copies`, `language_repeated`: spelling a multiplicity out means what it says;
* `language_countedTerm`: so does every shape that a repeated term is given where counters help;
* `language_number`: numbering does not matter where letters do not look at positions;
* `language_related`: letters can be replaced before or after.
-/
namespace ContentAutomata.Tree

open scoped Computability

variable {α β : Type}

mutual
/-- The language of a tree, where `letter` gives the words of a single leaf. -/
def language (letter : Leaf → Language α) : Tree → Language α
  | epsilon => 1
  | leaf l => letter l
  | counted l m => m.powers (letter l)
  | closure .optional t => 1 + t.language letter
  | closure .star t => (t.language letter)∗
  | closure .plus t => t.language letter * (t.language letter)∗
  | joined .choice l r => l.language letter + r.language letter
  | joined .sequence l r => l.language letter * r.language letter
  | all ts m => m.powers (anyOrder (languageOf letter ts))
/-- The language of a list of trees in sequence. -/
def languageOf (letter : Leaf → Language α) : List Tree → Language α
  | [] => 1
  | t :: ts => t.language letter * languageOf letter ts
end

/-- The words of a tree, as lists of leaves. -/
def words (t : Tree) : Language Leaf := t.language fun l => {[l]}

/-! ## Repetition -/

section Repetition

variable {letter : Leaf → Language α}

theorem language_copies {t : Tree} {count : Nat} (h : 0 < count) :
    (t.copies count).language letter = t.language letter ^ count := by
  induction count using Nat.strongRecOn with
  | ind count ih =>
    unfold copies
    split
    · have e : count = 1 := by omega
      rw [e, pow_one]
    · rw [language, ih (count / 2) (by omega) (by omega),
        ih (count - count / 2) (by omega) (by omega), ← pow_add]
      congr 1
      omega

theorem language_optional (t : Tree) :
    (closure .optional t).language letter = 1 + t.language letter := by rw [language]

/-- Spelling out a multiplicity without upper bound. -/
theorem language_repeated_unbounded (t : Tree) (min : UInt32) :
    (t.repeated ⟨min, none⟩).language letter =
      (⟨min, none⟩ : Multiplicity).powers (t.language letter) := by
  simp only [repeated, Multiplicity.once, Multiplicity.optional, Multiplicity.mk.injEq,
    reduceCtorEq, and_false, if_false]
  rw [Multiplicity.powers_atLeast]
  split
  · rename_i h0
    subst h0
    simp [language]
  split
  · rename_i h1
    subst h1
    simp [language]
  · rename_i h0 h1
    have hpos : 0 < min.toNat - 1 := by
      have e0 : min.toNat ≠ 0 := fun e => h0 (UInt32.toNat_inj.1 e)
      have e1 : min.toNat ≠ 1 := fun e => h1 (UInt32.toNat_inj.1 e)
      omega
    rw [language, language_copies hpos, language, ← mul_assoc, ← pow_succ, Nat.sub_add_cancel]
    omega

/-- Spelling out a multiplicity with an upper bound. -/
theorem language_repeated_bounded (t : Tree) {min max : UInt32} (hle : min ≤ max)
    (hmax : max ≠ 0) :
    (t.repeated ⟨min, some max⟩).language letter =
      (⟨min, some max⟩ : Multiplicity).powers (t.language letter) := by
  have hpos : 0 < max.toNat := Nat.pos_of_ne_zero fun e => hmax (UInt32.toNat_inj.1 e)
  have hle' := UInt32.le_iff_toNat_le.1 hle
  unfold repeated
  split
  · rename_i h
    rw [h, Multiplicity.powers_once]
  split
  · rename_i h
    rw [h, Multiplicity.powers_optional, language]
  simp only
  split
  · rename_i h
    subst h
    rw [language_copies hpos, language_optional, Multiplicity.powers_upTo]
  split
  · rename_i h
    subst h
    rw [language_copies hpos, Multiplicity.powers_exact]
  · rename_i h0 hne
    have hne0 : min.toNat ≠ 0 := fun e => h0 (UInt32.toNat_inj.1 e)
    have hne' : min.toNat ≠ max.toNat := fun e => hne (UInt32.toNat_inj.1 e)
    rw [language, language_copies (by omega), language_copies (by omega), language_optional,
      Multiplicity.powers_between hle]

theorem language_repeated (t : Tree) {m : Multiplicity} (ho : m.isOrdered = true)
    (hn : m.isNever = false) :
    (t.repeated m).language letter = m.powers (t.language letter) := by
  obtain ⟨min, max⟩ := m
  cases max with
  | none => exact language_repeated_unbounded t min
  | some max =>
    apply language_repeated_bounded t (by simpa [Multiplicity.isOrdered] using ho)
    intro h
    subst h
    simp [Multiplicity.isNever] at hn

theorem language_countedTerm (l : Leaf) (m : Multiplicity) :
    (Draft.countedTerm l m).language letter = m.powers (letter l) := by
  unfold Draft.countedTerm
  split
  · rename_i h
    rw [h, Multiplicity.powers_once, language]
  split
  · rename_i h
    rw [h, Multiplicity.powers_optional, language, language]
  split
  · rename_i h
    rw [h, Multiplicity.powers_zeroOrMore, language, language]
  split
  · rename_i h
    rw [h, Multiplicity.powers_oneOrMore, language, language]
  · unfold language
    rfl

end Repetition

/-! ## Numbering -/

section Numbering

variable {letter : Leaf → Language α}

mutual
theorem language_number (h : ∀ l k, letter { l with position := k } = letter l) :
    ∀ (t : Tree) (k : Nat), (t.number k).1.language letter = t.language letter
  | epsilon, k => rfl
  | leaf l, k => by rw [number, language, language, h]
  | counted l m, k => by rw [number, language, language, h]
  | closure op t, k => by
    cases op <;> simp only [number, language, language_number h t]
  | joined op l r, k => by
    cases op <;> simp only [number, language, language_number h l, language_number h r]
  | all ts m, k => by rw [number, language, language, languageOf_number h ts]
theorem languageOf_number (h : ∀ l k, letter { l with position := k } = letter l) :
    ∀ (ts : List Tree) (k : Nat), languageOf letter (numberAll ts k).1 = languageOf letter ts
  | [], k => rfl
  | t :: ts, k => by
    simp only [numberAll, languageOf, language_number h t, languageOf_number h ts]
end

end Numbering

/-! ## Replacing letters -/

section Related

variable {r : α → β → Prop} {f : Leaf → Language α} {g : Leaf → Language β}

mutual
theorem language_related (h : ∀ l, g l = related r (f l)) :
    ∀ t : Tree, t.language g = related r (t.language f)
  | epsilon => by rw [language, language, related_one]
  | leaf l => by rw [language, language, h]
  | counted l m => by rw [language, language, related_powers, h]
  | closure .optional t => by
    unfold language
    rw [related_add, related_one, language_related h t]
  | closure .star t => by rw [language, language, related_kstar, language_related h t]
  | closure .plus t => by
    unfold language
    rw [related_mul, related_kstar, language_related h t]
  | joined .choice l r => by
    unfold language
    rw [related_add, language_related h l, language_related h r]
  | joined .sequence l r => by
    unfold language
    rw [related_mul, language_related h l, language_related h r]
  | all ts m => by
    unfold language
    rw [related_powers, related_anyOrder, languageOf_related h ts]
theorem languageOf_related (h : ∀ l, g l = related r (f l)) :
    ∀ ts : List Tree, languageOf g ts = related r (languageOf f ts)
  | [] => by rw [languageOf, languageOf, related_one]
  | t :: ts => by
    unfold languageOf
    rw [related_mul, language_related h t, languageOf_related h ts]
end

end Related

/-- Where every leaf is replaced by its label, so is every word. -/
theorem mem_language_label {label : Leaf → α} {t : Tree} {u : List α} :
    (u ∈ t.language fun l => {[label l]}) ↔ ∃ w ∈ t.words, w.map label = u := by
  rw [language_related fun l => (related_label_singleton label l).symm]
  exact mem_related_label

end ContentAutomata.Tree
