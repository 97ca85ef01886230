import ContentAutomata.Proofs.Language.Cover
import ContentAutomata.Proofs.Tree.Meaning

/-!
# The tree drawn up to find ambiguities

When only ambiguity is asked for, ranges are squeezed: a group is repeated at most twice, and
exactly twice if an exact number is asked for (`Multiplicity.squeezed`); a term that may occur twice
may be repeated for ever (`Multiplicity.freed`). Either way it stays the same whether a particle may
be left out, and whether it may follow itself. For a group it also stays the same whether an exact
number is asked for; for a term that is lost.

So the tree that is drawn up then means what the particle would mean if it had those ranges.

Results:
* `resembles_squeezed`, `resembles_freed`: what stays the same of a range, and `Resembles.coveredBy`
  what it is good for;
* `isExact_squeezed_iff`, `isExact_freed_iff`: where an exact number is asked for;
* `language_expandedTree_attribution`: the tree has the language of the squeezed particle.
-/
namespace ContentAutomata

namespace Multiplicity

/-- The range that is spelled out for a term which may go on for ever once it is repeated. -/
def freed (m : Multiplicity) : Multiplicity :=
  ⟨if 1 < m.min then 1 else m.min, if m.max.any (1 < ·) then none else m.max⟩

variable {m m' : Multiplicity}

/-! ## Ranges that are much alike -/

/-- The second range is in order if the first one is, and the two agree on whether there may be no
occurrence, one, or two. -/
structure Resembles (m m' : Multiplicity) : Prop where
  isOrdered : m.isOrdered = true → m'.isOrdered = true
  isNever : m'.isNever = m.isNever
  absent : m'.min = 0 ↔ m.min = 0
  plural : m'.max.all (1 < ·) = m.max.all (1 < ·)

theorem one_lt_iff {a : UInt32} : 1 < a ↔ 2 ≤ a.toNat := by
  rw [UInt32.lt_iff_toNat_lt, UInt32.toNat_one]
  exact Iff.rfl

/-- Whether there may be two occurrences or more. -/
theorem exists_admits_iff (ho : m.isOrdered = true) :
    (∃ k, 2 ≤ k ∧ m.Admits k) ↔ m.max.all (1 < ·) = true := by
  obtain ⟨min, max⟩ := m
  cases max with
  | none =>
    simp only [admits_unbounded, Option.all_none, iff_true]
    exact ⟨min.toNat ⊔ 2, Nat.le_max_right _ _, Nat.le_max_left _ _⟩
  | some max =>
    have hle : min.toNat ≤ max.toNat := (admits_min ho).2 max rfl
    simp only [admits_bounded, Option.all_some, decide_eq_true_eq, one_lt_iff]
    constructor
    · intro h
      obtain ⟨k, hk, -, hmax⟩ := h
      exact hk.trans hmax
    · exact fun h => ⟨max.toNat, h, hle, le_rfl⟩

/-- A range covers, and is covered by, one that resembles it. -/
theorem Resembles.coveredBy (h : m.Resembles m') (ho : m.isOrdered = true) :
    m.CoveredBy m' ∧ m'.CoveredBy m := by
  have hplural := (exists_admits_iff (h.isOrdered ho)).trans
    (h.plural ▸ (exists_admits_iff ho).symm)
  exact ⟨⟨h.absent.2, fun hk hm => hplural.2 ⟨_, hk, hm⟩⟩,
    ⟨h.absent.1, fun hk hm => hplural.1 ⟨_, hk, hm⟩⟩⟩

/-! ## Squeezing and freeing -/

theorem squeezed_of_not_isRepeated (h : m.isRepeated = false) : m.squeezed = m := by
  simp only [isRepeated, Bool.or_eq_false_iff, decide_eq_false_iff_not] at h
  simp [squeezed, h.1, h.2]

/-- Without repetition by a bound, only the four common multiplicities are left. -/
theorem eq_of_not_isRepeated (h : m.isRepeated = false) (hn : m.isNever = false) :
    m = once ∨ m = optional ∨ m = zeroOrMore ∨ m = oneOrMore := by
  have zero_or_one : ∀ n : UInt32, ¬ 1 < n → n = 0 ∨ n = 1 := by
    intro n hn
    simp only [← UInt32.toNat_inj, UInt32.lt_iff_toNat_lt] at hn ⊢
    simp only [UInt32.toNat_zero, UInt32.toNat_one] at hn ⊢
    omega
  obtain ⟨min, max⟩ := m
  simp only [isRepeated, Bool.or_eq_false_iff, decide_eq_false_iff_not] at h
  cases max with
  | none => rcases zero_or_one min h.1 with rfl | rfl <;> simp [zeroOrMore, oneOrMore]
  | some max =>
    obtain rfl : max = 1 := (zero_or_one max (by simpa using h.2)).resolve_left
      (by simpa [isNever] using hn)
    rcases zero_or_one min h.1 with rfl | rfl <;> simp [once, optional]

/-- A range stays, becomes exactly two, loses its lower bound, or gets the upper bound two. -/
theorem squeezed_cases (ho : m.isOrdered = true) :
    m.isRepeated = false ∧ m.squeezed = m ∨
      m.IsExact ∧ 1 < m.min ∧ m.squeezed = ⟨2, some 2⟩ ∨
      1 < m.min ∧ m.max = none ∧ m.squeezed = .oneOrMore ∨
      ¬ m.IsExact ∧ m.max.any (1 < ·) = true ∧
        m.squeezed = ⟨if 1 < m.min then 1 else m.min, some 2⟩ := by
  obtain ⟨min, max⟩ := m
  cases max with
  | none =>
    simp only [isRepeated, squeezed, IsExact, oneOrMore, Option.any_none]
    grind
  | some max =>
    have hle : min ≤ max := isOrdered_iff.1 ho max rfl
    simp only [isRepeated, squeezed, IsExact, Option.any_some]
    grind

theorem Resembles.refl (m : Multiplicity) : m.Resembles m := ⟨id, rfl, .rfl, rfl⟩

theorem resembles_squeezed (ho : m.isOrdered = true) : m.Resembles m.squeezed := by
  rcases squeezed_cases ho with ⟨-, h⟩ | ⟨he, hmin, h⟩ | ⟨hmin, hmax, h⟩ | ⟨-, hmax, h⟩ <;> rw [h]
  · exact .refl m
  · have he' : m.max = some m.min := he
    constructor <;> simp [isOrdered, isNever, he'] <;> grind
  · constructor <;> simp [isOrdered, isNever, oneOrMore, hmax]
    grind
  · obtain ⟨b, hb, hlt⟩ := (Option.any_eq_true _ _).1 hmax
    constructor <;> simp [isOrdered, isNever, hb] <;> grind

theorem isExact_squeezed_iff (ho : m.isOrdered = true) : m.squeezed.IsExact ↔ m.IsExact := by
  rcases squeezed_cases ho with ⟨-, h⟩ | ⟨he, -, h⟩ | ⟨-, hmax, h⟩ | ⟨he, -, h⟩ <;> rw [h]
  · exact iff_of_true rfl he
  · simp [IsExact, oneOrMore, hmax]
  · refine iff_of_false (fun he' => ?_) he
    simp only [IsExact, Option.some.injEq] at he'
    grind

/-- Without repetition by a bound, exactly one occurrence is asked for, or two may stand for one. -/
theorem isExact_or_doubles_of_not_isRepeated (h : m.isRepeated = false) (hn : m.isNever = false) :
    m.IsExact ∨ m.doubles = true := by
  rcases eq_of_not_isRepeated h hn with rfl | rfl | rfl | rfl <;> decide

theorem isExact_or_doubles_squeezed (ho : m.isOrdered = true) (hn : m.isNever = false) :
    m.squeezed.IsExact ∨ m.squeezed.doubles = true := by
  rcases squeezed_cases ho with ⟨hr, h⟩ | ⟨-, -, h⟩ | ⟨-, -, h⟩ | ⟨-, -, h⟩ <;> rw [h]
  · exact isExact_or_doubles_of_not_isRepeated hr hn
  · exact .inl rfl
  · exact .inr rfl
  · refine .inr ?_
    split
    · rfl
    · rename_i hmin
      rw [one_lt_iff] at hmin
      simp only [doubles, Option.all_some, decide_eq_true_eq]
      exact Nat.mul_le_mul_left 2 (Nat.not_lt.1 hmin)

theorem two_le_min_of_squeezed (ho : m.isOrdered = true) (hmin : 2 ≤ m.squeezed.min.toNat) :
    2 ≤ m.min.toNat := by
  rw [← one_lt_iff] at hmin ⊢
  rcases squeezed_cases ho with ⟨-, h⟩ | ⟨-, hlt, -⟩ | ⟨hlt, -, -⟩ | ⟨-, -, h⟩
  · rwa [h] at hmin
  · exact hlt
  · exact hlt
  · rw [h] at hmin
    grind

theorem resembles_freed (ho : m.isOrdered = true) : m.Resembles m.freed := by
  obtain ⟨min, max⟩ := m
  cases max with
  | none =>
    constructor <;> simp [isOrdered, isNever, freed]
    grind
  | some max =>
    have hle : min ≤ max := isOrdered_iff.1 ho max rfl
    constructor <;> simp [isOrdered, isNever, freed] <;> grind

theorem isRepeated_freed (m : Multiplicity) : m.freed.isRepeated = false := by
  obtain ⟨min, max⟩ := m
  cases max <;> simp [isRepeated, freed] <;> grind

theorem freed_eq_once_iff (ho : m.isOrdered = true) : m.freed = once ↔ m = once := by
  obtain ⟨min, max⟩ := m
  cases max with
  | none => simp [freed, once]
  | some max =>
    have hle : min ≤ max := isOrdered_iff.1 ho max rfl
    simp only [freed, once, Option.any_some, Multiplicity.mk.injEq]
    grind

theorem freed_eq_optional_iff : m.freed = optional ↔ m = optional := by
  obtain ⟨min, max⟩ := m
  cases max with
  | none => simp [freed, optional]
  | some max =>
    simp only [freed, optional, Option.any_some, Multiplicity.mk.injEq]
    grind

theorem isNever_freed (ho : m.isOrdered = true) (hn : m.isNever = false) :
    m.freed.isNever = false := (resembles_freed ho).isNever.trans hn

theorem isExact_or_doubles_freed (ho : m.isOrdered = true) (hn : m.isNever = false) :
    m.freed.IsExact ∨ m.freed.doubles = true :=
  isExact_or_doubles_of_not_isRepeated (isRepeated_freed m) (isNever_freed ho hn)

/-- A range that is freed asks for an exact number only if that is one. -/
theorem isExact_freed_iff (ho : m.isOrdered = true) (hn : m.isNever = false) :
    m.freed.IsExact ↔ m = once := by
  rw [← freed_eq_once_iff ho]
  rcases eq_of_not_isRepeated (isRepeated_freed m) (isNever_freed ho hn) with h | h | h | h <;>
    rw [h] <;> decide

/-- An exact number is one, or two or more. -/
theorem two_le_min_of_isExact (he : m.IsExact) (hn : m.isNever = false) (h : m ≠ once) :
    2 ≤ m.min.toNat := by
  have hne := min_ne_zero_of_isExact he hn
  by_contra hlt
  have hmin : m.min = 1 := UInt32.toNat_inj.1 (by rw [UInt32.toNat_one]; omega)
  have hmax : m.max = some 1 := hmin ▸ he
  exact h (isOnce_iff.1 (by simp [isOnce, hmin, hmax]))

/-- What was squeezed is freed to the same range. -/
theorem freed_squeezed (ho : m.isOrdered = true) : m.squeezed.freed = m.freed := by
  rcases squeezed_cases ho with ⟨-, h⟩ | ⟨he, hmin, h⟩ | ⟨hmin, hmax, h⟩ | ⟨-, hmax, h⟩ <;> rw [h]
  · have he' : m.max = some m.min := he
    simp [freed, he', hmin]
  · simp [freed, hmin, hmax, oneOrMore]
  · simp only [freed, hmax]
    grind

end Multiplicity

namespace Tree

/-- A term that no bound repeats is drawn up the same way for either purpose. -/
theorem repeatedFreely_of_not_isRepeated (t : Tree) {m : Multiplicity}
    (h : m.isRepeated = false) (hn : m.isNever = false) : t.repeatedFreely m = t.repeated m := by
  rcases Multiplicity.eq_of_not_isRepeated h hn with rfl | rfl | rfl | rfl <;> rfl

/-- Repeating freely is repeating by the range that is freed. -/
theorem repeatedFreely_eq (t : Tree) {m : Multiplicity} (ho : m.isOrdered = true)
    (hn : m.isNever = false) : t.repeatedFreely m = t.repeated m.freed := by
  have hfreed := Multiplicity.resembles_freed ho
  rw [← repeatedFreely_of_not_isRepeated t m.isRepeated_freed (hfreed.isNever.trans hn)]
  simp only [repeatedFreely, Multiplicity.freed_eq_once_iff ho, Multiplicity.freed_eq_optional_iff,
    hfreed.absent]

end Tree

/-! ## Squeezed particles -/

namespace Particle

mutual
/-- The particle whose ranges are those that are spelled out when only ambiguity is asked for. -/
def squeezed : Particle → Particle
  | element name m => element name m.freed
  | wildcard w => wildcard { w with occurs := w.occurs.freed }
  | group c members m => group c (allSqueezed members) m.squeezed
/-- The particles of a list with such ranges. -/
def allSqueezed : List Particle → List Particle
  | [] => []
  | p :: ps => p.squeezed :: allSqueezed ps
end

@[simp] theorem length_allSqueezed (ps : List Particle) :
    (allSqueezed ps).length = ps.length := by
  induction ps with
  | nil => rfl
  | cons p ps ih => simp [allSqueezed, ih]

mutual
theorem length_terms_squeezed : ∀ {p : Particle}, p.isWellFormed = true →
    p.squeezed.terms.length = p.terms.length
  | element _ m, h => by simp only [squeezed, terms, (Multiplicity.resembles_freed h).isNever]
  | wildcard w, h => by
    simp only [squeezed, terms, (Multiplicity.resembles_freed h).isNever]
    split <;> rfl
  | group c members m, h => by
    simp only [isWellFormed, Bool.and_eq_true, Bool.or_eq_true] at h
    simp only [squeezed, terms, (Multiplicity.resembles_squeezed h.1).isNever]
    split
    · rfl
    · rename_i hn
      exact length_termsOf_allSqueezed (h.2.resolve_left hn).2
theorem length_termsOf_allSqueezed : ∀ {ps : List Particle}, allWellFormed ps = true →
    (termsOf (allSqueezed ps)).length = (termsOf ps).length
  | [], _ => rfl
  | p :: ps, h => by
    simp only [allWellFormed, Bool.and_eq_true] at h
    simp only [allSqueezed, termsOf, List.length_append, length_terms_squeezed h.1,
      length_termsOf_allSqueezed h.2]
end

/-! ## The language of the tree -/

/-- The language in which a term contributes its number. -/
abbrev ownNumber : Nat → Term → Language Nat := fun i _ => {[i]}

theorem language_expandedTermTree_attribution (term : Term) (next : Nat) {m : Multiplicity}
    (ho : m.isOrdered = true) (hn : m.isNever = false) :
    (expandedTermTree .attribution ⟨term, next, 0⟩ m).language (leafLetter ownNumber) =
      m.freed.powers {[next]} := by
  have hsqueezed := Multiplicity.resembles_squeezed ho
  have ho' := hsqueezed.isOrdered ho
  have hn' := hsqueezed.isNever.trans hn
  have hfreed := Multiplicity.resembles_freed ho'
  unfold expandedTermTree Draft.spelledOut
  rw [Tree.repeatedFreely_eq _ ho' hn',
    Tree.language_repeated _ (hfreed.isOrdered ho') (hfreed.isNever.trans hn'),
    Multiplicity.freed_squeezed ho, Tree.language, leafLetter]

mutual
theorem language_expandedTree_attribution : ∀ {p : Particle} {next : Nat}, p.isWellFormed = true →
    Tree.languageOf? (leafLetter ownNumber) (p.expandedTree .attribution next) =
      p.squeezed.language ownNumber next
  | element name m, next, hw => by
    have hm := (Multiplicity.resembles_freed hw).isNever
    cases hn : m.isNever with
    | true => simp [expandedTree, squeezed, language, hm, hn, Tree.languageOf?]
    | false => simp [expandedTree, squeezed, language, hm, hn, Tree.languageOf?,
        language_expandedTermTree_attribution (.element name) next hw hn]
  | wildcard w, next, hw => by
    have hm := (Multiplicity.resembles_freed hw).isNever
    cases hn : w.occurs.isNever with
    | true => simp [expandedTree, squeezed, language, hm, hn, Tree.languageOf?]
    | false => simp [expandedTree, squeezed, language, hm, hn, Tree.languageOf?,
        language_expandedTermTree_attribution (.wildcard w) next hw hn]
  | group c members m, next, hw => by
    simp only [isWellFormed, Bool.and_eq_true, Bool.or_eq_true, bne_iff_ne] at hw
    have hm := Multiplicity.resembles_squeezed hw.1
    cases hn : m.isNever with
    | true => simp [expandedTree, squeezed, language, hm.isNever, hn, Tree.languageOf?]
    | false =>
      have hw' := hw.2.resolve_left (by simp [hn])
      have hn' := hm.isNever.trans hn
      rw [squeezed, language_group_of_standFor hw'.1 hn' (standFor_expandedTrees_attribution hw'.2),
        ← languageOf?_map_repeated (hm.isOrdered hw.1) hn']
      simp [expandedTree, hn, Draft.spelledOut]
theorem standFor_expandedTrees_attribution : ∀ {ps : List Particle} {next : Nat},
    allWellFormed ps = true →
      StandFor ownNumber (expandedTrees .attribution ps next) (allSqueezed ps) next
  | [], next, _ => standFor_nil next
  | p :: ps, next, hw => by
    simp only [allWellFormed, Bool.and_eq_true] at hw
    refine standFor_cons (language_expandedTree_attribution hw.1) ?_
    rw [length_terms_squeezed hw.1]
    exact standFor_expandedTrees_attribution hw.2
end

end Particle

end ContentAutomata
