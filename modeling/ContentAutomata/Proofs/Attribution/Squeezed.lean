import ContentAutomata.Proofs.Tree.Squeezing

/-!
# Squeezed ranges show the same conflicts

The language of a squeezed particle covers that of the particle: no conflict needs a third copy. The
other way round that holds only in part, since squeezing blurs exact numbers. A term that has to
occur a number of times may go on for ever once it is squeezed, and then competes with what comes
after it. In copies of a group that has to occur a number of times, the number tells the first
copies from the last one, as long as all of its words have to be divided into as many copies; if the
ranges inside no longer see to that once they are squeezed, some term of the group may come after a
word of it. In either case only conflicts of such a term with one outside are added. What is steady
blurs nothing.

Results:
* `coveredBy_squeezed`: the conflicts of a particle are conflicts of the squeezed particle;
* `squeezed_coveredBy`: the converse, unless some part confuses the two terms;
* `Part.Blurs.isSteady_eq_false`, `Part.Blurs.eq_first`: which parts blur, and what a term blurs.
-/
namespace ContentAutomata

namespace Particle

/-! ## Parts of a particle -/

/-- A particle as it stands in another one: the number of its first term goes with it. -/
structure Part where
  particle : Particle
  first : Nat

mutual
/-- The parts of a particle that may occur, itself among them, where the first term has the number
`next`. -/
def parts : Particle → (next : Nat) → List Part
  | element name m, next => if m.isNever then [] else [⟨element name m, next⟩]
  | wildcard w, next => if w.occurs.isNever then [] else [⟨wildcard w, next⟩]
  | group c members m, next =>
    if m.isNever then [] else ⟨group c members m, next⟩ :: partsOf members next
/-- Such parts of a list of particles. -/
def partsOf : List Particle → (next : Nat) → List Part
  | [], _ => []
  | p :: ps, next => p.parts next ++ partsOf ps (next + p.terms.length)
end

/-- Whether the number is that of a term of the part. -/
def Part.Holds (part : Part) (i : Nat) : Prop :=
  part.first ≤ i ∧ i < part.first + part.particle.terms.length

/-- A part that has to occur an exact number of times, two or more, blurs a term if that may come
after a word of the part once ranges are squeezed, and may not as they are. -/
structure Part.Blurs (part : Part) (i : Nat) : Prop where
  isExact : part.particle.occurs.IsExact
  plural : 2 ≤ part.particle.occurs.min.toNat
  squeezed : Extends (part.particle.squeezed.language ownNumber part.first) i
  not_extends : ¬ Extends (part.particle.language ownNumber part.first) i

/-- The part no longer tells two terms apart: it blurs one of them and does not hold the other. -/
def Part.Confuses (part : Part) (i j : Nat) : Prop :=
  part.Blurs i ∧ ¬ part.Holds j ∨ part.Blurs j ∧ ¬ part.Holds i

mutual
/-- Whether every range in the particle admits twice its least number; ranges of groups may be exact
as well, and a term may have to occur once. -/
def isSteady : Particle → Bool
  | element _ m => m.isOnce || m.doubles
  | wildcard w => w.occurs.isOnce || w.occurs.doubles
  | group _ members m => m.isNever || ((m.IsExact || m.doubles) && allSteady members)
/-- Whether that holds of every particle of a list. -/
def allSteady : List Particle → Bool
  | [] => true
  | p :: ps => p.isSteady && allSteady ps
end

/-! ## Covering by parts -/

section Parts

variable {C : Nat → Nat → Prop} {strict strict' : Prop} {next hi n : Nat} {p q : Particle}
  {ps qs : List Particle} {c : Compositor} {m m' : Multiplicity}

/-- The second list covers the first one, in sequence and by choice. -/
structure CoveredAll (C : Nat → Nat → Prop) (strict : Prop) (next hi : Nat) (ps qs : List Particle) :
    Prop where
  eq_nil_iff : ps = [] ↔ qs = []
  sequence : CoveredBy C strict next hi (sequenceOf ownNumber ps next) (sequenceOf ownNumber qs next)
  choice : ps ≠ [] →
    CoveredBy C strict next hi (choiceOf ownNumber ps next) (choiceOf ownNumber qs next)

theorem coveredAll_nil (C : Nat → Nat → Prop) (strict : Prop) (next : Nat) :
    CoveredAll C strict next next [] [] :=
  ⟨.rfl, coveredBy_one C strict le_rfl, fun h => absurd rfl h⟩

theorem CoveredAll.weaken (h : CoveredAll C strict next hi ps qs) (hs : strict' → strict) :
    CoveredAll C strict' next hi ps qs :=
  ⟨h.eq_nil_iff, h.sequence.weaken hs le_rfl, fun hne => (h.choice hne).weaken hs le_rfl⟩

theorem coveredAll_cons (hC : ∀ {i j}, C i j → C j i) (hlen : p.terms.length = n)
    (hlen' : q.terms.length = n)
    (hp : CoveredBy C strict next (next + n) (p.language ownNumber next)
      (q.language ownNumber next))
    (hps : CoveredAll C strict (next + n) hi ps qs) :
    CoveredAll C strict next hi (p :: ps) (q :: qs) := by
  refine ⟨by simp, ?_, fun _ => ?_⟩
  · simp only [sequenceOf, hlen, hlen']
    exact hp.mul hC hps.sequence
  · simp only [choiceOf, hlen, hlen']
    by_cases hnil : ps = []
    · obtain rfl := hps.eq_nil_iff.1 hnil
      subst hnil
      simp only [choiceOf, add_zero]
      exact hp.weaken id hps.sequence.le
    · exact hp.add hC (hps.choice hnil)

/-- A group covers another one if its members and its range do. -/
theorem coveredBy_group (hC : ∀ {i j}, C i j → C j i) (hc : c ≠ .all) (ho : m.isOrdered = true)
    (hn : m.isNever = false) (ho' : m'.isOrdered = true) (hn' : m'.isNever = false)
    (hm : m.CoveredBy m')
    (hexact : ∀ i j, Extends ((group c ps m).language ownNumber next) i →
      ¬ (next ≤ j ∧ j < hi) → C i j → m'.IsExact → m.IsExact ∧ (2 ≤ m.min.toNat → strict) ∨
        Extends ((group c qs m').language ownNumber next) i)
    (hstrict : strict' → strict ∧ (m'.IsExact → m.IsExact) ∧ (m'.IsExact ∨ m'.doubles = true))
    (h : CoveredAll C strict next hi ps qs) :
    CoveredBy C strict' next hi ((group c ps m).language ownNumber next)
      ((group c qs m').language ownNumber next) := by
  simp only [language, hn, hn', Bool.false_eq_true, if_false] at hexact ⊢
  refine CoveredBy.powers hC ho hn ho' hn' hm hexact hstrict ?_
  cases c with
  | sequence => exact h.sequence
  | choice =>
    by_cases hnil : ps = []
    · obtain rfl := h.eq_nil_iff.1 hnil
      subst hnil
      exact coveredBy_one C strict h.sequence.le
    · simpa [hnil, mt h.eq_nil_iff.2 hnil] using h.choice hnil
  | all => exact absurd rfl hc

end Parts

/-! ## Squeezing loses no conflicts -/

theorem coveredBy_freed {m : Multiplicity} (ho : m.isOrdered = true) (hn : m.isNever = false)
    (next : Nat) : CoveredBy (fun _ _ => True) True next (next + 1) (m.powers {[next]})
      (m.freed.powers {[next]}) := by
  have hm := Multiplicity.resembles_freed ho
  have hexact : m.freed.IsExact → m.IsExact := by
    intro he
    rw [(Multiplicity.isExact_freed_iff ho hn).1 he]
    rfl
  exact .powers id ho hn (hm.isOrdered ho) (hm.isNever.trans hn) (hm.coveredBy ho).1
    (fun _ _ _ _ _ he => .inl ⟨hexact he, fun _ => trivial⟩)
    (fun _ => ⟨trivial, hexact, Multiplicity.isExact_or_doubles_freed ho hn⟩)
    (coveredBy_single _ True next)

mutual
theorem coveredBy_squeezed : ∀ {p : Particle} (next : Nat), p.isWellFormed = true →
    CoveredBy (fun _ _ => True) True next (next + p.terms.length) (p.language ownNumber next)
      (p.squeezed.language ownNumber next)
  | element name m, next, hw => by
    have hm := (Multiplicity.resembles_freed hw).isNever
    cases hn : m.isNever with
    | true => simpa [language, squeezed, terms, hm, hn] using coveredBy_one _ True le_rfl
    | false => simpa [language, squeezed, terms, hm, hn] using coveredBy_freed hw hn next
  | wildcard w, next, hw => by
    have hm := (Multiplicity.resembles_freed hw).isNever
    cases hn : w.occurs.isNever with
    | true => simpa [language, squeezed, terms, hm, hn] using coveredBy_one _ True le_rfl
    | false => simpa [language, squeezed, terms, hm, hn] using coveredBy_freed hw hn next
  | group c members m, next, hw => by
    simp only [isWellFormed, Bool.and_eq_true, Bool.or_eq_true, bne_iff_ne] at hw
    have ho := hw.1
    have hm := Multiplicity.resembles_squeezed ho
    cases hn : m.isNever with
    | true => simpa [language, squeezed, terms, hm.isNever, hn] using coveredBy_one _ True le_rfl
    | false =>
      have hw' := hw.2.resolve_left (by simp [hn])
      have hmembers := coveredAll_squeezed next hw'.2
      have hexact := (Multiplicity.isExact_squeezed_iff ho).1
      rw [squeezed, terms, if_neg (by simp [hn])]
      exact coveredBy_group id hw'.1 ho hn (hm.isOrdered ho) (hm.isNever.trans hn)
        (hm.coveredBy ho).1 (fun _ _ _ _ _ he => .inl ⟨hexact he, fun _ => trivial⟩)
        (fun _ => ⟨trivial, hexact, Multiplicity.isExact_or_doubles_squeezed ho hn⟩) hmembers
theorem coveredAll_squeezed : ∀ {ps : List Particle} (next : Nat), allWellFormed ps = true →
    CoveredAll (fun _ _ => True) True next (next + (termsOf ps).length) ps (allSqueezed ps)
  | [], next, _ => coveredAll_nil _ True next
  | p :: ps, next, hw => by
    simp only [allWellFormed, Bool.and_eq_true] at hw
    have hps := coveredAll_squeezed (next + p.terms.length) hw.2
    rw [Nat.add_assoc, ← List.length_append] at hps
    exact coveredAll_cons id rfl (length_terms_squeezed hw.1) (coveredBy_squeezed next hw.1) hps
end

/-! ## What squeezing adds -/

section Terms

variable {p : Particle} (next : Nat) (hp : p.isTerm = true) (hn : p.occurs.isNever = false)
include hp hn

omit hp in
theorem terms_of_isTerm {t : Term} (ht : p.term? = some t) : p.terms = [t] := by
  cases p with
  | element name m => simp_all [terms, term?, occurs]
  | wildcard w => simp_all [terms, term?, occurs]
  | group c members m => cases ht

theorem length_terms_of_isTerm : p.terms.length = 1 := by
  obtain ⟨t, ht⟩ := Option.isSome_iff_exists.1 hp
  rw [terms_of_isTerm hn ht, List.length_singleton]

theorem language_of_isTerm : p.language ownNumber next = p.occurs.powers {[next]} := by
  cases p with
  | element name m => simp_all [language, occurs]
  | wildcard w => simp_all [language, occurs]
  | group c members m => cases hp

theorem language_squeezed_of_isTerm (ho : p.occurs.isOrdered = true) :
    p.squeezed.language ownNumber next = p.occurs.freed.powers {[next]} := by
  have hn' := Multiplicity.isNever_freed ho hn
  cases p with
  | element name m => simp_all [squeezed, language, occurs]
  | wildcard w => simp_all [squeezed, language, occurs]
  | group c members m => cases hp

theorem mem_parts_of_isTerm : ⟨p, next⟩ ∈ p.parts next := by
  cases p with
  | element name m => simp_all [parts, occurs]
  | wildcard w => simp_all [parts, occurs]
  | group c members m => cases hp

omit hn in
theorem isSteady_of_isTerm : p.isSteady = (p.occurs.isOnce || p.occurs.doubles) := by
  cases p with
  | element name m => rfl
  | wildcard w => rfl
  | group c members m => cases hp

/-- A term that has to occur an exact number of times is steady only if that is one. -/
theorem isSteady_iff_of_isExact (he : p.occurs.IsExact) : p.isSteady = true ↔ p.occurs = .once := by
  have hmin := Multiplicity.min_ne_zero_of_isExact he hn
  rw [isSteady_of_isTerm hp, Bool.or_eq_true, Multiplicity.isOnce_iff, or_iff_left]
  intro hdoubles
  have hle := (Multiplicity.admits_double hdoubles).2 _ he
  omega

end Terms

section Blurred

variable {C : Nat → Nat → Prop} (hC : ∀ {i j}, C i j → C j i)
include hC

theorem squeezed_coveredBy_of_isTerm {p : Particle} (next : Nat) (hp : p.isTerm = true)
    (hn : p.occurs.isNever = false) (ho : p.occurs.isOrdered = true)
    (hparts : p.isSteady = false → ∀ part ∈ p.parts next, ∀ i j, C i j → ¬ part.Confuses i j) :
    CoveredBy C (p.isSteady = true) next (next + p.terms.length)
      (p.squeezed.language ownNumber next) (p.language ownNumber next) := by
  have hsqueezed := language_squeezed_of_isTerm next hp hn ho
  have hlanguage := language_of_isTerm next hp hn
  have hlen := length_terms_of_isTerm hp hn
  have hm := Multiplicity.resembles_freed ho
  have hfreed := Multiplicity.isExact_freed_iff ho hn
  rw [hsqueezed, hlanguage, hlen]
  refine .powers hC (hm.isOrdered ho) (hm.isNever.trans hn) ho hn (hm.coveredBy ho).2
    (fun i j hi hj hij he => ?_) (fun hs => ?_) (coveredBy_single C True next)
  · by_cases hsteady : p.isSteady = true
    · have honce := (isSteady_iff_of_isExact hp hn he).1 hsteady
      exact .inl ⟨hfreed.2 honce, fun _ => trivial⟩
    · -- otherwise the term is a part that blurs itself
      refine .inr (by_contra fun hnot => ?_)
      have hmin := Multiplicity.two_le_min_of_isExact he hn
        (mt (isSteady_iff_of_isExact hp hn he).2 hsteady)
      refine hparts (Bool.eq_false_iff.2 hsteady) _ (mem_parts_of_isTerm next hp hn) i j hij
        (.inl ⟨⟨he, hmin, ?_, ?_⟩, ?_⟩)
      · rwa [hsqueezed]
      · rwa [hlanguage]
      · rwa [Part.Holds, hlen]
  · refine ⟨trivial, fun he => hfreed.2 ((isSteady_iff_of_isExact hp hn he).1 hs), ?_⟩
    rw [isSteady_of_isTerm hp] at hs
    rcases Bool.or_eq_true_iff.1 hs with honce | hdoubles
    · rw [Multiplicity.isOnce_iff.1 honce]
      exact .inl rfl
    · exact .inr hdoubles

mutual
/-- A steady particle covers itself squeezed; any other does so for pairs of terms that no part of
it confuses. -/
theorem squeezed_coveredBy : ∀ {p : Particle} (next : Nat), p.isWellFormed = true →
    (p.isSteady = false → ∀ part ∈ p.parts next, ∀ i j, C i j → ¬ part.Confuses i j) →
    CoveredBy C (p.isSteady = true) next (next + p.terms.length)
      (p.squeezed.language ownNumber next) (p.language ownNumber next)
  | element name m, next, hw, hparts => by
    have hm := (Multiplicity.resembles_freed hw).isNever
    cases hn : m.isNever with
    | true => simpa [language, squeezed, terms, hm, hn] using coveredBy_one C _ le_rfl
    | false => exact squeezed_coveredBy_of_isTerm hC next rfl hn hw hparts
  | wildcard w, next, hw, hparts => by
    have hm := (Multiplicity.resembles_freed hw).isNever
    cases hn : w.occurs.isNever with
    | true => simpa [language, squeezed, terms, hm, hn] using coveredBy_one C _ le_rfl
    | false => exact squeezed_coveredBy_of_isTerm hC next rfl hn hw hparts
  | group c members m, next, hw, hparts => by
    simp only [isWellFormed, Bool.and_eq_true, Bool.or_eq_true, bne_iff_ne] at hw
    have ho := hw.1
    have hm := Multiplicity.resembles_squeezed ho
    cases hn : m.isNever with
    | true => simpa [language, squeezed, terms, hm.isNever, hn] using coveredBy_one C _ le_rfl
    | false =>
      have hw' := hw.2.resolve_left (by simp [hn])
      simp only [isSteady, parts, hn, Bool.false_or, Bool.false_eq_true, if_false] at hparts ⊢
      have hmembers := squeezed_coveredAll next hw'.2 fun hsteady part hpart =>
        hparts (by simp [hsteady]) part (List.mem_cons_of_mem _ hpart)
      have hexact := (Multiplicity.isExact_squeezed_iff ho).2
      have hlen : (group c members m).terms = termsOf members := by simp [terms, hn]
      rw [hlen]
      refine coveredBy_group hC hw'.1 (hm.isOrdered ho) (hm.isNever.trans hn) ho hn
        (hm.coveredBy ho).2 (fun i j hi hj hij he => ?_) (fun hs => ?_) hmembers
      · by_cases hsteady : allSteady members = true
        · exact .inl ⟨hexact he, fun _ => hsteady⟩
        · refine or_iff_not_imp_right.2 fun hnot => ⟨hexact he, fun hmin => ?_⟩
          -- otherwise the group is a part that blurs the term
          have hblurs : (Part.mk (group c members m) next).Blurs i :=
            ⟨he, Multiplicity.two_le_min_of_squeezed ho hmin, hi, hnot⟩
          refine absurd (.inl ⟨hblurs, ?_⟩) (hparts (by simp [hsteady]) _ List.mem_cons_self i j hij)
          rwa [Part.Holds, hlen]
      · simp only [Bool.and_eq_true, Bool.or_eq_true, decide_eq_true_eq] at hs
        exact ⟨hs.2, hexact, hs.1⟩
theorem squeezed_coveredAll : ∀ {ps : List Particle} (next : Nat), allWellFormed ps = true →
    (allSteady ps = false → ∀ part ∈ partsOf ps next, ∀ i j, C i j → ¬ part.Confuses i j) →
    CoveredAll C (allSteady ps = true) next (next + (termsOf ps).length) (allSqueezed ps) ps
  | [], next, _, _ => coveredAll_nil C _ next
  | p :: ps, next, hw, hparts => by
    simp only [allWellFormed, Bool.and_eq_true] at hw
    rw [partsOf, allSteady] at hparts
    have hp := squeezed_coveredBy next hw.1 fun hsteady part hpart =>
      hparts (by simp [hsteady]) part (List.mem_append_left _ hpart)
    have hps := squeezed_coveredAll (next + p.terms.length) hw.2 fun hsteady part hpart =>
      hparts (by simp [hsteady]) part (List.mem_append_right _ hpart)
    rw [Nat.add_assoc, ← List.length_append] at hps
    have hsteady : allSteady (p :: ps) = true → p.isSteady = true ∧ allSteady ps = true := by
      simp [allSteady]
    exact coveredAll_cons hC (length_terms_squeezed hw.1) rfl
      (hp.weaken (fun h => (hsteady h).1) le_rfl) (hps.weaken fun h => (hsteady h).2)
end

end Blurred

/-! ## What parts may blur -/

namespace Part

variable {part : Part} {i : Nat}

end Part

mutual
/-- What holds of all ranges in a particle holds of those in its parts. -/
theorem of_mem_parts : ∀ {p : Particle} {next : Nat} {part : Part}, part ∈ p.parts next →
    p.isWellFormed = true →
      part.particle.isWellFormed = true ∧ (p.isSteady = true → part.particle.isSteady = true)
  | element name m, next, part, hpart, hw => by
    rw [parts] at hpart
    split at hpart
    · cases hpart
    · obtain rfl := List.mem_singleton.1 hpart
      exact ⟨hw, id⟩
  | wildcard w, next, part, hpart, hw => by
    rw [parts] at hpart
    split at hpart
    · cases hpart
    · obtain rfl := List.mem_singleton.1 hpart
      exact ⟨hw, id⟩
  | group c members m, next, part, hpart, hw => by
    rw [parts] at hpart
    split at hpart
    · cases hpart
    · rename_i hn
      rcases List.mem_cons.1 hpart with rfl | hpart
      · exact ⟨hw, id⟩
      · simp only [isWellFormed, Bool.and_eq_true, Bool.or_eq_true] at hw
        obtain ⟨hpw, hps⟩ := of_mem_partsOf hpart (hw.2.resolve_left hn).2
        refine ⟨hpw, fun hsteady => hps ?_⟩
        simp only [isSteady, Bool.and_eq_true, Bool.or_eq_true] at hsteady
        exact (hsteady.resolve_left hn).2
theorem of_mem_partsOf : ∀ {ps : List Particle} {next : Nat} {part : Part},
    part ∈ partsOf ps next → allWellFormed ps = true →
      part.particle.isWellFormed = true ∧ (allSteady ps = true → part.particle.isSteady = true)
  | [], _, _, hpart, _ => by cases hpart
  | p :: ps, next, part, hpart, hw => by
    simp only [allWellFormed, Bool.and_eq_true] at hw
    have hsteady : allSteady (p :: ps) = true → p.isSteady = true ∧ allSteady ps = true := by
      simp [allSteady]
    rcases List.mem_append.1 hpart with hpart | hpart
    · obtain ⟨hpw, hps⟩ := of_mem_parts hpart hw.1
      exact ⟨hpw, fun h => hps (hsteady h).1⟩
    · obtain ⟨hpw, hps⟩ := of_mem_partsOf hpart hw.2
      exact ⟨hpw, fun h => hps (hsteady h).2⟩
end

end Particle

end ContentAutomata
