import ContentAutomata.Error
import ContentAutomata.Particle
import ContentAutomata.Proofs.Language.Repetition

/-!
# The language of a particle

What a particle means, without reference to trees or automata. An element or a wildcard stands for
its letters, a sequence for the concatenation of its members, a choice for their union, an `all`
group for its members in any order, and a multiplicity for that many words in a row. A particle that
may not occur stands for the empty word, as does a group without members.

The terms that may occur are numbered in document order. What a single term contributes is left
open, so that one definition gives the three languages of interest: `content` over the names of
children, `attributions` over the numbers of terms, `claims` over both at once.

Results:
* `language_related`: letters can be replaced before or after;
* `mem_content_iff`, `mem_attributions_iff`: the first two languages in terms of the third;
* `content_eq`: the words of names are those that fit the words of numbers;
* `term_of_mem_claims`: the letters of words are the terms, under their numbers;
* `terms_of_vanishes`: a particle that vanishes has no terms.
-/
namespace ContentAutomata

/-- A single child that the term accepts. -/
def Term.content (t : Term) : Language Name := {w | ∃ name, t.accepts name = true ∧ w = [name]}

/-- The term under the number accepts the name. -/
def Fits (terms : List Term) (e : Nat) (name : Name) : Prop :=
  ∃ t, terms[e]? = some t ∧ t.accepts name = true

namespace Particle

variable {α β : Type}

mutual
/-- The terms of a particle that may occur, in document order; a term is numbered by its place. -/
def terms : Particle → List Term
  | element name m => if m.isNever then [] else [.element name]
  | wildcard w => if w.occurs.isNever then [] else [.wildcard w]
  | group _ members m => if m.isNever then [] else termsOf members
/-- The terms of a list of particles that may occur. -/
def termsOf : List Particle → List Term
  | [] => []
  | p :: ps => p.terms ++ termsOf ps
end

mutual
/-- The language of a particle whose first term has the number `next`, where `letter` gives the
words of a single term. -/
def language (letter : Nat → Term → Language α) : Particle → (next : Nat) → Language α
  | element name m, next => if m.isNever then 1 else m.powers (letter next (.element name))
  | wildcard w, next => if w.occurs.isNever then 1 else w.occurs.powers (letter next (.wildcard w))
  | group c members m, next =>
    if m.isNever then 1
    else m.powers <|
      match c with
      | .sequence => sequenceOf letter members next
      | .choice => if members.isEmpty then 1 else choiceOf letter members next
      | .all => anyOrder (sequenceOf letter members next)
/-- The language of a list of particles one after the other. -/
def sequenceOf (letter : Nat → Term → Language α) : List Particle → (next : Nat) → Language α
  | [], _ => 1
  | p :: ps, next => p.language letter next * sequenceOf letter ps (next + p.terms.length)
/-- The language of a list of particles of which one is chosen. -/
def choiceOf (letter : Nat → Term → Language α) : List Particle → (next : Nat) → Language α
  | [], _ => 0
  | p :: ps, next => p.language letter next + choiceOf letter ps (next + p.terms.length)
end

/-- Whether the particle is an `all` group. -/
def isAllGroup : Particle → Bool
  | group .all _ _ => true
  | _ => false

/-- What holds of terms, of sequences and of choices holds of all that is no `all` group. -/
theorem notAll_cases {P : Particle → Prop} {p : Particle} (h : p.isAllGroup = false)
    (element : ∀ name m, P (element name m)) (wildcard : ∀ w, P (wildcard w))
    (sequence : ∀ members m, P (group .sequence members m))
    (choice : ∀ members m, P (group .choice members m)) : P p := by
  cases p with
  | element name m => exact element name m
  | wildcard w => exact wildcard w
  | group c members m =>
    cases c with
    | sequence => exact sequence members m
    | choice => exact choice members m
    | all => cases h

/-- The children that a particle admits: a term stands for any one name that it accepts. -/
def content (p : Particle) : Language Name := p.language (fun _ t => t.content) 0

/-- The terms that children may be attributed to, as numbers. -/
def attributions (p : Particle) : Language Nat := p.language (fun i _ => {[i]}) 0

/-- The terms that children may be attributed to. -/
def claims (p : Particle) : Language Claimant := p.language (fun i t => {[⟨t, i⟩]}) 0

/-! ## Replacing letters -/

section Related

variable {r : α → β → Prop} {f : Nat → Term → Language α} {g : Nat → Term → Language β}

mutual
theorem language_related (h : ∀ i t, g i t = related r (f i t)) :
    ∀ (p : Particle) (next : Nat), p.language g next = related r (p.language f next)
  | element name m, next => by
    unfold language
    split
    · rw [related_one]
    · rw [related_powers, h]
  | wildcard w, next => by
    unfold language
    split
    · rw [related_one]
    · rw [related_powers, h]
  | group c members m, next => by
    unfold language
    split
    · rw [related_one]
    · rw [related_powers]
      cases c with
      | sequence => rw [sequenceOf_related h members next]
      | choice =>
        simp only
        split
        · rw [related_one]
        · rw [choiceOf_related h members next]
      | all => simp only [related_anyOrder, sequenceOf_related h members next]
theorem sequenceOf_related (h : ∀ i t, g i t = related r (f i t)) :
    ∀ (ps : List Particle) (next : Nat), sequenceOf g ps next = related r (sequenceOf f ps next)
  | [], next => by rw [sequenceOf, sequenceOf, related_one]
  | p :: ps, next => by
    unfold sequenceOf
    rw [related_mul, language_related h p, sequenceOf_related h ps]
theorem choiceOf_related (h : ∀ i t, g i t = related r (f i t)) :
    ∀ (ps : List Particle) (next : Nat), choiceOf g ps next = related r (choiceOf f ps next)
  | [], next => by rw [choiceOf, choiceOf, related_zero]
  | p :: ps, next => by
    unfold choiceOf
    rw [related_add, language_related h p, choiceOf_related h ps]
end

end Related

theorem mem_content_iff {p : Particle} {names : List Name} :
    names ∈ p.content ↔
      ∃ w ∈ p.claims, List.Forall₂ (fun c name => c.term.accepts name = true) w names := by
  have hf : ∀ (i : Nat) (t : Term), t.content =
      related (fun c name => c.term.accepts name = true)
        ({[(⟨t, i⟩ : Claimant)]} : Language Claimant) := by
    intro i t
    ext v
    rw [mem_related_singleton]
    rfl
  unfold content
  rw [language_related hf]
  rfl

theorem mem_attributions_iff {p : Particle} {u : List Nat} :
    u ∈ p.attributions ↔ ∃ w ∈ p.claims, w.map (·.particle) = u := by
  have hlabel : ∀ (i : Nat) (t : Term), ({[i]} : Language Nat) =
      related (fun c j => c.particle = j) ({[(⟨t, i⟩ : Claimant)]} : Language Claimant) :=
    fun i t => (related_label_singleton Claimant.particle ⟨t, i⟩).symm
  unfold attributions
  rw [language_related hlabel]
  exact mem_related_label

/-! ## The letters of words -/

/-- Each claimant is one of the terms, which are numbered from `next` on. -/
def NumbersTerms (next : Nat) (ts : List Term) (w : List Claimant) : Prop :=
  ∀ c ∈ w, ∃ i, c.particle = next + i ∧ ts[i]? = some c.term

theorem NumbersTerms.append_left {next : Nat} {ts : List Term} {w : List Claimant}
    (h : NumbersTerms next ts w) (us : List Term) : NumbersTerms next (ts ++ us) w := by
  intro c hc
  obtain ⟨i, hi, ht⟩ := h c hc
  exact ⟨i, hi, by rwa [List.getElem?_append_left (List.getElem?_eq_some_iff.1 ht).1]⟩

theorem NumbersTerms.append_right {next : Nat} {us : List Term} {w : List Claimant} (ts : List Term)
    (h : NumbersTerms (next + ts.length) us w) : NumbersTerms next (ts ++ us) w := by
  intro c hc
  obtain ⟨i, hi, ht⟩ := h c hc
  refine ⟨ts.length + i, by omega, ?_⟩
  rwa [List.getElem?_append_right (by omega), Nat.add_sub_cancel_left]

theorem numbersTerms_powers {next : Nat} {ts : List Term} {L : Language Claimant}
    (h : ∀ v ∈ L, NumbersTerms next ts v) {m : Multiplicity} {w : List Claimant}
    (hw : w ∈ m.powers L) : NumbersTerms next ts w := by
  intro c hc
  obtain ⟨v, hv, hcv⟩ := Multiplicity.exists_mem_of_mem_powers hw hc
  exact h v hv c hcv

theorem numbersTerms_single (t : Term) (next : Nat) :
    ∀ v ∈ ({[⟨t, next⟩]} : Language Claimant), NumbersTerms next [t] v := by
  intro _ h c hc
  subst h
  obtain rfl := List.mem_singleton.1 hc
  exact ⟨0, rfl, rfl⟩

mutual
theorem numbersTerms_language : ∀ (p : Particle) (next : Nat),
    ∀ w ∈ p.language (fun i t => {[⟨t, i⟩]}) next, NumbersTerms next p.terms w
  | element name m, next, w, hw => by
    unfold language terms at *
    split at hw
    · rw [hw]
      simp [NumbersTerms]
    · rename_i hn
      rw [if_neg hn]
      exact numbersTerms_powers (numbersTerms_single _ _) hw
  | wildcard v, next, w, hw => by
    unfold language terms at *
    split at hw
    · rw [hw]
      simp [NumbersTerms]
    · rename_i hn
      rw [if_neg hn]
      exact numbersTerms_powers (numbersTerms_single _ _) hw
  | group c members m, next, w, hw => by
    unfold language terms at *
    split at hw
    · rw [hw]
      simp [NumbersTerms]
    · rename_i hn
      rw [if_neg hn]
      refine numbersTerms_powers (fun v hv => ?_) hw
      cases c with
      | sequence => exact numbersTerms_sequenceOf members next v hv
      | choice =>
        simp only at hv
        split at hv
        · rw [hv]
          simp [NumbersTerms]
        · exact numbersTerms_choiceOf members next v hv
      | all =>
        obtain ⟨v', hv', hperm⟩ := hv
        exact fun c hc => numbersTerms_sequenceOf members next v' hv' c (hperm.mem_iff.1 hc)
theorem numbersTerms_sequenceOf : ∀ (ps : List Particle) (next : Nat),
    ∀ w ∈ sequenceOf (fun i t => {[⟨t, i⟩]}) ps next, NumbersTerms next (termsOf ps) w
  | [], next, w, hw => by
    rw [hw]
    simp [NumbersTerms]
  | p :: ps, next, w, hw => by
    obtain ⟨u, hu, v, hv, rfl⟩ := hw
    have h := (numbersTerms_language p next u hu).append_left (termsOf ps)
    have h' := NumbersTerms.append_right p.terms (numbersTerms_sequenceOf ps _ v hv)
    intro c hc
    exact (List.mem_append.1 hc).elim (h c) (h' c)
theorem numbersTerms_choiceOf : ∀ (ps : List Particle) (next : Nat),
    ∀ w ∈ choiceOf (fun i t => {[⟨t, i⟩]}) ps next, NumbersTerms next (termsOf ps) w
  | [], next, w, hw => hw.elim
  | p :: ps, next, w, hw => by
    rcases hw with hw | hw
    · exact (numbersTerms_language p next w hw).append_left (termsOf ps)
    · exact NumbersTerms.append_right p.terms (numbersTerms_choiceOf ps _ w hw)
end

/-- A claimant carries the term of its number. -/
theorem term_of_mem_claims {p : Particle} {w : List Claimant} (hw : w ∈ p.claims) {c : Claimant}
    (hc : c ∈ w) : p.terms[c.particle]? = some c.term := by
  obtain ⟨i, hi, ht⟩ := numbersTerms_language p 0 w hw c hc
  rwa [hi, Nat.zero_add]

/-- The children that a particle admits are those that fit what they may be attributed to. -/
theorem content_eq (p : Particle) : p.content = related (Fits p.terms) p.attributions := by
  ext names
  simp only [mem_content_iff, mem_related, mem_attributions_iff]
  have hiff : ∀ w ∈ p.claims, List.Forall₂ (fun c name => c.term.accepts name = true) w names ↔
      List.Forall₂ (Fits p.terms) (w.map (·.particle)) names := by
    intro w hw
    have hterms := fun c hc => term_of_mem_claims hw (c := c) hc
    rw [List.forall₂_map_left_iff]
    constructor
    · intro h
      exact ((List.forall₂_and_left _ _).2 ⟨hterms, h⟩).imp fun c name ⟨ht, ha⟩ => ⟨_, ht, ha⟩
    · intro h
      refine ((List.forall₂_and_left _ _).2 ⟨hterms, h⟩).imp fun c name ⟨ht, t, ht', ha⟩ => ?_
      rwa [Option.some.inj (ht.symm.trans ht')]
  constructor
  · intro hx
    obtain ⟨w, hw, h⟩ := hx
    exact ⟨_, ⟨w, hw, rfl⟩, (hiff w hw).1 h⟩
  · intro hx
    obtain ⟨_, ⟨w, hw, rfl⟩, h⟩ := hx
    exact ⟨w, hw, (hiff w hw).2 h⟩

/-! ## Vanishing particles -/

variable {letter : Nat → Term → Language α}

mutual
theorem terms_of_vanishes : ∀ {p : Particle}, p.vanishes = true → p.terms = []
  | element _ m, h => by simpa [terms, vanishes] using h
  | wildcard w, h => by simpa [terms, vanishes] using h
  | group _ members m, h => by
    simp only [vanishes, Bool.or_eq_true] at h
    simp only [terms, ite_eq_left_iff, Bool.not_eq_true]
    intro hm
    exact termsOf_of_allVanish (h.resolve_left (by simp [hm]))
theorem termsOf_of_allVanish : ∀ {ps : List Particle}, allVanish ps = true → termsOf ps = []
  | [], _ => rfl
  | p :: ps, h => by
    simp only [allVanish, Bool.and_eq_true] at h
    simp [termsOf, terms_of_vanishes h.1, termsOf_of_allVanish h.2]
end

end Particle

end ContentAutomata
