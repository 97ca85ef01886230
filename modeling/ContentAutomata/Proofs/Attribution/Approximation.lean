import ContentAutomata.Checker
import ContentAutomata.Proofs.Attribution.Conflicts
import ContentAutomata.Proofs.Attribution.Squeezed
import ContentAutomata.Proofs.Builder.Caches
import ContentAutomata.Proofs.Builder.History

/-!
# What the check for ambiguities finds

The check looks at a model that was compiled for it. Unless counters help with the particle, that is
the model of a squeezed particle, so it finds the conflicts of that. It misses none of the particle
itself. What it finds beyond them goes back to a part of the particle that squeezing blurs.

Results:
* `findsConflicts_attribution`: what a model that was compiled for the check lists;
* `Checker.checkType_eq_ok`, `Checker.mem_checkType_events`: the verdict of the check and what it
  reports, whatever the type was asked before;
* `mem_ambiguities_attribution`, `mem_ambiguities_validation`: the lists of the two models compared,
  and the check with them.
-/
namespace ContentAutomata

open ContentAutomata.Tree

/-! ## The two models of a particle -/

namespace Particle

variable {p : Particle} {x : Ambiguity}

theorem findsConflicts_attribution (hw : p.isWellFormed = true) (isApproximate : Bool) :
    FindsConflicts p.terms p.squeezed.attributions
      (Model.ofTree isApproximate (p.expandedTree .attribution 0)).ambiguities := by
  have hlang : languageOf? (leafLetter ownNumber) (p.expandedTree .attribution 0) =
      p.squeezed.attributions := language_expandedTree_attribution hw
  have hlettered := lettered_expandedTree .attribution p 0
  cases ht : p.expandedTree .attribution 0 with
  | none =>
    rw [terms_of_vanishes ((expandedTree_eq_none_iff _ p 0).1 ht)]
    exact findsConflicts_empty _
  | some t =>
    rw [ht] at hlang hlettered
    have hplain : t.numbered.IsPlain := (isPlain_expandedTree ht).number 0
    have ready : t.numbered.IsReady p.terms := isReady_numbered hplain.isAllFree hlettered
    have hattr : p.squeezed.attributions = t.numbered.attributions :=
      hlang.symm.trans (attributions_numbered t).symm
    rw [hattr]
    exact (Automaton.simulates_plain ready hplain).findsConflicts fun _ =>
      Automaton.conflict_iff_plain ready hplain

/-- Squeezing loses no conflicts. -/
theorem isConflict_squeezed (hw : p.isWellFormed = true) (h : IsConflict p.terms p.attributions x) :
    IsConflict p.terms p.squeezed.attributions x :=
  ⟨h.lt, h.first_eq, h.second_eq, h.overlap,
    (coveredBy_squeezed 0 hw).covers.conflict trivial h.conflict⟩

/-- The model for the check lists whatever the one for validation lists. -/
theorem mem_ambiguities_model (hw : p.isAllGroup = false → p.isWellFormed = true)
    (hx : x ∈ (p.model .validation).ambiguities) : x ∈ (p.model .attribution).ambiguities := by
  cases hp : p.isAllGroup with
  | true => rwa [model_of_all hp]
  | false =>
    cases hc : p.isCountable with
    | true =>
      rw [model_of_countable hp hc] at hx ⊢
      exact hx
    | false =>
      rw [model_of_not_countable hp hc] at hx ⊢
      have hconflict := ((represents_expandedTree (hw hp) _).findsConflicts.mem_iff x).1 hx
      exact ((findsConflicts_attribution (hw hp) _).mem_iff x).2 (isConflict_squeezed (hw hp) hconflict)

section Pair

variable {q r : Particle} {i : Nat} {t u : Term}

end Pair

end Particle

/-! ## The check -/

namespace Checker

variable {c : Checker} {t : ComplexType} {b : Builder} {level : Level}

/-- The verdict of a check is about the model that would be compiled for it. -/
theorem checkType_eq_ok (h : t.IsFaithful) (he : c.enabled = true)
    (hpasses : (c.checkType t b level).passes = .ok true) :
    t.IsAccepted ∧ (c.checkType t b level).type = (t.contentModel b .attribution).type ∧
      ∀ m, t.modelFor .attribution = some m → m.ambiguities = [] := by
  simp only [checkType, he, if_true] at hpasses ⊢
  cases hm : (t.contentModel b .attribution).model with
  | error e => simp [hm] at hpasses
  | ok answer =>
    obtain ⟨rfl, haccepted, -⟩ := h.contentModel_eq_ok hm
    simp only [hm] at hpasses ⊢
    cases ha : t.modelFor .attribution with
    | none => exact ⟨haccepted, rfl, nofun⟩
    | some m =>
      simp only [ha, Except.ok.injEq] at hpasses
      refine ⟨haccepted, rfl, fun m' hm' => ?_⟩
      obtain rfl := Option.some.inj hm'
      exact (check_eq_true_iff.1 hpasses).resolve_left (by simp [he])

end Checker

/-! ## The lists of the two models compared -/

theorem Builder.exists_build (b : Builder) (p : Particle) (purpose : Purpose)
    (h : (b.build p purpose).1.isOk = true) : ∃ c b', b.build p purpose = (.ok c, b') := by
  cases hb : b.build p purpose with
  | mk outcome b' =>
    cases outcome with
    | ok c => exact ⟨c, b', rfl⟩
    | error e => simp [hb, Except.isOk, Except.toBool] at h

theorem ComplexType.exists_contentModel (t : ComplexType) (b : Builder) (purpose : Purpose)
    (h : ((t.contentModel b purpose).model.toOption.join).isSome = true) :
    ∃ m, (t.contentModel b purpose).model = .ok (some m) := by
  obtain ⟨m, hm⟩ := Option.isSome_iff_exists.1 h
  cases ha : (t.contentModel b purpose).model with
  | ok answer => exact ⟨m, by simpa [ha, Except.toOption] using hm⟩
  | error e => simp [ha, Except.toOption] at hm

/-- What validation may meet, the check finds, though it looks at an approximation: whatever the
model for validation lists, the model for the check lists too. So a type that has passed the check
has no ambiguities in the model that it is validated against. -/
theorem mem_ambiguities_attribution :
    (∀ (p : Particle) (b₁ b₁' b₂ b₂' : Builder) (c' c : Compilation),
      b₁.build p .attribution = (.ok c', b₁') → b₂.build p .validation = (.ok c, b₂') →
        ∀ x ∈ c.model.ambiguities, x ∈ c'.model.ambiguities) ∧
      ∀ (name : Option Name) (content : ContentKind) (particle : Option Particle)
        (calls calls' : List (Builder × Purpose)) (checker : Checker) (b b' : Builder)
        (level : Level),
        let t := (ComplexType.new name content particle).after calls
        let checked := checker.checkType t b level
        checker.enabled = true → checked.passes = .ok true →
          ∀ m, ((checked.type.after calls').contentModel b' .validation).model = .ok (some m) →
            m.ambiguities = [] := by
  constructor
  · intro p b₁ b₁' b₂ b₂' c' c hc' hc x hx
    rw [Builder.model_of_build hc] at hx
    rw [Builder.model_of_build hc']
    exact Particle.mem_ambiguities_model (fun hp => (Builder.build_eq_ok hp hc).1) hx
  · intro name content particle calls calls' checker b b' level t checked he hpasses m hm
    obtain ⟨ht, -⟩ := (ComplexType.isFaithful_new name content particle).after calls
    obtain ⟨haccepted, htype, hnone⟩ := Checker.checkType_eq_ok ht he hpasses
    rw [htype] at hm
    let t' := (t.contentModel b .attribution).type.after calls'
    have hparticle : t'.content = t.content ∧ t'.particle = t.particle := by
      have hcall := ComplexType.particle_contentModel t b .attribution
      have hcalls := ComplexType.particle_after (t.contentModel b .attribution).type calls'
      exact ⟨hcalls.1.trans hcall.1, hcalls.2.trans hcall.2⟩
    obtain ⟨ht', -⟩ := (ht.contentModel b .attribution).1.after calls'
    obtain ⟨hm, -, -⟩ := ht'.contentModel_eq_ok hm
    rw [(ComplexType.modelFor_congr hparticle.1 hparticle.2).1] at hm
    rcases t.modelFor_cases with hcases | hcases | ⟨p, hk, hp, hcases⟩ <;> rw [hcases] at hm
    · cases hm
    · cases hm
      rfl
    · obtain rfl := Option.some.inj hm
      refine List.eq_nil_iff_forall_not_mem.2 fun x hx => ?_
      have hx' := Particle.mem_ambiguities_model (haccepted hk p hp) hx
      rw [hnone _ (hcases _)] at hx'
      cases hx'

/-- Two or three times an optional `a` and an `a`, where both models list the pair, and two or three
times `a` and `b`, which passes. -/
theorem mem_ambiguities_attribution_copies :
    let a : Claimant := ⟨.element (.bare "a"), 0⟩
    let p : Particle := .group .sequence
      [.element (.bare "a") .optional, .element (.bare "a") .once] ⟨2, some 3⟩
    let q : Particle := .group .sequence
      [.element (.bare "a") .once, .element (.bare "b") .once] ⟨2, some 3⟩
    let checked := Checker.checkType ⟨true, .error⟩ (.new none .elementOnly (some q))
      (.new .default) .error
    (∃ c b, (Builder.new .default).build p .attribution = (.ok c, b) ∧
      ⟨a, { a with particle := 1 }⟩ ∈ c.model.ambiguities) ∧
    ∃ m, (checked.type.contentModel (.new .default) .validation).model = .ok (some m) ∧
      m.ambiguities = [] := by
  intro a p q checked
  obtain ⟨c', b', h'⟩ := Builder.exists_build (.new .default) p .attribution (by decide +kernel)
  obtain ⟨c, b, h⟩ := Builder.exists_build (.new .default) p .validation (by decide +kernel)
  have hlisted : c.model.ambiguities = [⟨a, { a with particle := 1 }⟩] := by
    rw [Builder.model_of_build h]
    decide +kernel
  obtain ⟨m, hm⟩ := ComplexType.exists_contentModel checked.type (.new .default) .validation
    (by decide +kernel)
  refine ⟨⟨c', b', h', ?_⟩, m, hm, ?_⟩
  · exact mem_ambiguities_attribution.1 p _ _ _ _ c' c h' h _ (hlisted ▸ List.mem_singleton_self _)
  · exact mem_ambiguities_attribution.2 none .elementOnly (some q) [] [] ⟨true, .error⟩
      (.new .default) (.new .default) .error rfl (by decide +kernel) m hm

end ContentAutomata
