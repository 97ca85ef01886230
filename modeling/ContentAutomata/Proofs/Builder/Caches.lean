import ContentAutomata.ComplexType
import ContentAutomata.Proofs.Run.Compiled
import ContentAutomata.Proofs.Tree.Squeezing

/-!
# What a type keeps is what would be compiled

The model of a particle depends on what it is wanted for, and not on the limits under which it is
compiled (`Builder.model_of_build`). A tree drawn up to find ambiguities that is no approximation is
node for node the tree drawn up for validation. So a type may serve a model that was compiled for
the one purpose for the other one, and whatever it keeps, after any series of calls, is what a new
builder would compile.

Results:
* `expandedTree_of_exact`, `model_of_exact`: a tree, and a model, that is no approximation is the
  one for validation;
* `IsFaithful.after`: a type keeps nothing but what it would compile;
* `contentModel_after`: what this means for the answers of a type, whatever was asked before.
-/
namespace ContentAutomata

/-! ## Trees that are no approximations -/

namespace Particle

mutual
theorem isApproximated_validation : ∀ p : Particle, p.isApproximated .validation = false
  | element _ _ => by simp [isApproximated, Draft.isApproximate]
  | wildcard _ => by simp [isApproximated, Draft.isApproximate]
  | group _ members _ => by
    simp [isApproximated, Draft.isApproximate, anyApproximated_validation members]
theorem anyApproximated_validation : ∀ ps : List Particle, anyApproximated .validation ps = false
  | [] => rfl
  | p :: ps => by
    simp [anyApproximated, isApproximated_validation p, anyApproximated_validation ps]
end

theorem expandedTermTree_of_exact {l : Leaf} {m : Multiplicity} (h : m.isRepeated = false)
    (hn : m.isNever = false) :
    expandedTermTree .attribution l m = expandedTermTree .validation l m := by
  simp only [expandedTermTree, Draft.spelledOut, Multiplicity.squeezed_of_not_isRepeated h]
  exact Tree.repeatedFreely_of_not_isRepeated _ h hn

/-- A multiplicity that was squeezed leaves its mark on all groups around it. -/
theorem exact_of_not_isApproximated {c : Compositor} {members : List Particle} {m : Multiplicity}
    (h : (group c members m).isApproximated .attribution = false)
    (hv : (group c members m).vanishes = false) :
    m.isRepeated = false ∧ anyApproximated .attribution members = false := by
  have hv' : (m.isNever || allVanish members) = false := hv
  simpa [isApproximated, hv', Draft.isApproximate] using h

mutual
theorem expandedTree_of_exact : ∀ {p : Particle} (next : Nat),
    p.isApproximated .attribution = false →
      p.expandedTree .attribution next = p.expandedTree .validation next
  | element name m, next, h => by
    cases hn : m.isNever with
    | true => simp [expandedTree, hn]
    | false =>
      have hm : m.isRepeated = false := by
        simpa [isApproximated, hn, Draft.isApproximate] using h
      simp only [expandedTree, hn, expandedTermTree_of_exact hm hn]
  | wildcard w, next, h => by
    cases hn : w.occurs.isNever with
    | true => simp [expandedTree, hn]
    | false =>
      have hm : w.occurs.isRepeated = false := by
        simpa [isApproximated, hn, Draft.isApproximate] using h
      simp only [expandedTree, hn, expandedTermTree_of_exact hm hn]
  | group c members m, next, h => by
    cases hv : (group c members m).vanishes with
    | true =>
      rw [(expandedTree_eq_none_iff _ _ _).2 hv, (expandedTree_eq_none_iff _ _ _).2 hv]
    | false =>
      obtain ⟨hm, hmembers⟩ := exact_of_not_isApproximated h hv
      simp only [expandedTree, expandedTrees_of_exact next hmembers, Draft.spelledOut,
        Multiplicity.squeezed_of_not_isRepeated hm]
theorem expandedTrees_of_exact : ∀ {ps : List Particle} (next : Nat),
    anyApproximated .attribution ps = false →
      expandedTrees .attribution ps next = expandedTrees .validation ps next
  | [], next, _ => rfl
  | p :: ps, next, h => by
    simp only [anyApproximated, Bool.or_eq_false_iff] at h
    simp only [expandedTrees, expandedTree_of_exact next h.1, expandedTrees_of_exact _ h.2]
end

/-! ## Models that are no approximations -/

theorem isTreeApproximate_validation (p : Particle) : p.isTreeApproximate .validation = false := by
  simp [isTreeApproximate, isApproximated_validation]

theorem isApproximate_ofTree (isApproximate : Bool) (t : Option Tree) :
    (Model.ofTree isApproximate t).isApproximate = (isApproximate && t.isSome) := by
  cases t <;> simp [Model.ofTree, Model.isApproximate, Tree.automaton, Automaton.ofTree]

theorem isApproximate_model_validation (p : Particle) :
    (p.model .validation).isApproximate = false := by
  cases hp : p.isAllGroup with
  | false => rw [model_of_not_all hp, isApproximate_ofTree, isTreeApproximate_validation]; rfl
  | true =>
    obtain ⟨members, m, rfl⟩ := exists_of_isAllGroup hp
    simp only [model]
    split <;> rfl

theorem model_of_exact {p : Particle} (h : (p.model .attribution).isApproximate = false) :
    p.model .attribution = p.model .validation := by
  cases hp : p.isAllGroup with
  | true => exact model_of_all hp
  | false =>
    cases hc : p.isCountable with
    | true => rw [model_of_countable hp hc, model_of_countable hp hc]
    | false =>
      rw [model_of_not_countable hp hc, isApproximate_ofTree] at h
      rw [model_of_not_countable hp hc, model_of_not_countable hp hc, isApproximated_validation]
      cases ha : p.isApproximated .attribution with
      | false => rw [expandedTree_of_exact 0 ha]
      | true =>
        have hnone : p.expandedTree .attribution 0 = none := by simpa [ha] using h
        have hvanish := (expandedTree_eq_none_iff _ _ _).1 hnone
        rw [hnone, (expandedTree_eq_none_iff _ _ _).2 hvanish]
        rfl

end Particle

/-! ## What a type keeps -/

namespace ComplexType

variable {t : ComplexType} {b : Builder} {purpose : Purpose}

/-- The content model of a type, whatever the limits. -/
def modelFor (t : ComplexType) (purpose : Purpose) : Option Model :=
  if t.content.hasParticles then
    match t.particle with
    | some p => some (p.model purpose)
    | none => some .empty
  else none

/-- What the two models of a type may be. -/
theorem modelFor_cases (t : ComplexType) :
    (∀ purpose, t.modelFor purpose = none) ∨ (∀ purpose, t.modelFor purpose = some .empty) ∨
      ∃ p, t.content.hasParticles = true ∧ t.particle = some p ∧
        ∀ purpose, t.modelFor purpose = some (p.model purpose) := by
  unfold modelFor
  cases hk : t.content.hasParticles with
  | false => exact .inl fun _ => rfl
  | true =>
    cases hp : t.particle with
    | none => exact .inr (.inl fun _ => rfl)
    | some p => exact .inr (.inr ⟨p, rfl, rfl, fun _ => rfl⟩)

/-- Nothing in the particle of the type is refused, whatever the limits. -/
def IsAccepted (t : ComplexType) : Prop :=
  t.content.hasParticles = true →
    ∀ p, t.particle = some p → p.isAllGroup = false → p.isWellFormed = true

/-- Asks a type for its content model, once by each builder and for each purpose. -/
def after (t : ComplexType) (calls : List (Builder × Purpose)) : ComplexType :=
  calls.foldl (fun t call => (t.contentModel call.1 call.2).type) t

/-- What is compiled does not depend on the builder. -/
theorem compile_eq_ok {answer : Option Model} (h : (t.compile b purpose).model = .ok answer) :
    answer = t.modelFor purpose ∧ t.IsAccepted := by
  unfold compile at h
  unfold modelFor IsAccepted
  cases hk : t.content.hasParticles with
  | false =>
    simp only [hk, Bool.false_eq_true, if_false] at h
    exact ⟨(Except.ok.inj h).symm, fun hk' => by simp at hk'⟩
  | true =>
    simp only [hk, if_true] at h ⊢
    cases hp : t.particle with
    | none =>
      simp only [hp] at h
      exact ⟨(Except.ok.inj h).symm, fun _ q hq => by simp at hq⟩
    | some p =>
      simp only [hp] at h ⊢
      cases hb : b.build p purpose with
      | mk outcome b' =>
        cases outcome with
        | error e => simp [hb, Except.map] at h
        | ok c =>
          simp only [hb, Except.map, Except.ok.injEq] at h
          refine ⟨by rw [← h, Builder.model_of_build hb], fun _ q hq hall => ?_⟩
          obtain rfl := Option.some.inj hq
          exact (Builder.build_eq_ok hall hb).1

/-- An answer that is no approximation is the one for validation. -/
theorem modelFor_of_isExact (h : isExact (t.modelFor .attribution) = true) :
    t.modelFor .attribution = t.modelFor .validation := by
  rcases t.modelFor_cases with hm | hm | ⟨p, -, -, hm⟩ <;> rw [hm, hm]
  have hexact : (p.model .attribution).isApproximate = false := by simpa [hm, isExact] using h
  rw [Particle.model_of_exact hexact]

theorem isExact_modelFor_validation (t : ComplexType) : isExact (t.modelFor .validation) = true := by
  rcases t.modelFor_cases with hm | hm | ⟨p, -, -, hm⟩ <;> rw [hm]
  · rfl
  · rfl
  · simp [isExact, Particle.isApproximate_model_validation]

/-- The type keeps nothing but what it would compile, and nothing unless it can be compiled. -/
def IsFaithful (t : ComplexType) : Prop :=
  ∀ purpose answer, t.cached purpose = some answer → answer = t.modelFor purpose ∧ t.IsAccepted

/-- What a type may be asked for depends on its content and its particle only. -/
theorem modelFor_congr {u : ComplexType} (hc : u.content = t.content)
    (hp : u.particle = t.particle) :
    (∀ purpose, u.modelFor purpose = t.modelFor purpose) ∧ (u.IsAccepted ↔ t.IsAccepted) := by
  unfold modelFor IsAccepted
  simp only [hc, hp, implies_true, and_self]

theorem particle_keep (t : ComplexType) (purpose : Purpose) (m : Option Model) :
    (t.keep purpose m).content = t.content ∧ (t.keep purpose m).particle = t.particle := by
  cases purpose <;> exact ⟨rfl, rfl⟩

theorem particle_publishExact (t : ComplexType) (purpose : Purpose) (m : Option Model) :
    (t.publishExact purpose m).content = t.content ∧
      (t.publishExact purpose m).particle = t.particle := by
  unfold publishExact publish
  cases purpose with
  | validation => exact ⟨rfl, rfl⟩
  | attribution =>
    dsimp only
    split
    · split <;> exact ⟨rfl, rfl⟩
    · exact ⟨rfl, rfl⟩

theorem particle_contentModel (t : ComplexType) (b : Builder) (purpose : Purpose) :
    (t.contentModel b purpose).type.content = t.content ∧
      (t.contentModel b purpose).type.particle = t.particle := by
  unfold contentModel
  split
  · exact particle_publishExact t purpose _
  · dsimp only
    split
    · rename_i m _
      have hkeep := particle_keep t purpose m
      have hpublish := particle_publishExact (t.keep purpose m) purpose m
      exact ⟨hpublish.1.trans hkeep.1, hpublish.2.trans hkeep.2⟩
    · rw [compile_type]
      exact ⟨rfl, rfl⟩

theorem particle_after (t : ComplexType) (calls : List (Builder × Purpose)) :
    (t.after calls).content = t.content ∧ (t.after calls).particle = t.particle := by
  induction calls generalizing t with
  | nil => exact ⟨rfl, rfl⟩
  | cons call calls ih =>
    have hcall := particle_contentModel t call.1 call.2
    have hcalls := ih (t.contentModel call.1 call.2).type
    exact ⟨hcalls.1.trans hcall.1, hcalls.2.trans hcall.2⟩

theorem cached_keep (t : ComplexType) (purpose : Purpose) (m : Option Model) :
    (t.keep purpose m).cached purpose = some m := by
  cases purpose <;> rfl

theorem cached_keep_of_ne (t : ComplexType) {purpose q : Purpose} (h : q ≠ purpose)
    (m : Option Model) : (t.keep purpose m).cached q = t.cached q := by
  cases purpose <;> cases q
  case validation.attribution => rfl
  case attribution.validation => rfl
  all_goals exact absurd rfl h

/-- Publishing an answer replaces none. -/
theorem cached_publishExact_of_some {q : Purpose} {answer : Option Model}
    (h : t.cached q = some answer) (purpose : Purpose) (m : Option Model) :
    (t.publishExact purpose m).cached q = some answer := by
  cases purpose with
  | validation => exact h
  | attribution =>
    simp only [publishExact, publish]
    split
    · cases hv : t.forValidation with
      | some _ => exact h
      | none =>
        cases q with
        | validation => simp [cached, hv] at h
        | attribution => exact h
    · exact h

/-- What is kept after an answer was published was kept before, or is that answer. -/
theorem cached_publishExact_cases {purpose q : Purpose} {m answer : Option Model}
    (h : (t.publishExact purpose m).cached q = some answer) :
    t.cached q = some answer ∨
      purpose = .attribution ∧ q = .validation ∧ isExact m = true ∧ answer = m := by
  cases purpose with
  | validation => exact .inl h
  | attribution =>
    simp only [publishExact, publish] at h
    split at h
    · rename_i hexact
      cases hv : t.forValidation with
      | some _ => exact .inl (by simpa [hv] using h)
      | none =>
        cases q with
        | validation =>
          refine .inr ⟨rfl, rfl, hexact, ?_⟩
          simpa [hv, cached, eq_comm] using h
        | attribution =>
          rw [hv] at h
          exact .inl h
    · exact .inl h

theorem IsFaithful.keep (h : t.IsFaithful) (ha : t.IsAccepted) (purpose : Purpose) :
    (t.keep purpose (t.modelFor purpose)).IsFaithful := by
  obtain ⟨hc, hp⟩ := particle_keep t purpose (t.modelFor purpose)
  obtain ⟨hfor, haccepted⟩ := modelFor_congr hc hp
  intro q answer hq
  rw [hfor, haccepted]
  by_cases heq : q = purpose
  · subst heq
    rw [cached_keep] at hq
    exact ⟨(Option.some.inj hq).symm, ha⟩
  · rw [cached_keep_of_ne t heq] at hq
    exact h q answer hq

theorem IsFaithful.publishExact (h : t.IsFaithful) (ha : t.IsAccepted) (purpose : Purpose) :
    (t.publishExact purpose (t.modelFor purpose)).IsFaithful := by
  obtain ⟨hc, hp⟩ := particle_publishExact t purpose (t.modelFor purpose)
  obtain ⟨hfor, haccepted⟩ := modelFor_congr hc hp
  intro q answer hq
  rw [hfor, haccepted]
  rcases cached_publishExact_cases hq with hq | ⟨rfl, rfl, hexact, rfl⟩
  · exact h q answer hq
  · exact ⟨modelFor_of_isExact hexact, ha⟩

/-! ## Calls -/

/-- What a call for the content model does: an answer is that of a compilation, and is kept from
then on; a failure changes nothing. -/
theorem contentModel_cases (h : t.IsFaithful) (b : Builder) (purpose : Purpose) :
    let reply := t.contentModel b purpose
    (t.IsAccepted ∧ reply.model = .ok (t.modelFor purpose) ∧ reply.type.IsFaithful ∧
        reply.type.cached purpose = some (t.modelFor purpose) ∧
        ∀ q answer, t.cached q = some answer → reply.type.cached q = some answer) ∨
      ∃ e, reply.model = .error e ∧ (t.compile b purpose).model = .error e ∧ reply.type = t := by
  intro reply
  cases hc : t.cached purpose with
  | some answer =>
    obtain ⟨rfl, ha⟩ := h purpose answer hc
    have htype : reply.type = t.publishExact purpose (t.modelFor purpose) := by
      simp [reply, contentModel, hc]
    rw [htype]
    exact .inl ⟨ha, by simp [reply, contentModel, hc], h.publishExact ha purpose,
      cached_publishExact_of_some hc _ _, fun q answer hq => cached_publishExact_of_some hq _ _⟩
  | none =>
    cases hm : (t.compile b purpose).model with
    | error e =>
      refine .inr ⟨e, by simp [reply, contentModel, hc, hm], rfl, ?_⟩
      simp only [reply, contentModel, hc, hm]
      exact compile_type t b purpose
    | ok answer =>
      obtain ⟨rfl, ha⟩ := compile_eq_ok hm
      let u := t.keep purpose (t.modelFor purpose)
      have hu : u.IsFaithful := h.keep ha purpose
      have hkept : u.cached purpose = some (t.modelFor purpose) := cached_keep t purpose _
      obtain ⟨hfor, haccepted⟩ := modelFor_congr (particle_keep t purpose (t.modelFor purpose)).1
        (particle_keep t purpose (t.modelFor purpose)).2
      have htype : reply.type = u.publishExact purpose (u.modelFor purpose) := by
        rw [hfor]
        simp [reply, contentModel, hc, hm, u]
      rw [htype]
      refine .inl ⟨ha, by simp [reply, contentModel, hc, hm],
        hu.publishExact (haccepted.2 ha) purpose, cached_publishExact_of_some hkept _ _,
        fun q answer hq => cached_publishExact_of_some ?_ _ _⟩
      have hne : q ≠ purpose := by
        rintro rfl
        simp [hc] at hq
      rw [cached_keep_of_ne t hne]
      exact hq

/-- A call keeps a type faithful, and forgets no answer. -/
theorem IsFaithful.contentModel (h : t.IsFaithful) (b : Builder) (purpose : Purpose) :
    (t.contentModel b purpose).type.IsFaithful ∧ ∀ q answer, t.cached q = some answer →
      (t.contentModel b purpose).type.cached q = some answer := by
  rcases contentModel_cases h b purpose with ⟨-, -, hu, -, hkept⟩ | ⟨e, -, -, htype⟩
  · exact ⟨hu, hkept⟩
  · rw [htype]
    exact ⟨h, fun _ _ hq => hq⟩

/-- The same for a series of calls. -/
theorem IsFaithful.after (h : t.IsFaithful) (calls : List (Builder × Purpose)) :
    (t.after calls).IsFaithful ∧ ∀ q answer, t.cached q = some answer →
      (t.after calls).cached q = some answer := by
  induction calls generalizing t with
  | nil => exact ⟨h, fun _ _ hq => hq⟩
  | cons call calls ih =>
    obtain ⟨hf, hkept⟩ := h.contentModel call.1 call.2
    obtain ⟨hf', hkept'⟩ := ih hf
    exact ⟨hf', fun q answer hq => hkept' q _ (hkept q _ hq)⟩

theorem isFaithful_new (name : Option Name) (content : ContentKind) (particle : Option Particle) :
    (new name content particle).IsFaithful := by
  intro purpose answer h
  cases purpose <;> simp [new, cached] at h

/-- What is answered is what would be compiled, and is kept. -/
theorem IsFaithful.contentModel_eq_ok (h : t.IsFaithful) {answer : Option Model}
    (ha : (t.contentModel b purpose).model = .ok answer) :
    answer = t.modelFor purpose ∧ t.IsAccepted ∧
      (t.contentModel b purpose).type.cached purpose = some answer := by
  rcases contentModel_cases h b purpose with ⟨haccepted, hm, -, hkept, -⟩ | ⟨e, hm, -, -⟩
  · obtain rfl : t.modelFor purpose = answer := by simpa [hm] using ha
    exact ⟨rfl, haccepted, hkept⟩
  · simp [hm] at ha

theorem exists_forValidation_publishExact (t : ComplexType) {answer : Option Model}
    (hexact : isExact answer = true) :
    ∃ kept, (t.publishExact .attribution answer).cached .validation = some kept := by
  simp only [publishExact, publish, hexact, if_true]
  cases hv : t.forValidation with
  | some kept => exact ⟨kept, hv⟩
  | none => exact ⟨answer, rfl⟩

/-- An exact answer given for finding ambiguities is kept for validation too. -/
theorem IsFaithful.cached_validation (h : t.IsFaithful) {answer : Option Model}
    (ha : (t.contentModel b .attribution).model = .ok answer) (hexact : isExact answer = true) :
    (t.contentModel b .attribution).type.cached .validation = some answer := by
  have hkept : ∃ kept, (t.contentModel b .attribution).type.cached .validation = some kept := by
    cases hc : t.cached .attribution with
    | some model =>
      simp only [ComplexType.contentModel, hc, Except.ok.injEq] at ha ⊢
      subst ha
      exact exists_forValidation_publishExact t hexact
    | none =>
      cases hm : (t.compile b .attribution).model with
      | ok model =>
        simp only [ComplexType.contentModel, hc, hm, Except.ok.injEq] at ha ⊢
        subst ha
        exact exists_forValidation_publishExact _ hexact
      | error e => simp [ComplexType.contentModel, hc, hm] at ha
  obtain ⟨kept, hkept⟩ := hkept
  obtain ⟨rfl, -⟩ := h.contentModel_eq_ok ha
  obtain ⟨rfl, -⟩ := (h.contentModel b .attribution).1 .validation kept hkept
  obtain ⟨hc, hp⟩ := particle_contentModel t b .attribution
  rw [hkept, (modelFor_congr hc hp).1, modelFor_of_isExact hexact]

/-- Whatever a type was asked before, by any builders, for any purposes, successfully or not:
what it answers and keeps for validation is what a new builder would compile, and no approximation;
an answer stays; a failure changes nothing; and an exact answer given for finding ambiguities serves
for validation from then on. -/
theorem contentModel_after (name : Option Name) (content : ContentKind)
    (particle : Option Particle) (calls : List (Builder × Purpose)) :
    let t := (new name content particle).after calls
    (∀ b m, (t.contentModel b .validation).model = .ok (some m) → m.isApproximate = false ∧
      ∀ limits answer, (t.compile (.new limits) .validation).model = .ok answer →
        answer = some m) ∧
      (∀ m, t.cachedModel = some m → m.isApproximate = false) ∧
      (∀ b purpose answer, (t.contentModel b purpose).model = .ok answer →
        ∀ calls' b', let u := (t.contentModel b purpose).type.after calls'
          (u.contentModel b' purpose).model = .ok answer ∧
            (u.contentModel b' purpose).compiled = none ∧
            (u.contentModel b' purpose).builder = b') ∧
      (∀ b purpose e, (t.contentModel b purpose).model = .error e →
        (t.contentModel b purpose).type = t) ∧
      (∀ b purpose answer, (t.compile b purpose).model = .ok answer →
        (t.contentModel b purpose).model = .ok answer) ∧
      ∀ b answer, (t.contentModel b .attribution).model = .ok answer → isExact answer = true →
        ∀ calls' b', let u := (t.contentModel b .attribution).type.after calls'
          (u.contentModel b' .validation).model = .ok answer ∧
            (u.contentModel b' .validation).compiled = none ∧
            (u.contentModel b' .validation).builder = b' := by
  intro t
  have ht : t.IsFaithful := ((isFaithful_new name content particle).after calls).1
  have hexact : ∀ m, t.modelFor .validation = some m → m.isApproximate = false := by
    intro m hm
    simpa [hm, isExact] using isExact_modelFor_validation t
  refine ⟨fun b m hm => ?_, fun m hm => ?_, fun b purpose answer ha calls' b' => ?_,
    fun b purpose e he => contentModel_failed he, fun b purpose answer ha => ?_,
    fun b answer ha hexact calls' b' => ?_⟩
  · obtain ⟨hm, -⟩ := ht.contentModel_eq_ok hm
    exact ⟨hexact m hm.symm, fun limits answer ha => (compile_eq_ok ha).1.trans hm.symm⟩
  · obtain ⟨answer, ha, rfl⟩ : ∃ answer, t.forValidation = some answer ∧ answer = some m := by
      simpa [cachedModel, Option.join_eq_some_iff] using hm
    exact hexact m (ht .validation _ ha).1.symm
  · obtain ⟨-, -, hkept⟩ := ht.contentModel_eq_ok ha
    have hu := ((ht.contentModel b purpose).1.after calls').2 purpose answer hkept
    exact contentModel_of_cached hu b'
  · rcases contentModel_cases ht b purpose with ⟨-, hm, -⟩ | ⟨e, -, he, -⟩
    · rw [hm, (compile_eq_ok ha).1]
    · simp [he] at ha
  · have hu := ((ht.contentModel b .attribution).1.after calls').2 .validation answer
      (ht.cached_validation ha hexact)
    exact contentModel_of_cached hu b'

/-- Two times `a` and `b`: what is compiled to find ambiguities is squeezed, and a limit of three
nodes is too low. Neither keeps a later call from getting the exact model. What is compiled for two
to five times `a` is exact, and serves for validation even where nothing could be compiled. -/
theorem contentModel_after_squeezed :
    let p : Particle := .group .sequence
      [.element (.bare "a") .once, .element (.bare "b") .once] ⟨2, some 2⟩
    let q : Particle := .group .sequence [.element (.bare "a") ⟨2, some 5⟩] .once
    let low : Limits := { Limits.default with nodes := some 3 }
    let zero : Limits := { Limits.default with nodes := some 0 }
    let t := (new none .elementOnly (some p)).after
      [(.new .default, .attribution), (.new low, .validation)]
    let u := new none .elementOnly (some q)
    t.cachedModel = none ∧ (∃ e, (t.contentModel (.new low) .validation).model = .error e) ∧
      (∃ m, (t.contentModel (.new .default) .validation).model = .ok (some m) ∧
        m.isApproximate = false) ∧
      (∃ e, (u.contentModel (.new zero) .validation).model = .error e) ∧
      ∃ m, (u.contentModel (.new .default) .attribution).model = .ok (some m) ∧
        let v := (u.contentModel (.new .default) .attribution).type
        (v.contentModel (.new zero) .validation).model = .ok (some m) ∧
          (v.contentModel (.new zero) .validation).compiled = none := by
  intro p q low zero t u
  have hcompile : (t.compile (.new .default) .validation).model = .ok (some _) := rfl
  obtain ⟨hexact, -, -, -, hlater, -⟩ := contentModel_after none .elementOnly (some p)
    [(.new .default, .attribution), (.new low, .validation)]
  have hm := hlater (.new .default) .validation _ hcompile
  obtain ⟨-, -, -, -, -, hpublished⟩ := contentModel_after none .elementOnly (some q) []
  have hserves := hpublished (.new .default) (some _) rfl rfl [] (.new zero)
  exact ⟨rfl, ⟨_, rfl⟩, ⟨_, hm, (hexact _ _ hm).1⟩, ⟨_, rfl⟩, _, rfl, hserves.1, hserves.2.1⟩

end ComplexType

end ContentAutomata
