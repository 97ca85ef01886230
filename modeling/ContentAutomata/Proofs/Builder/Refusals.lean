import ContentAutomata.Proofs.Builder.Budget

/-!
# Why a particle is refused

As long as the number of nodes is not bounded, a particle is refused for what it is and not for what
it comes to. Its parts have places in it, and at each place three things are checked: that it is not
too deep, that the bounds are in order, and that no `all` group stands there. Places are gone
through in document order, so the first one at which something is wrong decides.

Not every part is looked at. What stands in a group that may not occur is passed over; where
counters help, the only member of a repeated group is drawn up together with the group; and an `all`
group at the top looks at its members in its own way. All of this is `Particle.check`, and it
depends neither on what the tree is wanted for nor on what was paid before.

Results:
* `checks_compact`, `checks_expanded`, `checks_allGroup`: the three ways to draw up a particle;
* `Builder.build_unbounded`: a build is refused as the checks say, and not otherwise;
* `Particle.places_drawn`: which parts are not looked at.
-/
namespace ContentAutomata

/-! ## Places -/

/-- A part of a particle, and how deep it stands there. -/
structure Place where
  depth : Nat
  particle : Particle

namespace Particle

mutual
/-- The places of a particle at the given depth, in document order: its own one, and those of its
members if `isEntered` holds of the multiplicity. -/
def places (isEntered : Multiplicity → Bool) : Particle → (depth : Nat) → List Place
  | element name m, depth => [⟨depth, element name m⟩]
  | wildcard w, depth => [⟨depth, wildcard w⟩]
  | group c members m, depth =>
    ⟨depth, group c members m⟩ ::
      if isEntered m then placesOf isEntered members (depth + 1) else []
/-- The places of the particles of a list. -/
def placesOf (isEntered : Multiplicity → Bool) : List Particle → (depth : Nat) → List Place
  | [], _ => []
  | p :: ps, depth => p.places isEntered depth ++ placesOf isEntered ps depth
end

/-- Whether a group with this multiplicity may occur. -/
def mayOccur (m : Multiplicity) : Bool := !m.isNever

/-- The places of a particle that no group around them keeps from occurring. -/
def livePlaces (p : Particle) : List Place := p.places mayOccur 1

/-- The places that are looked at when the particle is drawn up. -/
def drawnPlaces (p : Particle) : List Place :=
  p.places (if p.isCountable then Multiplicity.isOnce else mayOccur) 1

end Particle

/-! ## Checks -/

/-- Checks that bounds are in order. -/
def Multiplicity.checkBounds (m : Multiplicity) : Except Error Unit := m.check.mapError .ofFault

/-- Checks that no `all` group stands at a place below the top. -/
def Particle.checkKind (p : Particle) : Except Error Unit :=
  if p.isAllGroup && !p.occurs.isNever then .error (.ofFault .nestedAll) else .ok ()

/-- What is checked at a place. -/
def Place.check (limits : Limits) (x : Place) : Except Error Unit := do
  limits.checkDepth x.depth
  x.particle.occurs.checkBounds
  x.particle.checkKind

/-- What is checked of a member of an `all` group. -/
def Particle.checkMember (p : Particle) : Except Error Unit :=
  if p.isTerm then p.occurs.checkBounds else .error (.ofFault .groupInAll)

/-- What is checked of a particle that is to be compiled. -/
def Particle.check (limits : Limits) : Particle → Except Error Unit
  | group .all members m => do
    m.checkBounds
    if m.isNever then .ok () else forM members checkMember
  | p => forM p.drawnPlaces (Place.check limits)

theorem Particle.check_all {limits : Limits} (members : List Particle) (m : Multiplicity) :
    (group .all members m).check limits = (do
      m.checkBounds
      if m.isNever then .ok () else forM members checkMember) := rfl

theorem Particle.check_of_not_all {limits : Limits} (p : Particle) (hp : p.isAllGroup = false) :
    p.check limits = forM p.drawnPlaces (Place.check limits) := by
  apply notAll_cases hp <;> intros <;> rfl

/-- Going through a list succeeds if every member passes. -/
theorem forM_eq_ok_iff {α : Type} {f : α → Except Error Unit} {l : List α} :
    forM l f = .ok () ↔ ∀ x ∈ l, f x = .ok () := by
  induction l with
  | nil => exact iff_of_true rfl (by simp)
  | cons x l ih =>
    rw [List.forM_cons, List.forall_mem_cons, ← ih]
    cases f x <;> simp [bind, Except.bind]

/-- Going through a list fails at the first member that does not pass. -/
theorem forM_eq_error_iff {α : Type} {f : α → Except Error Unit} {l : List α} {e : Error} :
    forM l f = .error e ↔
      ∃ before x after, l = before ++ x :: after ∧ (∀ y ∈ before, f y = .ok ()) ∧ f x = .error e := by
  induction l with
  | nil => exact iff_of_false (by intro h; cases h) (by simp)
  | cons x l ih =>
    rw [List.forM_cons]
    constructor
    · intro h
      cases hx : f x with
      | error e' =>
        rw [hx] at h
        exact ⟨[], x, l, rfl, by simp, hx.trans h⟩
      | ok u =>
        rw [hx] at h
        obtain ⟨before, y, after, rfl, hbefore, hy⟩ := ih.1 h
        exact ⟨x :: before, y, after, rfl, List.forall_mem_cons.2 ⟨hx, hbefore⟩, hy⟩
    · intro h
      obtain ⟨before, y, after, hl, hbefore, hy⟩ := h
      cases before with
      | nil =>
        cases hl
        rw [hy]
        rfl
      | cons z before =>
        cases hl
        obtain ⟨hz, hbefore⟩ := List.forall_mem_cons.1 hbefore
        rw [hz]
        exact ih.2 ⟨before, y, after, rfl, hbefore, hy⟩

namespace Draft

/-! ## Drafts that check -/

/-- What a draft comes to is what a check comes to, and nodes may still be paid for freely. -/
inductive Agrees {α : Type} : Except Failure (α × State) → Except Error Unit → Prop
  | accepted {a : α} {s : State} (h : s.ledger.bound = none) : Agrees (.ok (a, s)) (.ok ())
  | refused {failure : Failure} : Agrees (.error failure) (.error failure.error)

/-- Where the number of nodes is not bounded, the draft is refused as the check says. -/
def Checks {α : Type} (x : Draft α) (check : Except Error Unit) : Prop :=
  ∀ s, s.ledger.bound = none → Agrees (x s) check

variable {α β : Type} {x : Draft α} {f : α → Draft β} {check check' : Except Error Unit}

theorem Checks.answer (h : Checks x check) {s : State} (hs : s.ledger.bound = none) :
    (x.answer s).map (fun _ => ()) = check := by
  have hagrees := h s hs
  unfold Draft.answer
  generalize x s = r at hagrees
  cases hagrees <;> rfl

theorem checks_pure (a : α) : Checks (pure a) (.ok ()) := fun _ hs => .accepted hs

theorem Checks.bind (hx : Checks x check) (hf : ∀ a, Checks (f a) check') :
    Checks (x >>= f) (check >>= fun _ => check') := by
  intro s hs
  have e : (x >>= f) s = x s >>= fun r => f r.1 r.2 := rfl
  rw [e]
  have hagrees := hx s hs
  generalize x s = r at hagrees
  cases hagrees with
  | accepted hs' => exact hf _ _ hs'
  | refused => exact .refused

/-- A step at which nothing can be wrong. -/
theorem Checks.bind_free (hx : Checks x (.ok ())) (hf : ∀ a, Checks (f a) check) :
    Checks (x >>= f) check := hx.bind hf

/-- Nothing can be wrong any more. -/
theorem Checks.bind_done (hx : Checks x check) (hf : ∀ a, Checks (f a) (.ok ())) :
    Checks (x >>= f) check := by
  have hbind := hx.bind hf
  cases check <;> exact hbind

theorem Checks.map (hx : Checks x check) (g : α → β) : Checks (g <$> x) check := by
  rw [map_eq_pure_bind]
  exact hx.bind_done fun a => checks_pure (g a)

theorem checks_require (check : Except Error Unit) : Checks (require check) check := by
  intro s hs
  cases check with
  | error e => exact .refused
  | ok _ => exact .accepted hs

theorem checks_refuse (e : Error) : Checks (refuse e : Draft α) (.error e) := fun _ _ => .refused

theorem checks_pay (count : Nat) : Checks (pay count) (.ok ()) := by
  intro s hs
  rw [pay_of_unbounded hs]
  exact .accepted hs

theorem checks_newParticle : Checks newParticle (.ok ()) := fun _ hs => .accepted hs

theorem checks_startNumbering : Checks startNumbering (.ok ()) := fun _ hs => .accepted hs

theorem checks_get : Checks (get : Draft State) (.ok ()) := fun _ hs => .accepted hs

/-! ## Terms and groups -/

theorem checks_compose (c : Compositor) (total : Nat) (built : List Tree) :
    Checks (compose c total built) (.ok ()) :=
  (checks_pay _).bind_free fun _ => checks_pure _

theorem checks_compactTerm (term : Term) (m : Multiplicity) :
    Checks (compactTerm term m) (.ok ()) :=
  checks_newParticle.bind_free fun _ => (checks_pay _).bind_free fun _ => checks_pure _

theorem checks_expandedTerm (purpose : Purpose) (term : Term) (m : Multiplicity) :
    Checks (expandedTerm purpose term m) (.ok ()) := by
  rw [expandedTerm_eq]
  exact checks_newParticle.bind_free fun _ => (checks_pay _).bind_free fun _ => checks_pure _

theorem checks_expandedGroup (purpose : Purpose) (t : Tree) (m : Multiplicity) :
    Checks (expandedGroup purpose t m) (.ok ()) :=
  (checks_pay _).bind_free fun _ => checks_pure _

section Particles

variable {limits : Limits} {purpose : Purpose}

/-- A particle is looked at first, and drawn up if it may occur. -/
theorem Checks.inspected {depth : Nat} {m : Multiplicity} {x : Draft (Option α)}
    (hx : m.isNever = false → Checks x check) (hn : m.isNever = true → check = .ok ()) :
    Checks (do if ← inspect limits depth m then x else return none) (do
      limits.checkDepth depth
      m.checkBounds
      check) := by
  unfold inspect
  simp only [bind_assoc, pure_bind]
  refine (checks_require _).bind fun _ => (checks_require _).bind fun _ => ?_
  cases h : m.isNever with
  | true =>
    rw [hn h]
    exact checks_pure none
  | false => exact hx h

/-- The place of a term is all there is to look at. -/
theorem forM_place (x : Place) (h : x.particle.checkKind = .ok ()) :
    forM [x] (Place.check limits) = (do
      limits.checkDepth x.depth
      x.particle.occurs.checkBounds
      .ok ()) := by
  rw [List.forM_cons, List.forM_nil, Place.check, h]
  simp only [bind_assoc]
  rfl

/-- The places of a group: its own one comes first. -/
theorem forM_place_group (depth : Nat) (c : Compositor) (members : List Particle) (m : Multiplicity)
    (rest : List Place) :
    forM (⟨depth, .group c members m⟩ :: rest) (Place.check limits) = (do
      limits.checkDepth depth
      m.checkBounds
      (Particle.group c members m).checkKind
      forM rest (Place.check limits)) := by
  rw [List.forM_cons, Place.check]
  simp only [bind_assoc]
  rfl

theorem checkKind_of_isNever {c : Compositor} {members : List Particle} {m : Multiplicity}
    (h : m.isNever = true) : (Particle.group c members m).checkKind = .ok () := by
  simp [Particle.checkKind, Particle.occurs, h]

theorem checkKind_group {c : Compositor} {members : List Particle} {m : Multiplicity}
    (h : m.isNever = false) : (Particle.group c members m).checkKind =
      if c = .all then .error (.ofFault .nestedAll) else .ok () := by
  cases c <;> simp [Particle.checkKind, Particle.isAllGroup, Particle.occurs, h]

theorem isOnce_of_isNever {m : Multiplicity} (h : m.isNever = true) : m.isOnce = false := by
  rw [Multiplicity.isNever_iff] at h
  simp [Multiplicity.isOnce, h]

mutual
theorem checks_compact : ∀ (p : Particle) (depth : Nat), p.isCountable = true →
    Checks (compact limits p depth) (forM (p.places Multiplicity.isOnce depth) (Place.check limits))
  | .element name m, depth, _ => by
    unfold compact Particle.places
    rw [forM_place _ rfl]
    exact .inspected (fun _ => (checks_compactTerm _ _).map _) fun _ => rfl
  | .wildcard w, depth, _ => by
    unfold compact Particle.places
    rw [forM_place _ rfl]
    exact .inspected (fun _ => (checks_compactTerm _ _).map _) fun _ => rfl
  | .group c members m, depth, hc => by
    unfold compact Particle.places
    rw [forM_place_group]
    refine .inspected (fun hn => ?_) fun hn => ?_
    · rw [checkKind_group hn]
      refine (checks_require _).bind fun _ => ?_
      cases ho : m.isOnce with
      | true =>
        have hall := checks_compactAll members (depth + 1) (allCountable_of_isOnce hc ho)
        rw [if_pos rfl]
        cases onlyTerm? members <;> exact hall.bind_done fun _ => checks_compose _ _ _
      | false =>
        rw [if_neg Bool.false_ne_true]
        rcases repeated_group_cases hc ho with rfl | ⟨p, rfl, hp, -⟩
        · exact (checks_pure _).bind_free fun _ => checks_compose _ _ _
        · obtain ⟨term, hterm⟩ := Option.isSome_iff_exists.1 hp
          simp only [onlyTerm?, hterm]
          exact (checks_compactTerm _ _).map _
    · rw [checkKind_of_isNever hn, isOnce_of_isNever hn]
      rfl
theorem checks_compactAll : ∀ (ps : List Particle) (depth : Nat),
    Particle.allCountable ps = true → Checks (compactAll limits ps depth)
      (forM (Particle.placesOf Multiplicity.isOnce ps depth) (Place.check limits))
  | [], depth, _ => checks_pure _
  | p :: ps, depth, hc => by
    simp only [Particle.allCountable, Bool.and_eq_true] at hc
    unfold compactAll Particle.placesOf
    rw [List.forM_append]
    refine (checks_compact p depth hc.1).bind fun t => ?_
    exact (checks_compactAll ps depth hc.2).bind_done fun ts => checks_pure _
end

mutual
theorem checks_expanded : ∀ (p : Particle) (depth : Nat),
    Checks (expanded limits purpose p depth)
      (forM (p.places Particle.mayOccur depth) (Place.check limits))
  | .element name m, depth => by
    unfold expanded Particle.places
    rw [forM_place _ rfl]
    exact .inspected (fun _ => (checks_expandedTerm _ _ _).bind_done fun _ => checks_pure _)
      fun _ => rfl
  | .wildcard w, depth => by
    unfold expanded Particle.places
    rw [forM_place _ rfl]
    exact .inspected (fun _ => (checks_expandedTerm _ _ _).bind_done fun _ => checks_pure _)
      fun _ => rfl
  | .group c members m, depth => by
    unfold expanded Particle.places
    rw [forM_place_group]
    refine .inspected (fun hn => ?_) fun hn => ?_
    · have hm : Particle.mayOccur m = true := by simp [Particle.mayOccur, hn]
      rw [checkKind_group hn, hm]
      refine (checks_require _).bind fun _ => ?_
      refine (checks_expandedAll members (depth + 1)).bind_done fun built => ?_
      refine (checks_compose _ _ _).bind_free fun t => ?_
      cases t with
      | none => exact checks_pure _
      | some t => exact (checks_expandedGroup _ _ _).bind_done fun _ => checks_pure _
    · have hm : Particle.mayOccur m = false := by simp [Particle.mayOccur, hn]
      rw [checkKind_of_isNever hn, hm]
      rfl
theorem checks_expandedAll : ∀ (ps : List Particle) (depth : Nat),
    Checks (expandedAll limits purpose ps depth)
      (forM (Particle.placesOf Particle.mayOccur ps depth) (Place.check limits))
  | [], depth => checks_pure _
  | p :: ps, depth => by
    unfold expandedAll Particle.placesOf
    rw [List.forM_append]
    refine (checks_expanded p depth).bind fun t => ?_
    exact (checks_expandedAll ps depth).bind_done fun ts => checks_pure _
end

theorem checks_syntaxTree (p : Particle) :
    Checks (SyntaxTree.draft limits purpose p) (forM p.drawnPlaces (Place.check limits)) := by
  unfold SyntaxTree.draft Particle.drawnPlaces
  refine checks_startNumbering.bind_free fun _ => ?_
  cases hc : p.isCountable with
  | true =>
    rw [if_pos rfl, if_pos rfl]
    refine (checks_compact p 1 hc).bind_done fun t => ?_
    exact (checks_pure _).bind_free fun _ => checks_get.bind_free fun _ => checks_pure _
  | false =>
    rw [if_neg Bool.false_ne_true, if_neg Bool.false_ne_true]
    refine (checks_expanded p 1).bind_done fun r => ?_
    cases r <;> exact (checks_pure _).bind_free fun _ => checks_get.bind_free fun _ => checks_pure _

theorem checks_allMembers (ps : List Particle) :
    Checks (allMembers ps) (forM ps Particle.checkMember) := by
  induction ps with
  | nil => exact checks_pure _
  | cons p ps ih =>
    rw [List.forM_cons]
    unfold allMembers Particle.checkMember Particle.isTerm
    cases p.term? with
    | none => exact checks_refuse _
    | some term =>
      refine (checks_require _).bind fun _ => ?_
      cases p.occurs.isNever with
      | true => exact ih
      | false =>
        refine checks_newParticle.bind_free fun _ => (checks_pay _).bind_free fun _ => ?_
        exact ih.bind_done fun _ => checks_pure _

theorem checks_allGroup (members : List Particle) (m : Multiplicity) :
    Checks (allGroup members m) (do
      m.checkBounds
      if m.isNever then .ok () else forM members Particle.checkMember) := by
  unfold allGroup
  refine (checks_require _).bind fun _ => ?_
  cases m.isNever with
  | true => exact checks_pure _
  | false =>
    refine checks_startNumbering.bind_free fun _ => (checks_allMembers members).bind_done fun _ => ?_
    exact (checks_pay _).bind_free fun _ => checks_pure _

theorem checks_ofParticle (p : Particle) :
    Checks (Compilation.ofParticle limits purpose p) (p.check limits) := by
  cases hp : p.isAllGroup with
  | true =>
    obtain ⟨members, m, rfl⟩ := Particle.exists_of_isAllGroup hp
    refine (checks_allGroup members m).bind_done fun t => ?_
    cases t <;> exact checks_pure _
  | false =>
    rw [Compilation.ofParticle_of_not_all hp, p.check_of_not_all hp]
    exact (checks_syntaxTree p).map _

end Particles

end Draft

/-! ## Builds -/

namespace Builder

variable {b : Builder}

/-- What a clean builder compiles depends on nothing but its limits. -/
theorem IsClean.build_fst (h : b.IsClean) (p : Particle) (purpose : Purpose) :
    (b.build p purpose).1 = ((new b.limits).build p purpose).1 :=
  h.run_fst (Draft.startsAnew_ofParticle _ _ p)

/-- As long as the number of nodes is not bounded, a build is refused as the checks say. -/
theorem IsClean.build_unbounded (h : b.IsClean) (hn : b.limits.nodeBound = none) (p : Particle)
    (purpose : Purpose) : (b.build p purpose).1.map (fun _ => ()) = p.check b.limits := by
  have hbound : b.ledger.bound = none := by rw [h, Ledger.ofLimits, hn]
  unfold build
  rw [run_eq]
  exact (Draft.checks_ofParticle p).answer hbound

theorem IsClean.build_eq_ok_iff (h : b.IsClean) (hn : b.limits.nodeBound = none) (p : Particle)
    (purpose : Purpose) : (∃ c, (b.build p purpose).1 = .ok c) ↔ p.check b.limits = .ok () := by
  rw [← h.build_unbounded hn p purpose]
  cases (b.build p purpose).1 <;> simp [Except.map]

theorem IsClean.build_eq_error_iff (h : b.IsClean) (hn : b.limits.nodeBound = none) (p : Particle)
    (purpose : Purpose) {e : Error} :
    (b.build p purpose).1 = .error e ↔ p.check b.limits = .error e := by
  rw [← h.build_unbounded hn p purpose]
  cases (b.build p purpose).1 <;> simp [Except.map]

end Builder

/-! ## What is not looked at -/

namespace Particle

variable {isEntered isEntered' : Multiplicity → Bool}

theorem mem_placesOf_iff {ps : List Particle} {depth : Nat} {x : Place} :
    x ∈ placesOf isEntered ps depth ↔ ∃ p ∈ ps, x ∈ p.places isEntered depth := by
  induction ps with
  | nil => simp [placesOf]
  | cons p ps ih => simp [placesOf, ih]

theorem mem_places_group_iff {c : Compositor} {members : List Particle} {m : Multiplicity}
    {depth : Nat} {x : Place} :
    x ∈ (group c members m).places isEntered depth ↔ x = ⟨depth, group c members m⟩ ∨
      isEntered m = true ∧ ∃ p ∈ members, x ∈ p.places isEntered (depth + 1) := by
  rw [places, List.mem_cons]
  cases isEntered m <;> simp [mem_placesOf_iff]

/-- The more groups are entered, the more places there are. -/
theorem places_subset (h : ∀ m, isEntered m = true → isEntered' m = true) {x : Place} :
    ∀ {p : Particle} {depth : Nat}, x ∈ p.places isEntered depth → x ∈ p.places isEntered' depth
  | element _ _, _, hx => hx
  | wildcard _, _, hx => hx
  | group c members m, depth, hx => by
    rw [mem_places_group_iff] at hx ⊢
    refine hx.imp_right ?_
    rintro ⟨hm, p, hp, hx⟩
    exact ⟨h m hm, p, hp, places_subset h hx⟩

theorem mayOccur_of_isOnce {m : Multiplicity} (h : m.isOnce = true) : mayOccur m = true := by
  rw [Multiplicity.isOnce_iff] at h
  subst h
  rfl

/-- Where counters help, a place that is not looked at is that of a term that occurs once: the only
member of a group that is looked at, one level up. -/
theorem places_counted {x : Place} : ∀ {p : Particle} {depth : Nat}, p.isCountable = true →
    x ∈ p.places mayOccur depth → x ∈ p.places Multiplicity.isOnce depth ∨
      (x.particle.isTerm = true ∧ x.particle.occurs = .once) ∧
        ∃ y ∈ p.places Multiplicity.isOnce depth, x.depth = y.depth + 1
  | element _ _, _, _, hx => .inl hx
  | wildcard _, _, _, hx => .inl hx
  | group c members m, depth, hc, hx => by
    rw [mem_places_group_iff] at hx
    simp only [mem_places_group_iff]
    rcases hx with rfl | ⟨-, p, hp, hx⟩
    · exact .inl (.inl rfl)
    · cases ho : m.isOnce with
      | true =>
        have hcp := List.all_eq_true.1 (allCountable_eq _ ▸ Draft.allCountable_of_isOnce hc ho) p hp
        rcases places_counted hcp hx with hx | ⟨hterm, y, hy, hdepth⟩
        · exact .inl (.inr ⟨rfl, p, hp, hx⟩)
        · exact .inr ⟨hterm, y, .inr ⟨rfl, p, hp, hy⟩, hdepth⟩
      | false =>
        rcases Draft.repeated_group_cases hc ho with rfl | ⟨q, rfl, hq, honce⟩
        · cases hp
        · obtain rfl := List.mem_singleton.1 hp
          have hplace : x = ⟨depth + 1, p⟩ := by
            cases p with
            | element => exact List.mem_singleton.1 hx
            | wildcard => exact List.mem_singleton.1 hx
            | group => cases hq
          subst hplace
          exact .inr ⟨⟨hq, honce⟩, _, .inl rfl, rfl⟩

/-- What is looked at may occur. What may occur is looked at, unless counters help and it is a term
that occurs once in a group that is looked at, one level up. -/
theorem places_drawn (p : Particle) :
    (∀ x ∈ p.drawnPlaces, x ∈ p.livePlaces) ∧
      ∀ x ∈ p.livePlaces, x ∈ p.drawnPlaces ∨
        (p.isCountable = true ∧ x.particle.isTerm = true ∧ x.particle.occurs = .once) ∧
          ∃ y ∈ p.drawnPlaces, x.depth = y.depth + 1 := by
  unfold drawnPlaces livePlaces
  cases hc : p.isCountable with
  | true =>
    refine ⟨fun x => places_subset fun _ => mayOccur_of_isOnce, fun x hx => ?_⟩
    refine (places_counted hc hx).imp_right ?_
    rintro ⟨hterm, hy⟩
    exact ⟨⟨rfl, hterm⟩, hy⟩
  | false => exact ⟨fun _ hx => hx, fun _ hx => .inl hx⟩

end Particle

end ContentAutomata
