import ContentAutomata.Proofs.Builder.Refusals

/-!
# Sound particles

As long as neither the number of nodes nor the depth is in the way, what is refused are the
particles that the schema should not have had in it. `Particle.IsSound` says which these are not:
wherever a particle may occur, its bounds are in order; no `all` group may occur below the top; and
the members of an `all` group at the top are elements and wildcards. It does not mention how trees
are drawn up, so the places that are not looked at have to be sound for some other reason: they are
those of terms that occur once.

Results:
* `Particle.check_eq_ok_iff`: the checks accept a particle that is not too deep exactly when it is
  sound;
* `Builder.build_iff_isSound`: a build succeeds exactly on sound particles, and whether and why it
  fails does not depend on what the model is wanted for.
-/
namespace ContentAutomata

/-! ## Depth -/

namespace Particle

mutual
/-- How many levels of particles are nested in a particle, its own one included. -/
def depth : Particle → Nat
  | element _ _ => 1
  | wildcard _ => 1
  | group _ members _ => depths members + 1
/-- The same for the deepest particle of a list. -/
def depths : List Particle → Nat
  | [] => 0
  | p :: ps => max p.depth (depths ps)
end

variable {isEntered : Multiplicity → Bool}

mutual
/-- No place is deeper than the particle. -/
theorem depth_lt_of_mem_places : ∀ {p : Particle} {k : Nat} {x : Place},
    x ∈ p.places isEntered k → x.depth < k + p.depth
  | element name m, k, x, hx => by
    rw [List.mem_singleton.1 hx]
    exact Nat.lt_succ_self k
  | wildcard w, k, x, hx => by
    rw [List.mem_singleton.1 hx]
    exact Nat.lt_succ_self k
  | group c members m, k, x, hx => by
    unfold places at hx
    simp only [depth]
    rcases List.mem_cons.1 hx with rfl | hx
    · exact Nat.lt_add_of_pos_right (Nat.succ_pos _)
    · split at hx
      · have hlt := depth_lt_of_mem_placesOf hx
        omega
      · cases hx
theorem depth_lt_of_mem_placesOf : ∀ {ps : List Particle} {k : Nat} {x : Place},
    x ∈ placesOf isEntered ps k → x.depth < k + depths ps
  | [], k, x, hx => by cases hx
  | p :: ps, k, x, hx => by
    simp only [depths]
    rcases List.mem_append.1 hx with hx | hx
    · have hlt := depth_lt_of_mem_places hx
      omega
    · have hlt := depth_lt_of_mem_placesOf hx
      omega
end

/-- Nothing but the particle itself stands at its own depth. -/
theorem eq_or_lt_of_mem_places {x : Place} : ∀ {p : Particle} {k : Nat},
    x ∈ p.places isEntered k → x = ⟨k, p⟩ ∨ k < x.depth
  | element name m, k, hx => .inl (List.mem_singleton.1 hx)
  | wildcard w, k, hx => .inl (List.mem_singleton.1 hx)
  | group c members m, k, hx => by
    rw [mem_places_group_iff] at hx
    refine hx.imp_right ?_
    rintro ⟨-, p, -, hx⟩
    rcases eq_or_lt_of_mem_places hx with rfl | hlt
    · exact Nat.lt_succ_self k
    · exact Nat.lt_of_succ_lt hlt

/-- Every particle stands at its own depth. -/
theorem mem_places (p : Particle) (k : Nat) : ⟨k, p⟩ ∈ p.places isEntered k := by
  cases p <;> exact List.mem_cons_self

/-! ## Soundness -/

/-- Nothing is wrong with a particle, however deep it may be. -/
structure IsSound (p : Particle) : Prop where
  /-- Where no group around it keeps a particle from occurring, its bounds are in order. -/
  bounds : ∀ x ∈ p.livePlaces, x.particle.occurs.isOrdered = true
  /-- No `all` group may occur below the top. -/
  nested : ∀ x ∈ p.livePlaces, 1 < x.depth → x.particle.isAllGroup = true →
    x.particle.occurs.isNever = true
  /-- If an `all` group at the top may occur, its members are terms. -/
  members : ∀ members m, p = .group .all members m → m.isNever = false →
    ∀ q ∈ members, q.isTerm = true

end Particle

theorem Multiplicity.checkBounds_eq_ok_iff {m : Multiplicity} :
    m.checkBounds = .ok () ↔ m.isOrdered = true := by
  rw [← check_eq_ok_iff, checkBounds]
  cases m.check <;> simp [Except.mapError]

theorem Multiplicity.checkBounds_eq_error {m : Multiplicity} {e : Error}
    (h : m.checkBounds = .error e) : ∃ fault, e = .ofFault fault := by
  unfold checkBounds at h
  cases hm : m.check with
  | ok => simp [hm, Except.mapError] at h
  | error fault =>
    simp only [hm, Except.mapError, Except.error.injEq] at h
    exact ⟨fault, h.symm⟩

namespace Place

variable {limits : Limits} {x : Place}

/-- What makes a place pass. -/
theorem check_eq_ok_iff : x.check limits = .ok () ↔
    x.depth ≤ limits.depth.toNat ∧ x.particle.occurs.isOrdered = true ∧
      (x.particle.isAllGroup = true → x.particle.occurs.isNever = true) := by
  rw [← Limits.checkDepth_eq_ok_iff, ← Multiplicity.checkBounds_eq_ok_iff, check,
    Particle.checkKind]
  cases limits.checkDepth x.depth <;> cases x.particle.occurs.checkBounds <;>
    cases x.particle.isAllGroup <;> cases x.particle.occurs.isNever <;>
    simp [bind, Except.bind]

/-- What does not pass is too deep, or the schema is at fault. -/
theorem check_eq_error {e : Error} (h : x.check limits = .error e) :
    (limits.depth.toNat < x.depth ∧ e = .tooDeep x.depth limits.depth.toNat) ∨
      ∃ fault, e = .ofFault fault := by
  unfold check at h
  by_cases hdepth : x.depth ≤ limits.depth.toNat
  · refine .inr ?_
    rw [Limits.checkDepth_eq_ok_iff.2 hdepth] at h
    cases hbounds : x.particle.occurs.checkBounds with
    | error e' =>
      rw [hbounds] at h
      cases h
      exact Multiplicity.checkBounds_eq_error hbounds
    | ok =>
      rw [hbounds] at h
      change x.particle.checkKind = .error e at h
      unfold Particle.checkKind at h
      split at h <;> cases h
      exact ⟨_, rfl⟩
  · rw [Limits.checkDepth, if_neg hdepth] at h
    cases h
    exact .inl ⟨Nat.not_le.1 hdepth, rfl⟩

end Place

namespace Particle

variable {limits : Limits} {p : Particle}

theorem checkMember_eq_ok_iff :
    p.checkMember = .ok () ↔ p.isTerm = true ∧ p.occurs.isOrdered = true := by
  rw [← Multiplicity.checkBounds_eq_ok_iff, checkMember]
  cases p.isTerm <;> simp

theorem checkMember_eq_error {e : Error} (h : p.checkMember = .error e) :
    ∃ fault, e = .ofFault fault := by
  unfold checkMember at h
  split at h
  · exact Multiplicity.checkBounds_eq_error h
  · cases h
    exact ⟨_, rfl⟩

/-- What makes an `all` group pass. -/
theorem check_all_eq_ok_iff {members : List Particle} {m : Multiplicity} :
    (group .all members m).check limits = .ok () ↔ m.isOrdered = true ∧
      (m.isNever = false → ∀ q ∈ members, q.isTerm = true ∧ q.occurs.isOrdered = true) := by
  simp only [← checkMember_eq_ok_iff]
  rw [← Multiplicity.checkBounds_eq_ok_iff, ← forM_eq_ok_iff, check_all]
  cases m.checkBounds <;> cases m.isNever <;> simp [bind, Except.bind]

theorem places_of_isTerm {isEntered : Multiplicity → Bool} {k : Nat} (h : p.isTerm = true) :
    p.places isEntered k = [⟨k, p⟩] := by
  cases p with
  | element => rfl
  | wildcard => rfl
  | group => cases h

theorem isAllGroup_of_isTerm (h : p.isTerm = true) : p.isAllGroup = false := by
  cases p with
  | element => rfl
  | wildcard => rfl
  | group => cases h

theorem isSound_all_iff {members : List Particle} {m : Multiplicity} :
    (group .all members m).IsSound ↔ m.isOrdered = true ∧
      (m.isNever = false → ∀ q ∈ members, q.isTerm = true ∧ q.occurs.isOrdered = true) := by
  have hlive : ∀ x, x ∈ (group .all members m).livePlaces ↔ x = ⟨1, .group .all members m⟩ ∨
      m.isNever = false ∧ ∃ q ∈ members, x ∈ q.places mayOccur 2 := by
    intro x
    rw [livePlaces, mem_places_group_iff, mayOccur, Bool.not_eq_true']
  constructor
  · intro h
    refine ⟨h.bounds _ ((hlive _).2 (.inl rfl)), fun hn q hq => ?_⟩
    have hplace : ⟨2, q⟩ ∈ (group .all members m).livePlaces :=
      (hlive _).2 (.inr ⟨hn, q, hq, q.mem_places 2⟩)
    exact ⟨h.members _ _ rfl hn q hq, h.bounds _ hplace⟩
  · rintro ⟨hord, hmembers⟩
    -- the members being terms, there is nothing below them
    have hbelow : ∀ x ∈ (group .all members m).livePlaces, x = ⟨1, .group .all members m⟩ ∨
        x.particle.isTerm = true ∧ x.particle.occurs.isOrdered = true := by
      intro x hx
      refine ((hlive x).1 hx).imp_right ?_
      rintro ⟨hn, q, hq, hx⟩
      rw [places_of_isTerm (hmembers hn q hq).1, List.mem_singleton] at hx
      subst hx
      exact hmembers hn q hq
    refine ⟨fun x hx => ?_, fun x hx hlt hall => ?_, fun members' m' he hn q hq => ?_⟩
    · rcases hbelow x hx with rfl | h
      · exact hord
      · exact h.2
    · rcases hbelow x hx with rfl | h
      · exact absurd hlt (Nat.lt_irrefl 1)
      · rw [isAllGroup_of_isTerm h.1] at hall
        cases hall
    · cases he
      exact (hmembers hn q hq).1

/-- A particle that is not too deep passes the checks exactly when it is sound. -/
theorem check_eq_ok_iff (hd : p.depth ≤ limits.depth.toNat) :
    p.check limits = .ok () ↔ p.IsSound := by
  cases hp : p.isAllGroup with
  | true =>
    obtain ⟨members, m, rfl⟩ := exists_of_isAllGroup hp
    rw [check_all_eq_ok_iff, isSound_all_iff]
  | false =>
    rw [p.check_of_not_all hp, forM_eq_ok_iff]
    obtain ⟨hsub, hsup⟩ := p.places_drawn
    constructor
    · intro h
      have hlive : ∀ x ∈ p.livePlaces, x.particle.occurs.isOrdered = true ∧
          (x.particle.isAllGroup = true → x.particle.occurs.isNever = true) := by
        intro x hx
        rcases hsup x hx with hdrawn | ⟨⟨-, hterm, honce⟩, -⟩
        · exact (Place.check_eq_ok_iff.1 (h x hdrawn)).2
        · rw [isAllGroup_of_isTerm hterm, honce]
          exact ⟨rfl, nofun⟩
      refine ⟨fun x hx => (hlive x hx).1, fun x hx _ => (hlive x hx).2, ?_⟩
      rintro members m rfl
      cases hp
    · intro h x hx
      have hlive := hsub x hx
      have hdepth : x.depth < 1 + p.depth := depth_lt_of_mem_places hx
      refine Place.check_eq_ok_iff.2 ⟨by omega, h.bounds x hlive, fun hall => ?_⟩
      rcases eq_or_lt_of_mem_places hx with rfl | hlt
      · rw [hp] at hall
        cases hall
      · exact h.nested x hlive hlt hall

/-- A particle that is not too deep is refused for a fault of the schema. -/
theorem check_eq_error (hd : p.depth ≤ limits.depth.toNat) {e : Error}
    (h : p.check limits = .error e) : ∃ fault, e = .ofFault fault := by
  cases hp : p.isAllGroup with
  | true =>
    obtain ⟨members, m, rfl⟩ := exists_of_isAllGroup hp
    rw [check_all] at h
    cases hbounds : m.checkBounds with
    | error e' =>
      rw [hbounds] at h
      cases h
      exact Multiplicity.checkBounds_eq_error hbounds
    | ok =>
      rw [hbounds] at h
      change (if m.isNever then .ok () else forM members checkMember) = Except.error e at h
      split at h
      · cases h
      · obtain ⟨-, q, -, -, -, hq⟩ := forM_eq_error_iff.1 h
        exact checkMember_eq_error hq
  | false =>
    rw [p.check_of_not_all hp] at h
    obtain ⟨before, x, after, hl, -, hx⟩ := forM_eq_error_iff.1 h
    have hmem : x ∈ p.drawnPlaces := by simp [hl]
    have hdepth : x.depth < 1 + p.depth := depth_lt_of_mem_places hmem
    refine (Place.check_eq_error hx).resolve_left ?_
    rintro ⟨hlt, -⟩
    omega

end Particle

namespace Builder

/-- Nothing is reported of a particle with a fault. -/
theorem kept_of_fault (fault : SchemaFault) (level : Level) :
    (Reporter.collector.absorb (buildEvents level (.error (.ofFault fault)))).1.kept = [] := by
  rw [Reporter.kept_absorb_collector]
  rfl

variable {b b' : Builder}

/-- As long as the number of nodes is not bounded, a particle that is not too deep is compiled
exactly when it is sound, and nothing is reported of it; if it is not sound, it is refused for a
fault of the schema. Whatever the depth, to validate children and to find ambiguities the same
particles are compiled and the others are refused for the same reason. -/
theorem build_iff_isSound (h : b.IsClean) (h' : b'.IsClean) (hlimits : b'.limits = b.limits)
    (hn : b.limits.nodeBound = none) (p : Particle) :
    (p.depth ≤ b.limits.depth.toNat → ∀ purpose level,
      let outcome := (b.build p purpose).1
      ((∃ c, outcome = .ok c) ↔ p.IsSound) ∧
        (¬ p.IsSound → ∃ fault, outcome = .error (.ofFault fault)) ∧
        (Reporter.collector.absorb (buildJournal level (b.build p purpose))).1.kept = []) ∧
      ((∃ c c', (b.build p .validation).1 = .ok c ∧ (b'.build p .attribution).1 = .ok c') ∨
        ∃ e, (b.build p .validation).1 = .error e ∧ (b'.build p .attribution).1 = .error e) := by
  refine ⟨?_, ?_⟩
  · intro hd purpose level outcome
    have hok : (∃ c, outcome = .ok c) ↔ p.IsSound :=
      (h.build_eq_ok_iff hn p purpose).trans (Particle.check_eq_ok_iff hd)
    have hfault : ∀ e, outcome = .error e → ∃ fault, e = .ofFault fault :=
      fun e he => Particle.check_eq_error hd ((h.build_eq_error_iff hn p purpose).1 he)
    rw [buildJournal_eq, show (b.build p purpose).1 = outcome from rfl]
    cases houtcome : outcome with
    | ok c =>
      have hs : p.IsSound := hok.1 ⟨c, houtcome⟩
      exact ⟨iff_of_true ⟨c, rfl⟩ hs, absurd hs, kept_of_ok c level⟩
    | error e =>
      obtain ⟨fault, rfl⟩ := hfault e houtcome
      have hs : ¬ p.IsSound := by
        rw [← hok, houtcome]
        exact nofun
      exact ⟨iff_of_false nofun hs, fun _ => ⟨fault, rfl⟩, kept_of_fault fault level⟩
  · have hn' : b'.limits.nodeBound = none := by rw [hlimits, hn]
    have hsame : p.check b'.limits = p.check b.limits := by rw [hlimits]
    cases hcheck : p.check b.limits with
    | ok =>
      obtain ⟨c, hc⟩ := (h.build_eq_ok_iff hn p .validation).2 hcheck
      obtain ⟨c', hc'⟩ := (h'.build_eq_ok_iff hn' p .attribution).2 (hsame.trans hcheck)
      exact .inl ⟨c, c', hc, hc'⟩
    | error e =>
      exact .inr ⟨e, (h.build_eq_error_iff hn p .validation).2 hcheck,
        (h'.build_eq_error_iff hn' p .attribution).2 (hsame.trans hcheck)⟩

/-- Inverted bounds are a fault where the particle may occur, and none inside a group that may
not. -/
theorem build_iff_isSound_inverted :
    let inverted : Particle := .element (.bare "b") ⟨3, some 1⟩
    let seen : Particle := .group .sequence [.element (.bare "a") ⟨2, none⟩, inverted] ⟨0, some 5⟩
    let hidden : Particle := .group .sequence [.group .choice [inverted] .never] .once
    (∃ fault, ((new .unlimited).build seen .validation).1 = .error (.ofFault fault)) ∧
      (∃ e, ((new .unlimited).build seen .attribution).1 = .error e) ∧
      ∃ c, ((new .unlimited).build hidden .attribution).1 = .ok c := by
  intro inverted seen hidden
  have hclean := isClean_new .unlimited
  have hseen : ¬ seen.IsSound := fun h => by
    have hordered := h.bounds ⟨2, inverted⟩ (.tail _ (.tail _ (.head _)))
    cases hordered
  have hhidden : hidden.IsSound := by
    have hplaces : hidden.livePlaces = [⟨1, hidden⟩, ⟨2, .group .choice [inverted] .never⟩] := rfl
    constructor
    · simp only [hplaces, List.forall_mem_cons]
      exact ⟨rfl, rfl, nofun⟩
    · simp only [hplaces, List.forall_mem_cons]
      exact ⟨nofun, fun _ _ => rfl, nofun⟩
    · intro members m he
      simp [hidden] at he
  obtain ⟨hbuild, hsame⟩ := build_iff_isSound hclean hclean rfl rfl seen
  obtain ⟨-, hfault, -⟩ := hbuild (by decide) .validation .warn
  obtain ⟨hok, -⟩ := (build_iff_isSound hclean hclean rfl rfl hidden).1 (by decide) .attribution .warn
  refine ⟨hfault hseen, ?_, hok.2 hhidden⟩
  rcases hsame with ⟨c, c', hc, -⟩ | ⟨e, -, he⟩
  · obtain ⟨fault, he⟩ := hfault hseen
    rw [he] at hc
    cases hc
  · exact ⟨e, he⟩

end Builder

end ContentAutomata
