import ContentAutomata.Proofs.Builder.Soundness

/-!
# The bound on the depth

A particle that is compiled under some bound on the depth is compiled under every other one that its
places keep within, and refused under one that they do not. The refusal names the first depth that
is too great: places are gone through from the top, so a group is found to be too deep before its
members are.

Only places that are looked at count. A term that is drawn up together with the group around it may
be one level too deep, and neither an `all` group nor its members are ever too deep. A place inside
another group that is more than one level too deep is always found, as the one above it is.

Results:
* `Particle.check_of_check`: what becomes of a particle under another bound on the depth;
* `Builder.build_tooDeep_iff`: which particles are refused for their depth;
* `Builder.build_below_bound`: places that may occur and are too deep, without a refusal.
-/
namespace ContentAutomata

/-- What goes wrong goes wrong in the first step or in the second. -/
theorem bind_eq_error_iff {ε α β : Type} {x : Except ε α} {f : α → Except ε β} {e : ε} :
    x >>= f = .error e ↔ x = .error e ∨ ∃ a, x = .ok a ∧ f a = .error e := by
  cases x <;> simp [bind, Except.bind]

variable {limits : Limits} {isEntered : Multiplicity → Bool} {depth bound : Nat}

theorem Place.check_tooDeep {x : Place} (h : x.check limits = .error (.tooDeep depth bound)) :
    limits.depth.toNat < x.depth ∧ depth = x.depth ∧ bound = limits.depth.toNat := by
  rcases check_eq_error h with ⟨hlt, he⟩ | ⟨fault, he⟩
  · cases he
    exact ⟨hlt, rfl, rfl⟩
  · cases he

/-- A place that passed under one bound on the depth passes under another one, or is too deep. -/
theorem Place.check_of_check (limits' : Limits) {x : Place} (h : x.check limits = .ok ()) :
    x.check limits' = if x.depth ≤ limits'.depth.toNat then .ok ()
      else .error (.tooDeep x.depth limits'.depth.toNat) := by
  obtain ⟨-, hsound⟩ := check_eq_ok_iff.1 h
  split
  · exact check_eq_ok_iff.2 ⟨‹_›, hsound⟩
  · rename_i hdepth
    rw [check, Limits.checkDepth, if_neg hdepth]
    rfl

namespace Particle

variable {p : Particle}

mutual
/-- Where everything above is not too deep, the first place that is too deep is so by one level. -/
theorem forM_places_tooDeep : ∀ {p : Particle} {k : Nat}, k ≤ limits.depth.toNat + 1 →
    forM (p.places isEntered k) (Place.check limits) = .error (.tooDeep depth bound) →
      depth = limits.depth.toNat + 1
  | p, k, hk, h => by
    have hown : Place.check limits ⟨k, p⟩ = .error (.tooDeep depth bound) →
        depth = limits.depth.toNat + 1 := fun hcheck => by
      obtain ⟨hlt, rfl, -⟩ := Place.check_tooDeep hcheck
      exact Nat.le_antisymm hk hlt
    cases p with
    | element name m =>
      rw [places, List.forM_cons, List.forM_nil, bind_pure_unit] at h
      exact hown h
    | wildcard w =>
      rw [places, List.forM_cons, List.forM_nil, bind_pure_unit] at h
      exact hown h
    | group c members m =>
      rw [places, List.forM_cons, bind_eq_error_iff] at h
      rcases h with h | ⟨_, hk', h⟩
      · exact hown h
      · split at h
        · exact forM_placesOf_tooDeep (Nat.succ_le_succ (Place.check_eq_ok_iff.1 hk').1) h
        · cases h
theorem forM_placesOf_tooDeep : ∀ {ps : List Particle} {k : Nat}, k ≤ limits.depth.toNat + 1 →
    forM (placesOf isEntered ps k) (Place.check limits) = .error (.tooDeep depth bound) →
      depth = limits.depth.toNat + 1
  | [], k, hk, h => by cases h
  | p :: ps, k, hk, h => by
    rw [placesOf, List.forM_append, bind_eq_error_iff] at h
    rcases h with h | ⟨_, -, h⟩
    · exact forM_places_tooDeep hk h
    · exact forM_placesOf_tooDeep hk h
end

/-- A particle that passed under one bound on the depth passes under another one, unless it is no
`all` group and some place that is looked at is too deep. -/
theorem check_of_check (limits' : Limits) (h : p.check limits = .ok ()) :
    (p.isAllGroup = false ∧ (∃ x ∈ p.drawnPlaces, limits'.depth.toNat < x.depth) ∧
      p.check limits' = .error (.tooDeep (limits'.depth.toNat + 1) limits'.depth.toNat)) ∨
    (¬ (p.isAllGroup = false ∧ ∃ x ∈ p.drawnPlaces, limits'.depth.toNat < x.depth) ∧
      p.check limits' = .ok ()) := by
  cases hp : p.isAllGroup with
  | true =>
    obtain ⟨members, m, rfl⟩ := exists_of_isAllGroup hp
    refine .inr ⟨by simp, ?_⟩
    rwa [check_all_eq_ok_iff] at h ⊢
  | false =>
    rw [p.check_of_not_all hp] at h ⊢
    rw [forM_eq_ok_iff] at h
    have hcheck := fun x hx => Place.check_of_check limits' (h x hx)
    by_cases hdeep : ∃ x ∈ p.drawnPlaces, limits'.depth.toNat < x.depth
    · refine .inl ⟨rfl, hdeep, ?_⟩
      cases he : forM p.drawnPlaces (Place.check limits') with
      | ok u =>
        obtain ⟨x, hx, hlt⟩ := hdeep
        have hle := (Place.check_eq_ok_iff.1 (forM_eq_ok_iff.1 he x hx)).1
        omega
      | error e =>
        obtain ⟨before, x, after, hl, -, hx⟩ := forM_eq_error_iff.1 he
        have hmem : x ∈ p.drawnPlaces := by simp [hl]
        rw [hcheck x hmem] at hx
        split at hx
        · cases hx
        · cases hx
          rw [forM_places_tooDeep (Nat.succ_le_succ (Nat.zero_le _)) he]
    · refine .inr ⟨fun h => hdeep h.2, forM_eq_ok_iff.2 fun x hx => ?_⟩
      rw [hcheck x hx, if_pos]
      exact Nat.not_lt.1 fun hlt => hdeep ⟨x, hx, hlt⟩

end Particle

namespace Builder

variable {b b' : Builder} {p : Particle} {c : Compilation} {purpose : Purpose}

/-- Take a particle that is compiled under some bound on the depth, as long as the number of nodes
is not bounded. Under another bound it is refused for its depth exactly if it is no `all` group and
a place that is looked at is too deep, and compiled otherwise. Unless counters help, the places that
are looked at are those that may occur; if they help, a place that may occur and is more than one
level too deep still leads to a refusal. -/
theorem build_tooDeep_iff (h : b.IsClean) (h' : b'.IsClean) (hn : b.limits.nodeBound = none)
    (hn' : b'.limits.nodeBound = none) (hbuild : (b.build p purpose).1 = .ok c)
    (purpose' : Purpose) :
    let bound := b'.limits.depth.toNat
    let outcome := (b'.build p purpose').1
    let refusal := Except.error (Error.tooDeep (bound + 1) bound)
    (outcome = refusal ↔ p.isAllGroup = false ∧ ∃ x ∈ p.drawnPlaces, bound < x.depth) ∧
      ((∃ c', outcome = .ok c') ∨ outcome = refusal) ∧
      (outcome = refusal → ∃ x ∈ p.livePlaces, bound < x.depth) ∧
      (p.isAllGroup = false → p.isCountable = false → (∃ x ∈ p.livePlaces, bound < x.depth) →
        outcome = refusal) ∧
      (p.isAllGroup = false → (∃ x ∈ p.livePlaces, bound + 1 < x.depth) → outcome = refusal) := by
  intro bound outcome refusal
  have hcheck := (h.build_eq_ok_iff hn p purpose).1 ⟨c, hbuild⟩
  obtain ⟨hsub, hsup⟩ := p.places_drawn
  have hiff : outcome = refusal ↔ p.isAllGroup = false ∧ ∃ x ∈ p.drawnPlaces, bound < x.depth := by
    rw [h'.build_eq_error_iff hn' p purpose']
    rcases Particle.check_of_check b'.limits hcheck with ⟨hp, hdeep, he⟩ | ⟨hnot, hok⟩
    · exact iff_of_true he ⟨hp, hdeep⟩
    · exact iff_of_false (by rw [hok]; exact nofun) hnot
  refine ⟨hiff, ?_, fun he => ?_, fun hp hc => ?_, fun hp => ?_⟩
  · rw [h'.build_eq_ok_iff hn' p purpose', h'.build_eq_error_iff hn' p purpose']
    rcases Particle.check_of_check b'.limits hcheck with ⟨-, -, he⟩ | ⟨-, hok⟩
    · exact .inr he
    · exact .inl hok
  · obtain ⟨-, x, hx, hlt⟩ := hiff.1 he
    exact ⟨x, hsub x hx, hlt⟩
  · rintro ⟨x, hx, hlt⟩
    refine hiff.2 ⟨hp, x, (hsup x hx).resolve_right ?_, hlt⟩
    rintro ⟨⟨hc', -⟩, -⟩
    rw [hc] at hc'
    cases hc'
  · rintro ⟨x, hx, hlt⟩
    rcases hsup x hx with hdrawn | ⟨-, y, hy, hdepth⟩
    · exact hiff.2 ⟨hp, x, hdrawn, by omega⟩
    · exact hiff.2 ⟨hp, y, hy, by omega⟩

/-- `a` twice, written as a group in a group: under a bound of one level the inner group is found,
under one of two levels the term in it is not. -/
theorem build_tooDeep_iff_folded :
    let p : Particle :=
      .group .sequence [.group .sequence [.element (.bare "a") .once] ⟨2, some 2⟩] .once
    ((new ⟨none, 1, 1⟩).build p .attribution).1 = .error (.tooDeep 2 1) ∧
      (∃ x ∈ p.livePlaces, 2 < x.depth) ∧
      ∃ c, ((new ⟨none, 1, 2⟩).build p .attribution).1 = .ok c := by
  intro p
  have hbuild : ∃ c, ((new .unlimited).build p .validation).1 = .ok c := ⟨_, rfl⟩
  obtain ⟨c, h⟩ := hbuild
  have hclean := isClean_new .unlimited
  let inner : Place := ⟨2, .group .sequence [.element (.bare "a") .once] ⟨2, some 2⟩⟩
  let term : Place := ⟨3, .element (.bare "a") .once⟩
  have hdrawn : p.drawnPlaces = [⟨1, p⟩, inner] := rfl
  have hlive : p.livePlaces = [⟨1, p⟩, inner, term] := rfl
  obtain ⟨hone, -⟩ :=
    build_tooDeep_iff hclean (isClean_new ⟨none, 1, 1⟩) rfl rfl h .attribution
  obtain ⟨htwo, hcompiled, -⟩ :=
    build_tooDeep_iff hclean (isClean_new ⟨none, 1, 2⟩) rfl rfl h .attribution
  refine ⟨hone.2 ⟨rfl, inner, by simp [hdrawn], by decide⟩, ⟨term, by simp [hlive], by decide⟩, ?_⟩
  refine hcompiled.resolve_right fun he => ?_
  obtain ⟨-, x, hx, hlt⟩ := htwo.1 he
  rw [hdrawn] at hx
  rcases List.mem_pair.1 hx with rfl | rfl <;> exact absurd hlt (by decide)

/-- Under a bound of one level, `a` twice written as a group and an `all` group around `a` are
compiled, although `a` may occur in them one level too deep. -/
theorem build_below_bound :
    let folded : Particle := .group .sequence [.element (.bare "a") .once] ⟨2, some 2⟩
    let anyOrder : Particle := .group .all [.element (.bare "a") .once] .once
    let tight : Limits := ⟨none, 1, 1⟩
    let compiles (limits : Limits) (p : Particle) := ∃ c, ((new limits).build p .validation).1 = .ok c
    let isTooDeep (p : Particle) := ∃ x ∈ p.livePlaces, tight.depth.toNat < x.depth
    (folded.depth ≤ Limits.unlimited.depth.toNat ∧ anyOrder.depth ≤ Limits.unlimited.depth.toNat) ∧
      (compiles .unlimited folded ∧ isTooDeep folded ∧ compiles tight folded) ∧
      compiles .unlimited anyOrder ∧ isTooDeep anyOrder ∧ compiles tight anyOrder := by
  intro folded anyOrder tight compiles isTooDeep
  let term : Place := ⟨2, .element (.bare "a") .once⟩
  have hdeep : tight.depth.toNat < term.depth := by decide
  refine ⟨by decide, ⟨⟨_, rfl⟩, ⟨term, .tail _ (.head _), hdeep⟩, ⟨_, rfl⟩⟩, ⟨_, rfl⟩, ?_, ⟨_, rfl⟩⟩
  exact ⟨term, .tail _ (.head _), hdeep⟩

end Builder

end ContentAutomata
