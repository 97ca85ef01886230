import ContentAutomata.Proofs.AllGroup.Counts

/-!
# Verdicts of compiled `all` groups

The members of a compiled `all` group ask for what the particles in the group say, apart from those
that may not occur. So where no child could be attributed to two of them, the children are valid
just when each is asked for and each member gets as many as its range admits, in whatever order they
come; and the first child that is not asked for, or is one too many, is where they become invalid.

Results:
* `demands_ofTree`, `isNullable_ofTree`: what the model of an `all` node asks for;
* `validate_all_of_build`: the verdicts of a compiled `all` group.
-/
namespace ContentAutomata

/-- What a member of an `all` group asks for, if it may occur. -/
def Particle.demand? (p : Particle) : Option Demand :=
  if p.occurs.isNever then none else p.term?.map fun t => ⟨t.accepts, p.occurs⟩

theorem Particle.demand?_eq_some {p : Particle} {d : Demand} : p.demand? = some d ↔
    p.occurs.isNever = false ∧ ∃ term, p.term? = some term ∧ d = ⟨term.accepts, p.occurs⟩ := by
  unfold demand?
  cases p.occurs.isNever <;> simp [eq_comm]

namespace AllGroup

theorem demands_ofTree (ps : List Particle) (next : Nat) (m : Multiplicity) :
    (AllGroup.ofTree (.all (Particle.memberTrees ps next) m)).demands =
      ps.filterMap Particle.demand? := by
  unfold demands ofTree
  induction ps generalizing next with
  | nil => rfl
  | cons p ps ih =>
    unfold Particle.memberTrees
    cases hterm : p.term? with
    | none => simpa [Particle.demand?, hterm] using ih next
    | some t =>
      cases hn : p.occurs.isNever with
      | true => simpa [Particle.demand?, hterm, hn] using ih next
      | false => simpa [Particle.demand?, hterm, hn, memberOf, Member.demand] using ih (next + 1)

/-- An `all` node may be absent if its own range or the ranges of all its members begin at zero. -/
theorem isNullable_ofTree (ps : List Particle) (next : Nat) (m : Multiplicity) :
    (AllGroup.ofTree (.all (Particle.memberTrees ps next) m)).isNullable = true ↔
      m.min = 0 ∨ ∀ d ∈ ps.filterMap Particle.demand?, d.occurs.min = 0 := by
  have hmembers : (Particle.memberTrees ps next).all Tree.isNullable = true ↔
      ∀ d ∈ ps.filterMap Particle.demand?, d.occurs.min = 0 := by
    induction ps generalizing next with
    | nil => simp [Particle.memberTrees]
    | cons p ps ih =>
      unfold Particle.memberTrees
      cases hterm : p.term? with
      | none => simpa [Particle.demand?, hterm] using ih next
      | some t =>
        cases hn : p.occurs.isNever with
        | true => simpa [Particle.demand?, hterm, hn] using ih next
        | false => simpa [Particle.demand?, hterm, hn, Tree.isNullable] using
            fun _ => ih (next + 1)
  rw [← hmembers, ← Tree.allNullable_eq]
  simp [ofTree, Tree.isNullable]

end AllGroup

/-- A compiled `all` group without ambiguities gives the verdict that its members call for. -/
theorem settles_all_of_build {b b' : Builder} {members : List Particle} {m : Multiplicity}
    {purpose : Purpose} {c : Compilation}
    (h : b.build (.group .all members m) purpose = (.ok c, b'))
    (hm : m = .once ∨ m = .optional) (hu : c.model.ambiguities = []) {names : List Name}
    (hlen : names.length < UInt32.size) :
    Settles (members.filterMap Particle.demand?) (m = .optional) names (c.model.validate names) := by
  have hmodel : c.model = .all (.ofTree (.all (Particle.memberTrees members 0) m)) := by
    rw [Builder.model_of_build h, Particle.model]
    rcases hm with rfl | rfl <;> rfl
  rw [hmodel] at hu ⊢
  have hsettles := AllGroup.settles_counted (AllGroup.isDisjoint_of_ambiguities hu) hlen
  rw [AllGroup.demands_ofTree, AllGroup.isNullable_ofTree] at hsettles
  refine hsettles.congr ⟨?_, ?_⟩
  · rintro (hmeets | ⟨rfl, hzero | hzero⟩)
    · exact .inl hmeets
    · rcases hm with rfl | rfl
      · cases hzero
      · exact .inr ⟨rfl, rfl⟩
    · -- nothing is asked for
      exact .inl (meets_iff.2 ⟨suits_nil, fun d hd => by rw [hzero d hd]; exact Nat.zero_le _⟩)
  · rintro (hmeets | ⟨rfl, rfl⟩)
    · exact .inl hmeets
    · exact .inr ⟨rfl, .inl rfl⟩

/-- Where a compiled `all` group has no ambiguities, the children are valid just when each is asked
for by a member that may occur and each of these members gets as many as its range admits, or when
there are none and the group may be absent. They are invalid from the first child on that is not
asked for or is one too many; otherwise they are incomplete. So whether they are valid does not
depend on their order. -/
theorem validate_all_of_build {b b' : Builder} {members : List Particle} {m : Multiplicity}
    {purpose : Purpose} {c : Compilation}
    (h : b.build (.group .all members m) purpose = (.ok c, b'))
    (hm : m = .once ∨ m = .optional) (hu : c.model.ambiguities = []) {names : List Name}
    (hlen : names.length < UInt32.size) :
    let ds := members.filterMap Particle.demand?
    (c.model.validate names = .valid ↔ Meets ds names ∨ names = [] ∧ m = .optional) ∧
      (∀ i, c.model.validate names = .invalid i ↔
        IsExcess ds names i ∧ ∀ j < i, ¬ IsExcess ds names j) ∧
      (∀ n, c.model.validate names = .incomplete n ↔ n = names.length ∧
        (∀ i, ¬ IsExcess ds names i) ∧ ¬ (Meets ds names ∨ names = [] ∧ m = .optional)) ∧
      ∀ names', names.Perm names' →
        (c.model.validate names' = .valid ↔ c.model.validate names = .valid) := by
  intro ds
  have hsettles := settles_all_of_build h hm hu hlen
  have hvalid : ∀ {names : List Name}, names.length < UInt32.size →
      (c.model.validate names = .valid ↔ Meets ds names ∨ names = [] ∧ m = .optional) := by
    intro names hlen
    exact (settles_all_of_build h hm hu hlen).eq_iff.trans ⟨fun | .valid hmeets => hmeets, .valid⟩
  refine ⟨hvalid hlen, fun i => hsettles.eq_iff.trans ?_, fun n => hsettles.eq_iff.trans ?_,
    fun names' hp => ?_⟩
  · exact ⟨fun | .invalid hexcess hleast => ⟨hexcess, hleast⟩, fun hx => .invalid hx.1 hx.2⟩
  · constructor
    · intro hx
      cases hx
      rename_i hfits hfails
      exact ⟨rfl, hfits, hfails⟩
    · rintro ⟨rfl, hfits, hfails⟩
      exact .incomplete hfits hfails
  · rw [hvalid (hp.length_eq ▸ hlen), hvalid hlen]
    refine or_congr ⟨.perm hp.symm, .perm hp⟩ (and_congr_left' ?_)
    constructor
    · rintro rfl
      exact hp.eq_nil
    · rintro rfl
      exact hp.symm.eq_nil

/-- One or two `a` and at most one `b` in any order, and no `c`, or nothing at all: `b`, `a`, `a`
is what is asked for; a second `b` is one too many, a `c` is not asked for, and a `b` alone is not
enough. -/
theorem validate_all_of_build_optional :
    let ds := [Particle.element (.bare "a") ⟨1, some 2⟩, .element (.bare "b") .optional,
      .element (.bare "c") .never].filterMap Particle.demand?
    Meets ds [.bare "b", .bare "a", .bare "a"] ∧ IsExcess ds [.bare "b", .bare "a", .bare "b"] 2 ∧
      IsExcess ds [.bare "c"] 0 ∧ ¬ Meets ds [.bare "b"] := by
  let members : List Particle := [.element (.bare "a") ⟨1, some 2⟩,
    .element (.bare "b") .optional, .element (.bare "c") .never]
  let c : Compilation := ⟨none, .all (.ofTree (.all (Particle.memberTrees members 0) .optional))⟩
  have h : (Builder.new .default).build (.group .all members .optional) .validation = (.ok c, _) :=
    rfl
  have hu : c.model.ambiguities = [] := by decide +kernel
  have hverdicts := fun (names : List Name) (hlen : names.length < UInt32.size) =>
    validate_all_of_build h (.inr rfl) hu hlen
  have hmeets := (hverdicts [.bare "b", .bare "a", .bare "a"] (by decide)).1.1 (by decide +kernel)
  have htwice := ((hverdicts [.bare "b", .bare "a", .bare "b"] (by decide)).2.1 2).1
    (by decide +kernel)
  have hother := ((hverdicts [.bare "c"] (by decide)).2.1 0).1 (by decide +kernel)
  have halone := ((hverdicts [.bare "b"] (by decide)).2.2.1 1).1 (by decide +kernel)
  exact ⟨hmeets.resolve_right (by simp), htwice.1, hother.1, fun hx => halone.2.2 (.inl hx)⟩

end ContentAutomata
