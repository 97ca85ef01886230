import ContentAutomata.Proofs.Attribution.Conflicts

/-!
# What verdicts mean

Where no child could be attributed to two particles, a run does not miss anything: it takes the
children of every word that the particles spell out, and of every beginning of one. So its verdict
says whether the children are a word of the content, and if they are not, how far they are the
beginning of one.

Results:
* `Tracks.exists_takeAll`: a run takes whatever fits a beginning of a word;
* `Tracks.judges`: the verdict of a run is the one that its language calls for;
* `Represents.isDeterministic`: a model without ambiguities leaves no choice.
-/
namespace ContentAutomata

/-- No child could be attributed to two particles. -/
def IsDeterministic (terms : List Term) (L : Language Nat) : Prop :=
  ∀ ⦃u j k name⦄, u ++ [j] ∈ beginnings L → u ++ [k] ∈ beginnings L → Fits terms j name →
    Fits terms k name → j = k

/-- The verdict that a language of children calls for. -/
inductive Judges (C : Language Name) (names : List Name) : Verdict → Prop
  | valid (mem : names ∈ C) : Judges C names .valid
  | invalid {i : Nat} (fits : names.take i ∈ beginnings C)
    (ends : names.take (i + 1) ∉ beginnings C) : Judges C names (.invalid i)
  | incomplete (fits : names ∈ beginnings C) (not_mem : names ∉ C) :
    Judges C names (.incomplete names.length)

/-! ## The verdict of a language -/

namespace Judges

variable {C : Language Name} {names : List Name} {v v' : Verdict}

theorem take_mem (h : names ∈ beginnings C) (i : Nat) : names.take i ∈ beginnings C := by
  rw [← List.take_append_drop i names] at h
  exact mem_beginnings_of_append h

theorem index_le {i j : Nat} (h : names.take i ∈ beginnings C)
    (h' : names.take (j + 1) ∉ beginnings C) : i ≤ j := by
  by_contra hlt
  have htake := take_mem h (j + 1)
  rw [List.take_take, Nat.min_eq_left (by omega)] at htake
  exact h' htake

/-- A language calls for one verdict only. -/
theorem unique (h : Judges C names v) (h' : Judges C names v') : v = v' := by
  cases h with
  | valid hmem =>
    cases h' with
    | valid => rfl
    | invalid _ hends => exact absurd (take_mem (mem_beginnings_of_mem hmem) _) hends
    | incomplete _ hnot => exact absurd hmem hnot
  | invalid hfits hends =>
    cases h' with
    | valid hmem => exact absurd (take_mem (mem_beginnings_of_mem hmem) _) hends
    | invalid hfits' hends' =>
      rw [Nat.le_antisymm (index_le hfits hends') (index_le hfits' hends)]
    | incomplete hmem => exact absurd (take_mem hmem _) hends
  | incomplete hfits hnot =>
    cases h' with
    | valid hmem => exact absurd hmem hnot
    | invalid _ hends => exact absurd (take_mem hfits _) hends
    | incomplete => rfl

/-- The verdict that is called for is given. -/
theorem eq_iff (h : Judges C names v) : v = v' ↔ Judges C names v' :=
  ⟨fun he => he ▸ h, h.unique⟩

end Judges

/-! ## The verdict of a run -/

theorem Attributes.fits {terms : List Term} {cs : List Claimant} {names : List Name}
    (h : Attributes terms cs names) :
    List.Forall₂ (Fits terms) (cs.map (·.particle)) names := by
  rw [List.forall₂_map_left_iff]
  exact h.imp fun c name ⟨hterm, haccepts⟩ => ⟨_, hterm, haccepts⟩

namespace Tracks

variable {terms : List Term} {L : Language Nat} {R : List Nat → Run → Prop}

/-- A run takes whatever fits a beginning of a word. -/
theorem exists_takeAll (h : Tracks terms L R) (hd : IsDeterministic terms L) {names : List Name} :
    ∀ {u v : List Nat} {r : Run}, R u r → u ++ v ∈ beginnings L →
      List.Forall₂ (Fits terms) v names → u.length + names.length < UInt32.size →
      ∃ cs r', r.takeAll names = some (cs, r') ∧ R (u ++ v) r' := by
  induction names with
  | nil =>
    intro u v r hr _ hf _
    obtain rfl := List.forall₂_nil_right_iff.1 hf
    exact ⟨[], r, rfl, by simpa using hr⟩
  | cons name names ih =>
    intro u v r hr hmem hf hlen
    obtain ⟨e, v, hfits, hrest, rfl⟩ := List.forall₂_cons_right_iff.1 hf
    rw [List.length_cons] at hlen
    rw [List.append_cons] at hmem ⊢
    have hopen := mem_beginnings_of_append hmem
    rcases h.step hr (by omega) name with ⟨c, r₁, hfirst, hstep, hr₁⟩ | ⟨hno, -⟩
    · obtain rfl := hd hopen hfirst.mem hfits hfirst.fits
      obtain ⟨cs, r', htake, hr'⟩ := ih hr₁ hmem hrest (by simp; omega)
      exact ⟨c :: cs, r', Run.takeAll_cons.2 ⟨c, r₁, cs, hstep, htake, rfl⟩, hr'⟩
    · exact absurd hfits (hno e hopen)

section Judging

variable (h : Tracks terms L R) (hd : IsDeterministic terms L)
  (hspelled : ∀ w ∈ L, ∀ e ∈ w, ∃ name, Fits terms e name) {r : Run} (hr : R [] r)
  (hnil : [] ∈ beginnings L) {names : List Name} (hlen : names.length < UInt32.size)

include h hd hspelled hr hnil hlen

/-- A run takes what the content begins with. -/
theorem takeAll_isSome_iff :
    (r.takeAll names).isSome = true ↔ names ∈ beginnings (related (Fits terms) L) := by
  rw [beginnings_related hspelled, Option.isSome_iff_exists]
  constructor
  · intro hx
    obtain ⟨⟨cs, r'⟩, htake⟩ := hx
    obtain ⟨ha, hmem, -⟩ := h.takeAll hr hnil (by simpa using hlen) htake
    exact ⟨_, hmem, ha.fits⟩
  · intro hx
    obtain ⟨u, hu, hf⟩ := hx
    obtain ⟨cs, r', htake, -⟩ := h.exists_takeAll hd hr hu hf (by simpa using hlen)
    exact ⟨_, htake⟩

omit hspelled in
/-- What was taken is complete if it is content. -/
theorem isComplete_iff_mem {cs : List Claimant} {r' : Run}
    (htake : r.takeAll names = some (cs, r')) :
    r'.isComplete = true ↔ names ∈ related (Fits terms) L := by
  constructor
  · intro hcomplete
    obtain ⟨ha, -, hr'⟩ := h.takeAll hr hnil (by simpa using hlen) htake
    exact ⟨_, (h.isComplete hr').1 hcomplete, ha.fits⟩
  · intro hx
    obtain ⟨u, hu, hf⟩ := hx
    obtain ⟨cs', r'', htake', hr''⟩ :=
      h.exists_takeAll hd hr (mem_beginnings_of_mem hu) hf (by simpa using hlen)
    obtain ⟨rfl, rfl⟩ := Prod.mk.inj (Option.some.inj (htake.symm.trans htake'))
    exact (h.isComplete hr'').2 hu

/-- The verdict is the one that the content calls for. -/
theorem judges : Judges (related (Fits terms) L) names (r.verdict 0 names) := by
  have hsome : ∀ n, (r.takeAll (names.take n)).isSome = true ↔
      names.take n ∈ beginnings (related (Fits terms) L) := fun n =>
    h.takeAll_isSome_iff hd hspelled hr hnil
      (Nat.lt_of_le_of_lt (List.length_take_le' n names) hlen)
  cases htake : r.takeAll names with
  | some taken =>
    obtain ⟨cs, r'⟩ := taken
    have hfits := (h.takeAll_isSome_iff hd hspelled hr hnil hlen).1 (by rw [htake]; rfl)
    have hcomplete := h.isComplete_iff_mem hd hr hnil hlen htake
    rw [Run.verdict_of_takeAll htake, Nat.zero_add]
    split
    · rename_i hc
      exact .valid (hcomplete.1 hc)
    · rename_i hc
      exact .incomplete hfits (mt hcomplete.2 hc)
  | none =>
    obtain ⟨k, -, hverdict, hfits, hends⟩ := Run.verdict_of_refused 0 htake
    rw [hverdict, Nat.zero_add]
    refine .invalid ((hsome k).1 hfits) fun hmem => ?_
    have hsome' := (hsome (k + 1)).2 hmem
    rw [hends] at hsome'
    cases hsome'

end Judging

end Tracks

/-! ## Compiled models -/

/-- Every term of a particle accepts some name, if no wildcard is void. -/
theorem Particle.exists_fits {p : Particle}
    (hv : ∀ w, Term.wildcard w ∈ p.terms → w.spaces.isVoid = false) :
    ∀ u ∈ p.attributions, ∀ e ∈ u, ∃ name, Fits p.terms e name := by
  intro u hu e he
  obtain ⟨w, hw, rfl⟩ := mem_attributions_iff.1 hu
  obtain ⟨c, hc, rfl⟩ := List.mem_map.1 he
  have hterm := term_of_mem_claims hw hc
  obtain ⟨name, haccepts⟩ := Term.exists_accepts fun v (he : c.term = .wildcard v) =>
    hv v (he ▸ List.mem_of_getElem? hterm)
  exact ⟨name, _, hterm, haccepts⟩

/-- A model without ambiguities leaves no choice. -/
theorem Represents.isDeterministic {p : Particle} {m : Model} (h : Represents p m)
    (hm : m.ambiguities = []) : IsDeterministic p.terms p.attributions := by
  have habsurd : ∀ {u : List Nat} {j k : Nat} {name : Name}, j < k →
      u ++ [j] ∈ beginnings p.attributions → u ++ [k] ∈ beginnings p.attributions →
      Fits p.terms j name → ¬ Fits p.terms k name := by
    intro u j k name hlt hj hk hx hy
    obtain ⟨s, hs, has⟩ := hx
    obtain ⟨t, ht, hat⟩ := hy
    have hmem := (h.findsConflicts.mem_iff ⟨⟨s, j⟩, ⟨t, k⟩⟩).2
      ⟨hlt, hs, ht, ⟨name, has, hat⟩, u, hj, hk⟩
    rw [hm] at hmem
    cases hmem
  intro u j k name hj hk hfj hfk
  rcases Nat.lt_trichotomy j k with hlt | he | hlt
  · exact absurd hfk (habsurd hlt hj hk hfj)
  · exact he
  · exact absurd hfj (habsurd hlt hk hj hfk)

/-- Where a compiled model has no ambiguities and no wildcard is void, the children are valid just
when they are content, and invalid from the child on after which they no longer begin any content.
Otherwise they are incomplete. -/
theorem validate_of_build {b b' : Builder} {p : Particle} {c : Compilation}
    (hp : p.isAllGroup = false) (h : b.build p .validation = (.ok c, b'))
    (hm : c.model.ambiguities = [])
    (hv : ∀ w, Term.wildcard w ∈ p.terms → w.spaces.isVoid = false) {names : List Name}
    (hlen : names.length < UInt32.size) :
    (c.model.validate names = .valid ↔ names ∈ p.content) ∧
      (∀ i, c.model.validate names = .invalid i ↔
        names.take i ∈ beginnings p.content ∧ names.take (i + 1) ∉ beginnings p.content) ∧
      (∀ n, c.model.validate names = .incomplete n ↔
        n = names.length ∧ names ∈ beginnings p.content ∧ names ∉ p.content) := by
  have hmodel := represents_of_build hp h
  obtain ⟨R, htracks, hstart⟩ := hmodel.exists_tracks
  have hjudges : Judges p.content names (c.model.validate names) :=
    p.content_eq ▸ htracks.judges (hmodel.isDeterministic hm) (p.exists_fits hv) hstart
      hmodel.nil_mem hlen
  refine ⟨hjudges.eq_iff.trans ?_, fun i => hjudges.eq_iff.trans ?_,
    fun n => hjudges.eq_iff.trans ?_⟩
  · exact ⟨fun | .valid hmem => hmem, .valid⟩
  · exact ⟨fun | .invalid hfits hends => ⟨hfits, hends⟩, fun ⟨hfits, hends⟩ => .invalid hfits hends⟩
  · constructor
    · intro hx
      cases hx
      rename_i hfits hnot
      exact ⟨rfl, hfits, hnot⟩
    · intro hx
      obtain ⟨rfl, hfits, hnot⟩ := hx
      exact .incomplete hfits hnot

/-- Two or three times `a` with an optional `b` admit `a`, `a`, `b`. They may begin with a single
`a`, but not with `a`, `b`. -/
theorem validate_of_build_counted :
    let p : Particle := .group .sequence
      [.element (.bare "a") ⟨2, some 3⟩, .element (.bare "b") ⟨0, some 1⟩] .once
    [.bare "a", .bare "a", .bare "b"] ∈ p.content ∧ [.bare "a"] ∈ beginnings p.content ∧
      [.bare "a", .bare "b"] ∉ beginnings p.content := by
  intro p
  let c : Compilation := .ofTree (.ofDraft (p.compactTree 0) false 4)
  have h : (Builder.new .default).build p .validation = (.ok c, _) := rfl
  have hm : c.model.ambiguities = [] := by decide +kernel
  have hv : ∀ w, Term.wildcard w ∈ p.terms → w.spaces.isVoid = false := by
    simp [p, Particle.terms, Particle.termsOf]
  let names : List Name := [.bare "a", .bare "a", .bare "b"]
  let names' : List Name := [.bare "a", .bare "b"]
  have hlen : names.length < UInt32.size := by decide
  have hlen' : names'.length < UInt32.size := by decide
  have hvalid : c.model.validate names = .valid := by decide +kernel
  have hinvalid : c.model.validate names' = .invalid 1 := by decide +kernel
  exact ⟨(validate_of_build (p := p) rfl h hm hv hlen).1.1 hvalid,
    ((validate_of_build (p := p) rfl h hm hv hlen').2.1 1).1 hinvalid⟩

end ContentAutomata
