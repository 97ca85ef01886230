import ContentAutomata.Proofs.Automaton.Counting
import ContentAutomata.Proofs.Automaton.Plain

/-!
# Compiled models track the language of their particle

A particle without an `all` group at the top is compiled by way of its compact tree or of its
expanded tree, or to the empty model if it vanishes. Whichever way was taken, the runs of the model
track the numbers of the particle's terms.

Results:
* `draft_eq_ok`, `build_eq_ok`: what tree a particle is compiled by way of;
* `model_of_build`: the model that a particle is compiled to does not depend on the limits;
* `represents_compactTree`, `represents_expandedTree`: both trees mean what the particle means;
* `represents_of_build`, `Represents.exists_tracks`: every compiled model tracks its particle.
-/
namespace ContentAutomata

open ContentAutomata.Tree

/-- The model of a tree, whose leaves are numbered first; the empty model if there is no tree. -/
def Model.ofTree (isApproximate : Bool) : Option Tree → Model
  | none => .empty
  | some t => .automaton (t.numbered.automaton isApproximate)

theorem Compilation.model_ofDraft (root : Option Tree) (isApproximate : Bool) (nodeCount : Nat) :
    (Compilation.ofTree (SyntaxTree.ofDraft root isApproximate nodeCount)).model =
      Model.ofTree isApproximate root := by
  cases root with
  | none => rfl
  | some t =>
    have hcount : (t.number 0).2 = t.numbered.leafCount := by
      rw [number_snd, Nat.zero_add, leafCount_numbered, leafCount]
    simp only [Compilation.ofTree, SyntaxTree.ofDraft, Model.ofTree, numbered, hcount]

/-! ## The way a particle is compiled -/

namespace Particle

/-- The tree that a particle without an `all` group at the top is compiled by way of: a compact one
if counters help with it, otherwise an expanded one. -/
def tree (purpose : Purpose) (p : Particle) : Option Tree :=
  if p.isCountable then p.compactTree 0 else p.expandedTree purpose 0

/-- Whether that tree is an approximation. -/
def isTreeApproximate (purpose : Purpose) (p : Particle) : Bool :=
  !p.isCountable && p.isApproximated purpose

/-- The model that a particle is compiled to, whatever the limits. -/
def model (purpose : Purpose) : Particle → Model
  | group .all members m =>
    if m.isNever then .empty else .all (.ofTree (.all (memberTrees members 0) m))
  | p => .ofTree (p.isTreeApproximate purpose) (p.tree purpose)

theorem exists_of_isAllGroup {p : Particle} (hp : p.isAllGroup = true) :
    ∃ members m, p = group .all members m := by
  cases p with
  | element => cases hp
  | wildcard => cases hp
  | group c members m =>
    cases c with
    | sequence => cases hp
    | choice => cases hp
    | all => exact ⟨members, m, rfl⟩

theorem model_of_not_all {purpose : Purpose} {p : Particle} (hp : p.isAllGroup = false) :
    p.model purpose = .ofTree (p.isTreeApproximate purpose) (p.tree purpose) := by
  apply notAll_cases hp <;> intros <;> rfl

/-- Where counters help, what the model is wanted for does not matter. -/
theorem model_of_countable {p : Particle} (hp : p.isAllGroup = false) (hc : p.isCountable = true)
    (purpose : Purpose) : p.model purpose = .ofTree false (p.compactTree 0) := by
  rw [model_of_not_all hp, isTreeApproximate, tree, hc]
  rfl

theorem model_of_not_countable {p : Particle} (hp : p.isAllGroup = false)
    (hc : p.isCountable = false) (purpose : Purpose) :
    p.model purpose = .ofTree (p.isApproximated purpose) (p.expandedTree purpose 0) := by
  rw [model_of_not_all hp, isTreeApproximate, tree, hc]
  rfl

/-- For an `all` group it does not matter either. -/
theorem model_of_all {p : Particle} (hp : p.isAllGroup = true) :
    p.model .attribution = p.model .validation := by
  obtain ⟨members, m, rfl⟩ := exists_of_isAllGroup hp
  rfl

end Particle

namespace SyntaxTree

variable {limits : Limits} {p : Particle} {s s' : Draft.State} {t : SyntaxTree}

theorem draft_eq_ok {purpose : Purpose} (h : SyntaxTree.draft limits purpose p s = .ok (t, s')) :
    p.isWellFormed = true ∧
      ∃ nodeCount, t = ofDraft (p.tree purpose) (p.isTreeApproximate purpose) nodeCount := by
  simp only [draft, Draft.bind_eq_ok, Draft.startNumbering_eq_ok] at h
  obtain ⟨_, s₀, rfl, h⟩ := h
  unfold Particle.tree Particle.isTreeApproximate
  cases hc : p.isCountable with
  | true =>
    simp only [hc, if_true, Draft.bind_eq_ok, Draft.pure_eq_ok] at h
    obtain ⟨root, s₁, hroot, _, s₂, hs₂, _, s₃, -, h⟩ := h
    cases hs₂
    cases h
    obtain ⟨hw, rfl, -⟩ := Draft.compact_eq_ok hc hroot
    exact ⟨hw, _, rfl⟩
  | false =>
    simp only [hc, Bool.false_eq_true, if_false, Draft.bind_eq_ok] at h
    obtain ⟨r, s₁, hr, h⟩ := h
    obtain ⟨hw, htree, happrox, -⟩ := Draft.expanded_eq_ok hr
    rw [if_neg (by simp), ← htree, ← happrox]
    cases r with
    | none =>
      simp only [Draft.bind_eq_ok, Draft.pure_eq_ok] at h
      obtain ⟨_, s₂, hs₂, _, s₃, -, h⟩ := h
      cases hs₂
      cases h
      exact ⟨hw, _, rfl⟩
    | some r =>
      obtain ⟨t, isApproximate⟩ := r
      simp only [Draft.bind_eq_ok, Draft.pure_eq_ok] at h
      obtain ⟨_, s₂, hs₂, _, s₃, -, h⟩ := h
      cases hs₂
      cases h
      exact ⟨hw, _, rfl⟩

end SyntaxTree

theorem Compilation.ofParticle_of_not_all {limits : Limits} {purpose : Purpose} {p : Particle}
    (hp : p.isAllGroup = false) :
    ofParticle limits purpose p = ofTree <$> SyntaxTree.draft limits purpose p := by
  apply Particle.notAll_cases hp <;> intros <;> rfl

namespace Builder

variable {b b' : Builder} {p : Particle} {purpose : Purpose} {c : Compilation}

/-- What a builder returns was drawn up. -/
theorem run_eq_ok {α : Type} {draft : Draft α} {a : α} (h : b.run draft = (.ok a, b')) :
    ∃ s, draft b.start = .ok (a, s) := by
  unfold run at h
  split at h
  · rename_i s hd
    cases h
    exact ⟨s, hd⟩
  · cases h

/-- What the model of a successful build is. -/
theorem build_eq_ok (hp : p.isAllGroup = false) (h : b.build p purpose = (.ok c, b')) :
    p.isWellFormed = true ∧ c.model = .ofTree (p.isTreeApproximate purpose) (p.tree purpose) := by
  obtain ⟨s, hd⟩ := run_eq_ok h
  rw [Compilation.ofParticle_of_not_all hp] at hd
  obtain ⟨t, s', ht, hc⟩ := Draft.map_eq_ok.1 hd
  cases hc
  obtain ⟨hw, nodeCount, rfl⟩ := SyntaxTree.draft_eq_ok ht
  exact ⟨hw, Compilation.model_ofDraft _ _ _⟩

/-- Limits decide whether a model is returned, and not which one. -/
theorem model_of_build (h : b.build p purpose = (.ok c, b')) : c.model = p.model purpose := by
  cases hp : p.isAllGroup with
  | false => rw [(build_eq_ok hp h).2, Particle.model_of_not_all hp]
  | true =>
    obtain ⟨members, m, rfl⟩ := Particle.exists_of_isAllGroup hp
    obtain ⟨s, hd⟩ := run_eq_ok h
    simp only [Compilation.ofParticle, Compilation.allGroup, Draft.bind_eq_ok] at hd
    obtain ⟨t, s', ht, hd⟩ := hd
    obtain rfl := Draft.allGroup_eq_ok ht
    unfold Particle.model
    cases hn : m.isNever with
    | true =>
      simp only [hn, if_true, Draft.pure_eq_ok] at hd ⊢
      cases hd
      rfl
    | false =>
      simp only [hn, Bool.false_eq_true, if_false, Draft.pure_eq_ok] at hd ⊢
      cases hd
      rfl

end Builder

/-! ## What a model is made from -/

/-- The model is that of a tree for the particle: one with a counter at each repeated leaf, or one
in which repetition is spelled out; the empty model if the particle has no terms. -/
inductive Represents (p : Particle) : Model → Prop
  | empty (terms_eq : p.terms = []) (attributions_eq : p.attributions = 1) : Represents p .empty
  | counting {t : Tree} {isApproximate : Bool} (ready : t.IsCounting p.terms)
    (attributions_eq : p.attributions = t.attributions) :
    Represents p (.automaton (t.automaton isApproximate))
  | plain {t : Tree} {isApproximate : Bool} (ready : t.IsReady p.terms) (plain : t.IsPlain)
    (attributions_eq : p.attributions = t.attributions) :
    Represents p (.automaton (t.automaton isApproximate))

section Trees

variable {p : Particle} {t : Tree}

/-- A tree that is compiled by counting is ready for it. -/
theorem isCounting_compactTree (hc : p.isCountable = true) (hw : p.isWellFormed = true)
    (ht : p.compactTree 0 = some t) : t.numbered.IsCounting p.terms := by
  have hletters := Particle.letters_compactTree 0 hc
  rw [ht, leaves?] at hletters
  have hparticles : t.leaves.map (·.1.particle) = List.range' 0 p.terms.length := by
    simpa [Function.comp_def] using congrArg (List.map (·.2)) hletters
  have hcompact := (Particle.isCompact_compactTree hc hw ht).1.number 0
  refine ⟨isReady_numbered hcompact.isRegular.isAllFree ⟨?_, fun x hx => ?_⟩, hcompact, ?_⟩
  · rw [hparticles]
    exact Introduces.range' 0 _
  · have hmem := List.mem_map_of_mem (f := fun x => (x.1.term, x.1.particle)) hx
    rw [hletters, List.mem_zipIdx_iff_getElem?] at hmem
    exact ⟨x.1.particle, (Nat.zero_add _).symm, hmem⟩
  · have hpositions := positions_number t 0
    have hnumbered : (t.number 0).1.leaves.map (·.1.particle) = t.leaves.map (·.1.particle) := by
      simpa [Function.comp_def, letterOf] using congrArg (List.map (·.2.1)) (letters_number t 0)
    have hlength : t.leaves.length = p.terms.length := by
      simpa using congrArg List.length hparticles
    rw [hparticles, ← hlength, ← hpositions] at hnumbered
    exact List.map_inj_left.1 hnumbered

theorem represents_compactTree (hc : p.isCountable = true) (hw : p.isWellFormed = true)
    (isApproximate : Bool) : Represents p (.ofTree isApproximate (p.compactTree 0)) := by
  have hlang : languageOf? (Particle.leafLetter fun i _ => {[i]}) (p.compactTree 0) =
      p.attributions := Particle.language_compactTree hc hw
  cases ht : p.compactTree 0 with
  | none =>
    rw [ht] at hlang
    exact .empty (Particle.terms_of_vanishes ((Particle.compactTree_eq_none_iff 0 hc).1 ht))
      hlang.symm
  | some t =>
    rw [ht] at hlang
    exact .counting (isCounting_compactTree hc hw ht)
      (hlang.symm.trans (attributions_numbered t).symm)

theorem represents_expandedTree (hw : p.isWellFormed = true) (isApproximate : Bool) :
    Represents p (.ofTree isApproximate (p.expandedTree .validation 0)) := by
  have hlang : languageOf? (Particle.leafLetter fun i _ => {[i]}) (p.expandedTree .validation 0) =
      p.attributions := Particle.language_expandedTree hw
  have hlettered := Particle.lettered_expandedTree .validation p 0
  cases ht : p.expandedTree .validation 0 with
  | none =>
    rw [ht] at hlang
    exact .empty (Particle.terms_of_vanishes ((Particle.expandedTree_eq_none_iff _ p 0).1 ht))
      hlang.symm
  | some t =>
    rw [ht] at hlang hlettered
    have hplain : t.numbered.IsPlain := (Particle.isPlain_expandedTree ht).number 0
    exact .plain (isReady_numbered hplain.isAllFree hlettered) hplain
      (hlang.symm.trans (attributions_numbered t).symm)

/-- Every compiled model represents its particle. -/
theorem represents_of_build {b b' : Builder} {c : Compilation} (hp : p.isAllGroup = false)
    (h : b.build p .validation = (.ok c, b')) : Represents p c.model := by
  obtain ⟨hw, hm⟩ := Builder.build_eq_ok hp h
  rw [hm, Particle.tree]
  split
  · rename_i hc
    exact represents_compactTree hc hw _
  · exact represents_expandedTree hw _

end Trees

/-- The language of a particle that a model represents is not empty. -/
theorem Represents.nil_mem {p : Particle} {m : Model} (h : Represents p m) :
    [] ∈ beginnings p.attributions := by
  cases h with
  | empty _ hattr =>
    rw [hattr]
    exact mem_beginnings_of_mem rfl
  | counting ready hattr =>
    rw [hattr]
    exact nil_mem_beginnings ready.isCompact.isRegular
  | plain ready plain hattr =>
    rw [hattr]
    exact nil_mem_beginnings plain.isRegular

/-! ## Its runs track the particle -/

/-- A run of the empty model has not taken any children. -/
def EmptyState (u : List Nat) (r : Run) : Prop := u = [] ∧ r = .empty false

theorem tracks_empty : Tracks [] 1 EmptyState where
  hasFailed := by
    intro u r h
    obtain ⟨rfl, rfl⟩ := h
    rfl
  isComplete := by
    intro u r h
    obtain ⟨rfl, rfl⟩ := h
    simp [Run.isComplete]
  expected := by
    intro u r h
    obtain ⟨rfl, rfl⟩ := h
    rfl
  step := by
    intro u r hr _ name
    obtain ⟨rfl, rfl⟩ := hr
    refine .inr ⟨fun e _ hfits => ?_, _, rfl, rfl, rfl⟩
    obtain ⟨t, ht, -⟩ := hfits
    cases ht

theorem tracks_automaton {a : Automaton} {terms : List Term} {L : Language Nat}
    {S : List Nat → Automaton.State → Prop} (h : a.Simulates terms L S)
    (hs : S [] Automaton.start) :
    ∃ R, Tracks terms L R ∧ R [] (Model.automaton a).start :=
  ⟨_, h.tracks, _, rfl, hs⟩

/-- A model that represents a particle tracks it. -/
theorem Represents.exists_tracks {p : Particle} {m : Model} (h : Represents p m) :
    ∃ R, Tracks p.terms p.attributions R ∧ R [] m.start := by
  cases h with
  | empty hterms hattr =>
    rw [hterms, hattr]
    exact ⟨_, tracks_empty, rfl, rfl⟩
  | counting ready hattr =>
    rw [hattr]
    exact tracks_automaton (Automaton.simulates_counting ready)
      ⟨.start, reaches_nil_iff.2 rfl, Automaton.countingState_start ready⟩
  | plain ready plain hattr =>
    rw [hattr]
    exact tracks_automaton (Automaton.simulates_plain ready plain)
      (Automaton.plainState_start ready)

/-- As far as a compiled model takes children, they are attributed to particles that accept them, in
the order of the beginning of a word; in that of a word if all are valid. -/
theorem attributes_of_build {b b' : Builder} {p : Particle} {c : Compilation}
    (hp : p.isAllGroup = false) (h : b.build p .validation = (.ok c, b')) {names : List Name}
    (hlen : names.length < UInt32.size) :
    (∀ n cs r, c.model.start.takeAll (names.take n) = some (cs, r) →
      Attributes p.terms cs (names.take n) ∧ cs.map (·.particle) ∈ beginnings p.attributions) ∧
      (c.model.validate names = .valid → ∃ cs r, c.model.start.takeAll names = some (cs, r) ∧
        Attributes p.terms cs names ∧ cs.map (·.particle) ∈ p.attributions) := by
  have hmodel := represents_of_build hp h
  obtain ⟨R, htracks, hstart⟩ := hmodel.exists_tracks
  constructor
  · intro n cs r htake
    have hlen' := Nat.lt_of_le_of_lt (List.length_take_le' n names) hlen
    obtain ⟨ha, hmem, -⟩ := htracks.takeAll hstart hmodel.nil_mem (by simpa using hlen') htake
    exact ⟨ha, hmem⟩
  · intro hvalid
    obtain ⟨cs, r, htake, hcomplete⟩ := Run.takeAll_of_valid hvalid
    obtain ⟨ha, -, hr⟩ := htracks.takeAll hstart hmodel.nil_mem (by simpa using hlen) htake
    exact ⟨cs, r, htake, ha, (htracks.isComplete hr).1 hcomplete⟩

/-- Where `a` may be followed by another `a`, the first takes what it can get. -/
theorem attributes_of_build_greedy :
    let p : Particle := .group .sequence
      [.element (.bare "a") ⟨1, some 2⟩, .element (.bare "a") ⟨0, none⟩] .once
    [0, 0, 1] ∈ p.attributions := by
  intro p
  let c : Compilation := .ofTree (.ofDraft (p.compactTree 0) false 4)
  have h : (Builder.new .default).build p .validation = (.ok c, _) := rfl
  let names : List Name := [.bare "a", .bare "a", .bare "a"]
  have hlen : names.length < UInt32.size := by decide
  have hvalid : c.model.validate names = .valid := by decide +kernel
  obtain ⟨cs, r, htake, -, hmem⟩ := (attributes_of_build (p := p) rfl h hlen).2 hvalid
  have hparticles : (c.model.start.takeAll names).map (fun taken => taken.1.map (·.particle)) =
      some [0, 0, 1] := by decide +kernel
  rw [htake] at hparticles
  exact Option.some.inj hparticles ▸ hmem

/-! ## Both trees at once -/

/-- The model that counts and the one in which repetition is spelled out cannot be told apart by
what they say about any children. -/
theorem observations_compact_expanded {limits : Limits} {p : Particle} {ledger ledger' : Ledger}
    {said said' : List Event} {t : Option Tree} {r : Option (Tree × Bool)} {s s' : Draft.State}
    (hc : p.isCountable = true) (ht : Draft.compact limits p 1 ⟨ledger, 0, said⟩ = .ok (t, s))
    (hr : Draft.expanded limits .validation p 1 ⟨ledger', 0, said'⟩ = .ok (r, s'))
    {names : List Name} (hlen : names.length < UInt32.size) (isApproximate : Bool)
    (nodeCount nodeCount' : Nat) :
    let m := (Compilation.ofTree (.ofDraft t false nodeCount)).model
    let m' := (Compilation.ofTree (.ofDraft (r.map (·.1)) isApproximate nodeCount')).model
    m.start.isComplete = m'.start.isComplete ∧ m.start.expected = m'.start.expected ∧
      m.start.observations names = m'.start.observations names ∧
      m.validate names = m'.validate names := by
  intro m m'
  obtain ⟨hw, rfl, -⟩ := Draft.compact_eq_ok hc ht
  obtain ⟨-, hroot, -⟩ := Draft.expanded_eq_ok hr
  have hmodel : m = Model.ofTree false (p.compactTree 0) := Compilation.model_ofDraft _ _ _
  have hmodel' : m' = Model.ofTree isApproximate (p.expandedTree .validation 0) := by
    rw [← hroot]
    exact Compilation.model_ofDraft _ _ _
  obtain ⟨R, htracks, hstart⟩ := hmodel ▸ (represents_compactTree hc hw false).exists_tracks
  obtain ⟨R', htracks', hstart'⟩ :=
    hmodel' ▸ (represents_expandedTree hw isApproximate).exists_tracks
  have hcomplete : m.start.isComplete = m'.start.isComplete :=
    Bool.eq_iff_iff.2 ((htracks.isComplete hstart).trans (htracks'.isComplete hstart').symm)
  have hobservations : m.start.observations names = m'.start.observations names :=
    htracks.observations_eq htracks' hstart hstart' (by simpa using hlen)
  exact ⟨hcomplete, (htracks.expected hstart).trans (htracks'.expected hstart').symm,
    hobservations, Run.verdict_congr hcomplete hobservations⟩

/-- Two or three times `a` and an optional `b`, counted and spelled out. -/
theorem observations_compact_expanded_between :
    let p : Particle := .group .sequence
      [.element (.bare "a") ⟨2, some 3⟩, .element (.bare "b") ⟨0, some 1⟩] .once
    ∃ t r s s', Draft.compact .unlimited p 1 ⟨.ofLimits .unlimited, 0, []⟩ = .ok (t, s) ∧
      Draft.expanded .unlimited .validation p 1 ⟨.ofLimits .unlimited, 0, []⟩ = .ok (r, s') ∧
      (Compilation.ofTree (.ofDraft (r.map (·.1)) false 0)).model.validate
        [.bare "a", .bare "a", .bare "b"] = .valid := by
  intro p
  let names : List Name := [.bare "a", .bare "a", .bare "b"]
  have hlen : names.length < UInt32.size := by decide
  have ht : Draft.compact .unlimited p 1 ⟨.ofLimits .unlimited, 0, []⟩ = .ok _ := rfl
  have hr : Draft.expanded .unlimited .validation p 1 ⟨.ofLimits .unlimited, 0, []⟩ = .ok _ := rfl
  have hsame := (observations_compact_expanded rfl ht hr hlen false 0 0).2.2.2
  exact ⟨_, _, _, _, ht, hr, hsame.symm.trans (by decide +kernel)⟩

end ContentAutomata
