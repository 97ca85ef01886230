import ContentAutomata.Proofs.Run.Compiled

/-!
# What a run expects

At every point a run names the terms that the next child may be matched against. An automaton works
this list out apart from its steps: the list asks whether the count is full before a child is
counted, a step counts the child and then asks whether the range is exceeded; the list goes through
all entries, a step stops at the first that accepts the name. Still the two agree. Where a run
tracks a language, both come down to the particles that go on with a word of it.

A run that refuses a child comes to a halt. It is not complete then, takes nothing more, and goes on
to say what was expected in place of the child, although the count may have been raised before it
was clear that no other entry would take the child.

Results:
* `Run.current_of_hasFailed`: a child that is refused leaves the point reached as it is;
* `Tracks.foretells`, `AllGroup.foretells`: what is expected is what is taken;
* `foretells_of_build`: the same for the runs of compiled models.
-/
namespace ContentAutomata

open ContentAutomata.Tree

namespace Run

/-- The run `r` has refused a child and come to a halt as `r'`. -/
structure Halts (r r' : Run) : Prop where
  hasFailed : r'.hasFailed = true
  current_eq : r'.current = r.current
  expected_eq : r'.expected = r.expected
  isComplete_eq : r'.isComplete = false
  step_eq : ∀ name, r'.step name = (none, r')

/-- The terms that the run expects tell whether it takes a child of the given name, and what the
child may be attributed to. -/
structure Foretells (r : Run) (name : Name) : Prop where
  isSome_iff : (r.step name).1.isSome = true ↔ ∃ t ∈ r.expected, t.accepts name = true
  mem : ∀ c, (r.step name).1 = some c → c.term ∈ r.expected ∧ c.term.accepts name = true
  halts : (r.step name).1 = none → r.Halts (r.step name).2

end Run

/-! ## Refusals -/

theorem Automaton.failed_enter (a : Automaton) (s : State) (entry next : Nat) :
    (a.enter s entry next).failed = s.failed := by
  unfold enter
  split <;> rfl

/-- A step that makes the run fail does not leave the state of the automaton. -/
theorem Automaton.current_of_failed {a : Automaton} {s : State} {name : Name}
    (h : (a.step s name).2.failed = true) : (a.step s name).2.current = s.current := by
  revert h
  fun_cases step a s name
  case case1 | case2 | case5 | case7 => exact fun _ => rfl
  case case6 => exact fun h => absurd (show s.failed = true from h) ‹_›
  all_goals
    -- where an entry is taken, the run fails only if it had failed before
    intro h
    rw [failed_enter] at h
    exact absurd (show s.failed = true from h) ‹_›

namespace Run

variable {r r' : Run} {name : Name}

/-- A child that is refused leaves the point reached as it is. -/
theorem current_of_hasFailed (h : (r.step name).2.hasFailed = true) :
    (r.step name).2.current = r.current := by
  cases r with
  | empty failed => rfl
  | automaton a s => exact Automaton.current_of_failed h
  | all g s =>
    revert h
    change (g.step s name).2.failed = true → (g.step s name).2.taken = s.taken
    fun_cases AllGroup.step g s name
    case case1 | case3 => exact fun _ => rfl
    case case2 hf _ _ _ => exact fun h => absurd h hf

theorem Halts.of_step (hstep : r.step name = (none, r')) (hf : r'.hasFailed = true)
    (he : r'.expected = r.expected) : r.Halts r' where
  hasFailed := hf
  current_eq := by
    have hr : r' = (r.step name).2 := by rw [hstep]
    subst hr
    exact current_of_hasFailed hf
  expected_eq := he
  isComplete_eq := isComplete_of_hasFailed hf
  step_eq := step_of_hasFailed hf

theorem Foretells.of_taken {c : Claimant} (hstep : r.step name = (some c, r'))
    (hmem : c.term ∈ r.expected) (ha : c.term.accepts name = true) : r.Foretells name where
  isSome_iff := by
    rw [hstep]
    exact iff_of_true rfl ⟨c.term, hmem, ha⟩
  mem c' hc' := by
    rw [hstep] at hc'
    cases hc'
    exact ⟨hmem, ha⟩
  halts hnone := by
    rw [hstep] at hnone
    cases hnone

theorem Foretells.of_refused (hstep : r.step name = (none, r')) (hf : r'.hasFailed = true)
    (he : r'.expected = r.expected) (hno : ¬ ∃ t ∈ r.expected, t.accepts name = true) :
    r.Foretells name where
  isSome_iff := by
    rw [hstep]
    exact iff_of_false (by simp) hno
  mem c hc := by
    rw [hstep] at hc
    cases hc
  halts _ := by
    rw [hstep]
    exact .of_step hstep hf he

end Run

/-! ## Runs that track a language -/

theorem mem_nextTerms {terms : List Term} {L : Language Nat} {u : List Nat} {t : Term} :
    t ∈ nextTerms terms L u ↔ ∃ e, u ++ [e] ∈ beginnings L ∧ terms[e]? = some t := by
  unfold nextTerms
  rw [List.mem_filterMap]
  refine exists_congr fun e => ⟨?_, ?_⟩
  · rintro ⟨-, h⟩
    split at h
    · rename_i hmem
      exact ⟨hmem, h⟩
    · cases h
  · rintro ⟨hmem, hterm⟩
    rw [if_pos hmem]
    exact ⟨List.mem_range.2 (List.getElem?_eq_some_iff.1 hterm).1, hterm⟩

namespace Tracks

variable {terms : List Term} {L : Language Nat} {R : List Nat → Run → Prop}

/-- A run that tracks a language takes what it expects. -/
theorem foretells (h : Tracks terms L R) {u : List Nat} {r : Run} (hr : R u r)
    (hlen : u.length + 1 < UInt32.size) (name : Name) : r.Foretells name := by
  have hexpected := h.expected hr
  rcases h.step hr hlen name with ⟨c, r', hfirst, hstep, -⟩ | ⟨hno, r', hstep, hfailed, hsame⟩
  · refine .of_taken hstep ?_ hfirst.accepts
    rw [hexpected]
    exact mem_nextTerms.2 ⟨c.particle, hfirst.mem, hfirst.term_eq⟩
  · refine .of_refused hstep hfailed hsame ?_
    rintro ⟨t, ht, ha⟩
    rw [hexpected] at ht
    obtain ⟨e, hmem, hterm⟩ := mem_nextTerms.1 ht
    exact hno e hmem ⟨t, hterm, ha⟩

end Tracks

/-! ## `all` groups -/

namespace AllGroup

theorem mem_expected {g : AllGroup} {s : State} {t : Term} :
    t ∈ g.expected s ↔
      ∃ x ∈ g.members.zip s.counts, x.1.occurs.isFull x.2 = false ∧ x.1.term = t := by
  unfold expected
  rw [List.mem_filterMap]
  refine exists_congr fun x => and_congr_right fun _ => ?_
  cases hfull : x.1.occurs.isFull x.2 <;> simp [hfull]

/-- A child is counted for a member that has room left, or all members that accept it are full. -/
theorem count_cases (name : Name) (ms : List Member) (cs : List UInt32) :
    (∃ x ∈ ms.zip cs, ∃ cs', count name ms cs = some (x.1, cs') ∧
        x.1.occurs.isFull x.2 = false ∧ x.1.term.accepts name = true) ∨
      (count name ms cs = none ∧
        ∀ x ∈ ms.zip cs, x.1.occurs.isFull x.2 = false → x.1.term.accepts name = false) := by
  induction ms generalizing cs with
  | nil => exact .inr ⟨by simp [count], by simp⟩
  | cons m ms ih =>
    cases cs with
    | nil => exact .inr ⟨rfl, by simp⟩
    | cons c cs =>
      rw [List.zip_cons_cons]
      cases hroom : m.term.accepts name && !m.occurs.isFull c with
      | true =>
        obtain ⟨ha, hfull⟩ : m.term.accepts name = true ∧ m.occurs.isFull c = false := by
          simpa using hroom
        have hcount : count name (m :: ms) (c :: cs) = some (m, (c + 1) :: cs) := by
          simp [count, ha, hfull]
        exact .inl ⟨(m, c), List.mem_cons_self, (c + 1) :: cs, hcount, hfull, ha⟩
      | false =>
        have hcount : count name (m :: ms) (c :: cs) =
            (count name ms cs).map fun r => (r.1, c :: r.2) := by
          rw [count, hroom]
          rfl
        rcases ih cs with ⟨x, hx, cs', hc, hfull, ha⟩ | ⟨hc, hno⟩
        · exact .inl ⟨x, List.mem_cons_of_mem _ hx, c :: cs', by simp [hcount, hc], hfull, ha⟩
        · refine .inr ⟨by simp [hcount, hc], fun x hx hfull => ?_⟩
          rcases List.mem_cons.1 hx with rfl | hx
          · simpa [hfull] using hroom
          · exact hno x hx hfull

/-- A run over an `all` group takes what it expects. -/
theorem foretells {g : AllGroup} {s : State} (hf : s.failed = false) (name : Name) :
    (Run.all g s).Foretells name := by
  rcases count_cases name g.members s.counts with ⟨x, hx, cs, hcount, hfull, ha⟩ | ⟨hcount, hno⟩
  · have hstep : (Run.all g s).step name =
        (some x.1.claimant, .all g { s with counts := cs, taken := s.taken + 1 }) := by
      simp [Run.step, step, hf, hcount]
    have hmem : x.1.term ∈ g.expected s := mem_expected.2 ⟨x, hx, hfull, rfl⟩
    exact .of_taken hstep hmem ha
  · have hstep : (Run.all g s).step name = (none, .all g { s with failed := true }) := by
      simp [Run.step, step, hf, hcount]
    refine .of_refused hstep rfl rfl ?_
    rintro ⟨t, ht, ha⟩
    obtain ⟨x, hx, hfull, rfl⟩ := mem_expected.1 ht
    rw [hno x hx hfull] at ha
    cases ha

/-- Taking children leads from points where none was refused to such points. -/
theorem failed_of_takeAll {g : AllGroup} {names : List Name} : ∀ {s : State}
    {cs : List Claimant} {r : Run}, s.failed = false → (Run.all g s).takeAll names = some (cs, r) →
      ∃ s', r = .all g s' ∧ s'.failed = false := by
  induction names with
  | nil =>
    intro s cs r hf h
    cases h
    exact ⟨s, rfl, hf⟩
  | cons name names ih =>
    intro s cs r hf h
    obtain ⟨c, r₁, cs', hstep, htake, -⟩ := Run.takeAll_cons.1 h
    rcases count_cases name g.members s.counts with ⟨x, -, counts, hcount, -⟩ | ⟨hcount, -⟩ <;>
      simp only [Run.step, step, hf, hcount, Bool.false_eq_true, if_false] at hstep <;>
      cases hstep
    exact ih rfl htake

end AllGroup

/-! ## Compiled models -/

/-- A compiled model tracks a language, whatever it is wanted for, or is that of an `all` group. -/
theorem tracks_or_all_of_build {b b' : Builder} {p : Particle} {purpose : Purpose}
    {c : Compilation} (h : b.build p purpose = (.ok c, b')) :
    (∃ terms L R, Tracks terms L R ∧ R [] c.model.start ∧ [] ∈ beginnings L) ∨
      ∃ g, c.model = .all g := by
  have hempty : ∃ terms L R, Tracks terms L R ∧ R [] Model.empty.start ∧ [] ∈ beginnings L :=
    ⟨_, _, _, tracks_empty, ⟨rfl, rfl⟩, mem_beginnings_of_mem rfl⟩
  cases hp : p.isAllGroup with
  | true =>
    rw [Builder.model_of_build h]
    obtain ⟨members, m, rfl⟩ := Particle.exists_of_isAllGroup hp
    cases hn : m.isNever with
    | true =>
      simp only [Particle.model, hn, if_true]
      exact .inl hempty
    | false =>
      simp only [Particle.model, hn, Bool.false_eq_true, if_false]
      exact .inr ⟨_, rfl⟩
  | false =>
    obtain ⟨hw, hm⟩ := Builder.build_eq_ok hp h
    rw [hm, Particle.tree]
    refine .inl ?_
    cases hc : p.isCountable with
    | true =>
      have hmodel := represents_compactTree hc hw (p.isTreeApproximate purpose)
      obtain ⟨R, htracks, hstart⟩ := hmodel.exists_tracks
      exact ⟨_, _, R, htracks, hstart, hmodel.nil_mem⟩
    | false =>
      have hlettered := Particle.lettered_expandedTree purpose p 0
      cases ht : p.expandedTree purpose 0 with
      | none => exact hempty
      | some t =>
        rw [ht] at hlettered
        have hplain : t.numbered.IsPlain := (Particle.isPlain_expandedTree ht).number 0
        have ready : t.numbered.IsReady p.terms := isReady_numbered hplain.isAllFree hlettered
        have hsimulates : (t.numbered.automaton (p.isTreeApproximate purpose)).Simulates p.terms
            t.numbered.attributions _ := Automaton.simulates_plain ready hplain
        obtain ⟨R, htracks, hstart⟩ :=
          tracks_automaton hsimulates (Automaton.plainState_start ready)
        exact ⟨_, _, R, htracks, hstart, nil_mem_beginnings hplain.isRegular⟩

/-- The run of a compiled model takes a child exactly if it expects a term that accepts it, and
attributes it to such a term. If it refuses the child, it halts. -/
theorem foretells_of_build {b b' : Builder} {p : Particle} {purpose : Purpose} {c : Compilation}
    (h : b.build p purpose = (.ok c, b')) {names : List Name} {cs : List Claimant} {r : Run}
    (hlen : names.length < UInt32.size - 1) (htake : c.model.start.takeAll names = some (cs, r))
    (name : Name) : r.Foretells name := by
  have hsize : UInt32.size = 4294967296 := rfl
  rcases tracks_or_all_of_build h with ⟨terms, L, R, htracks, hstart, hnil⟩ | ⟨g, hg⟩
  · obtain ⟨hattributes, -, hr⟩ := htracks.takeAll hstart hnil (by simp; omega) htake
    have hcount : cs.length = names.length := hattributes.length_eq
    exact htracks.foretells hr (by simp [hcount]; omega) name
  · rw [hg] at htake
    obtain ⟨s, rfl, hf⟩ := AllGroup.failed_of_takeAll (s := g.start) rfl htake
    exact AllGroup.foretells hf name

/-- Once `a{2,3}` has taken three children, a fourth `a` is refused, and `b` is still expected. -/
theorem foretells_of_build_full :
    let p : Particle := .group .sequence
      [.element (.bare "a") ⟨2, some 3⟩, .element (.bare "b") ⟨0, some 1⟩] .once
    ∃ c b' cs r, (Builder.new .default).build p .validation = (.ok c, b') ∧
      c.model.start.takeAll [.bare "a", .bare "a", .bare "a"] = some (cs, r) ∧
      r.Halts (r.step (.bare "a")).2 ∧
      (r.step (.bare "a")).2.expected = [.element (.bare "b")] := by
  intro p
  let c : Compilation := .ofTree (.ofDraft (p.compactTree 0) false 4)
  have hbuild : ∃ b', (Builder.new .default).build p .validation = (.ok c, b') := ⟨_, rfl⟩
  obtain ⟨b', h⟩ := hbuild
  let names : List Name := [.bare "a", .bare "a", .bare "a"]
  have hlen : names.length < UInt32.size - 1 := by decide
  have htaken : (c.model.start.takeAll names).map (·.2.expected) = some [.element (.bare "b")] := by
    decide +kernel
  obtain ⟨⟨cs, r⟩, htake, hexpected⟩ := Option.map_eq_some_iff.1 htaken
  have hexpected : r.expected = [.element (.bare "b")] := hexpected
  have hforetells := foretells_of_build h hlen htake (.bare "a")
  have hnone : (r.step (.bare "a")).1 = none := by
    rw [← Option.not_isSome_iff_eq_none, hforetells.isSome_iff, hexpected]
    decide
  have hhalts := hforetells.halts hnone
  exact ⟨c, b', cs, r, h, htake, hhalts, hhalts.expected_eq.trans hexpected⟩

end ContentAutomata
