import ContentAutomata.Model
import ContentAutomata.Proofs.Automaton.Steps
import ContentAutomata.Proofs.Language.Particle

/-!
# Runs that track a language

A run attributes children to particles. It *tracks* a language over the numbers of particles if at
every point it allows just those particles that go on with a word of the language, takes the first
one that accepts the child, and calls the children complete just when the numbers so far are a word.
What such a run says is determined by the terms and the language alone.

Results:
* `Simulates.tracks`: an automaton whose states stand for points in words of the language tracks it;
* `Tracks.takeAll`: what such a run has taken is the beginning of a word, and fits the children;
* `Tracks.observations_eq`: two runs that track one language say the same of any children.
-/
namespace ContentAutomata

/-- The first particle that may come next and accepts the name. -/
structure IsFirst (terms : List Term) (L : Language Nat) (u : List Nat) (name : Name)
    (c : Claimant) : Prop where
  term_eq : terms[c.particle]? = some c.term
  accepts : c.term.accepts name = true
  mem : u ++ [c.particle] ∈ beginnings L
  first : ∀ e < c.particle, u ++ [e] ∈ beginnings L → ¬ Fits terms e name

/-- The terms of the particles that may come next, in document order. -/
noncomputable def nextTerms (terms : List Term) (L : Language Nat) (u : List Nat) : List Term :=
  open Classical in
  (List.range terms.length).filterMap fun e => if u ++ [e] ∈ beginnings L then terms[e]? else none

/-- A relation between what children were attributed to and runs, under which the runs say what the
language determines. The bound is that of the counter. -/
structure Tracks (terms : List Term) (L : Language Nat) (R : List Nat → Run → Prop) : Prop where
  hasFailed : ∀ {u r}, R u r → r.hasFailed = false
  isComplete : ∀ {u r}, R u r → (r.isComplete = true ↔ u ∈ L)
  expected : ∀ {u r}, R u r → r.expected = nextTerms terms L u
  step : ∀ {u r}, R u r → u.length + 1 < UInt32.size → ∀ name,
    (∃ c r', IsFirst terms L u name c ∧ r.step name = (some c, r') ∧ R (u ++ [c.particle]) r') ∨
      ((∀ e, u ++ [e] ∈ beginnings L → ¬ Fits terms e name) ∧
        ∃ r', r.step name = (none, r') ∧ r'.hasFailed = true ∧ r'.expected = r.expected)

namespace Automaton

/-- A relation between what children were attributed to and states of an automaton, under which the
automaton follows the language. -/
structure Simulates (a : Automaton) (terms : List Term) (L : Language Nat)
    (S : List Nat → State → Prop) : Prop where
  size_eq : a.entries.size = terms.length
  entry_eq : ∀ {e : Nat} {entry : Entry}, a.entries[e]? = some entry →
    terms[e]? = some entry.term ∧ entry.particle = e
  failed : ∀ {u s}, S u s → s.failed = false
  orderly : ∀ {u s}, S u s → a.Orderly s
  count_le : ∀ {u s}, S u s → ∀ c, a.counter s.current = some c → s.count.toNat ≤ u.length
  isOpen : ∀ {u s}, S u s → ∀ e, a.Open s e ↔ u ++ [e] ∈ beginnings L
  isComplete : ∀ {u s}, S u s → (a.isComplete s = true ↔ u ∈ L)
  entered : ∀ {u s e next s'}, S u s → u.length + 1 < UInt32.size → a.Open s e →
    a.target s.current e = some next → Entered a s e next s' → S (u ++ [e]) s'

namespace Simulates

variable {a : Automaton} {terms : List Term} {L : Language Nat} {S : List Nat → State → Prop}

/-- The entries are the terms, under their numbers. -/
theorem claimant?_eq (h : a.Simulates terms L S) (e : Nat) :
    a.entries[e]?.map Entry.claimant = terms[e]?.map fun t => ⟨t, e⟩ := by
  cases he : a.entries[e]? with
  | none =>
    rw [Array.getElem?_eq_none_iff, h.size_eq] at he
    rw [List.getElem?_eq_none he]
    rfl
  | some entry =>
    obtain ⟨hterm, hparticle⟩ := h.entry_eq he
    rw [hterm, ← hparticle]
    rfl

theorem term?_eq (h : a.Simulates terms L S) (e : Nat) : a.term? e = terms[e]? := by
  have he := congrArg (Option.map (·.term)) (h.claimant?_eq e)
  simpa [term?, Entry.claimant, Function.comp_def] using he

theorem accepts_iff (h : a.Simulates terms L S) {e : Nat} {name : Name} :
    a.Accepts e name ↔ Fits terms e name := by
  unfold Accepts
  rw [h.term?_eq, Fits]

theorem expected_eq (h : a.Simulates terms L S) {u : List Nat} {s : State} (hs : S u s) :
    a.expected s = nextTerms terms L u := by
  unfold expected
  rw [nextTerms, h.size_eq]
  apply List.filterMap_congr
  intro e _
  rw [h.term?_eq]
  by_cases hopen : a.Open s e
  · rw [if_pos ((h.isOpen hs e).1 hopen)]
    obtain ⟨next, ht, hallow⟩ := hopen
    simp [ht, hallow]
  · rw [if_neg fun hu => hopen ((h.isOpen hs e).2 hu)]
    cases ht : a.target s.current e with
    | none => rfl
    | some next =>
      have hallow : a.countAllows s next ≠ true := fun hallow => hopen ⟨next, ht, hallow⟩
      simp [hallow]

/-- An automaton whose states stand for points in words of a language tracks the language. -/
theorem tracks (h : a.Simulates terms L S) :
    Tracks terms L fun u r => ∃ s, r = .automaton a s ∧ S u s where
  hasFailed := by
    intro u _ hx
    obtain ⟨s, rfl, hs⟩ := hx
    exact h.failed hs
  isComplete := by
    intro u _ hx
    obtain ⟨s, rfl, hs⟩ := hx
    exact h.isComplete hs
  expected := by
    intro u _ hx
    obtain ⟨s, rfl, hs⟩ := hx
    exact h.expected_eq hs
  step := by
    intro u _ hx hlen name
    obtain ⟨s, rfl, hs⟩ := hx
    have hsmall : ∀ c, a.counter s.current = some c → s.count.toNat + 1 < UInt32.size :=
      fun c hc => Nat.lt_of_le_of_lt (Nat.succ_le_succ (h.count_le hs c hc)) hlen
    rcases stepSpec (h.orderly hs) (h.failed hs) hsmall name with
      ⟨e, next, s', hchoice, ht, hstep, hentered⟩ | ⟨hno, s', hstep, hfailed, hexpected⟩
    · obtain ⟨t, hterm, haccepts⟩ := h.accepts_iff.1 hchoice.accepts
      refine .inl ⟨⟨t, e⟩, .automaton a s', ⟨hterm, haccepts, (h.isOpen hs e).1 hchoice.isOpen, ?_⟩,
        ?_, s', rfl, h.entered hs hlen hchoice.isOpen ht hentered⟩
      · exact fun e' hlt hmem hfits =>
          hchoice.first e' hlt ((h.isOpen hs e').2 hmem) (h.accepts_iff.2 hfits)
      · simp [Run.step, hstep, h.claimant?_eq, hterm]
    · refine .inr ⟨fun e hmem hfits => ?_, .automaton a s', ?_, hfailed, hexpected⟩
      · exact hno e ((h.isOpen hs e).2 hmem) (h.accepts_iff.2 hfits)
      · rw [Run.step, hstep]
        rfl

end Simulates

end Automaton

/-! ## Whole runs -/

/-- Takes all children of a list, as long as none is refused: what they are attributed to, and the
run afterwards. -/
def Run.takeAll : Run → List Name → Option (List Claimant × Run)
  | r, [] => some ([], r)
  | r, name :: names =>
    match r.step name with
    | (none, _) => none
    | (some c, r) => (r.takeAll names).map fun (cs, r) => (c :: cs, r)

/-- What is seen after each child: what it is attributed to, whether the children so far are
complete, and what may come next. -/
def Run.observations : Run → List Name → List (Option Claimant × Bool × List Term)
  | _, [] => []
  | r, name :: names =>
    let (c, r) := r.step name
    (c, r.isComplete, r.expected) :: r.observations names

/-- Each claimant is a particle of the given terms and accepts the name in its place. -/
def Attributes (terms : List Term) (cs : List Claimant) (names : List Name) : Prop :=
  List.Forall₂ (fun c name => terms[c.particle]? = some c.term ∧ c.term.accepts name = true)
    cs names

theorem Run.takeAll_cons {r r' : Run} {name : Name} {names : List Name} {cs : List Claimant} :
    r.takeAll (name :: names) = some (cs, r') ↔
      ∃ c r₁ cs', r.step name = (some c, r₁) ∧ r₁.takeAll names = some (cs', r') ∧
        cs = c :: cs' := by
  rw [takeAll]
  cases h : r.step name with
  | mk c r₁ =>
    cases c with
    | none => simp
    | some c =>
      simp only [Option.map_eq_some_iff, Prod.exists, Prod.mk.injEq, Option.some.injEq]
      constructor
      · intro hx
        obtain ⟨cs', r₂, h', rfl, rfl⟩ := hx
        exact ⟨c, r₁, cs', ⟨rfl, rfl⟩, h', rfl⟩
      · intro hx
        obtain ⟨_, _, cs', ⟨rfl, rfl⟩, h', rfl⟩ := hx
        exact ⟨cs', r', h', rfl, rfl⟩

theorem Run.observations_of_hasFailed {r r' : Run} (h : r.hasFailed = true)
    (h' : r'.hasFailed = true) (he : r.expected = r'.expected) (names : List Name) :
    r.observations names = r'.observations names := by
  induction names with
  | nil => rfl
  | cons name names ih =>
    simp only [observations, step_of_hasFailed h, step_of_hasFailed h', isComplete_of_hasFailed h,
      isComplete_of_hasFailed h', he, ih]

/-- The verdict follows from what is seen. -/
theorem Run.verdict_congr {names : List Name} : ∀ {r r' : Run} {index : Nat},
    r.isComplete = r'.isComplete → r.observations names = r'.observations names →
      r.verdict index names = r'.verdict index names := by
  induction names with
  | nil =>
    intro r r' index hc _
    unfold verdict
    rw [hc]
  | cons name names ih =>
    intro r r' index _ ho
    simp only [observations, List.cons.injEq, Prod.mk.injEq] at ho
    obtain ⟨⟨hclaim, hcomplete, -⟩, hrest⟩ := ho
    unfold verdict
    cases h : r.step name with
    | mk c r₁ =>
      cases h' : r'.step name with
      | mk c' r₁' =>
        simp only [h, h'] at hclaim hcomplete hrest
        subst hclaim
        cases c with
        | none => rfl
        | some c => exact ih hcomplete hrest

/-- If all children are taken, the verdict depends on whether they are complete. -/
theorem Run.verdict_of_takeAll {names : List Name} : ∀ {r r' : Run} {cs : List Claimant}
    {index : Nat}, r.takeAll names = some (cs, r') →
      r.verdict index names =
        if r'.isComplete then .valid else .incomplete (index + names.length) := by
  induction names with
  | nil =>
    intro r r' cs index hx
    cases hx
    rfl
  | cons name names ih =>
    intro r r' cs index h
    obtain ⟨c, r₁, cs', hstep, h', rfl⟩ := takeAll_cons.1 h
    unfold verdict
    rw [hstep]
    simp only [ih h', List.length_cons]
    congr 2
    omega

/-- If not all children are taken, the verdict names the first that is refused. -/
theorem Run.verdict_of_refused {names : List Name} : ∀ {r : Run} (index : Nat),
    r.takeAll names = none → ∃ k < names.length, r.verdict index names = .invalid (index + k) ∧
      (r.takeAll (names.take k)).isSome = true ∧ r.takeAll (names.take (k + 1)) = none := by
  induction names with
  | nil => exact fun _ h => by cases h
  | cons name names ih =>
    intro r index h
    unfold takeAll at h
    cases hstep : r.step name with
    | mk c r₁ =>
      cases c with
      | none => exact ⟨0, by simp, by simp [verdict, hstep], rfl, by simp [takeAll, hstep]⟩
      | some c =>
        simp only [hstep, Option.map_eq_none_iff] at h
        obtain ⟨k, hk, hv, hsome, hnone⟩ := ih (index + 1) h
        refine ⟨k + 1, by simpa using hk, ?_, ?_, ?_⟩
        · simp only [verdict, hstep, hv]
          congr 1
          omega
        · simpa [takeAll, hstep] using hsome
        · simpa [takeAll, hstep] using hnone

/-- If the verdict is that the children are valid, all of them are taken. -/
theorem Run.takeAll_of_valid {names : List Name} {r : Run} {index : Nat}
    (h : r.verdict index names = .valid) :
    ∃ cs r', r.takeAll names = some (cs, r') ∧ r'.isComplete = true := by
  cases htake : r.takeAll names with
  | none =>
    obtain ⟨k, -, hverdict, -⟩ := verdict_of_refused index htake
    cases h.symm.trans hverdict
  | some taken =>
    obtain ⟨cs, r'⟩ := taken
    rw [verdict_of_takeAll htake] at h
    refine ⟨cs, r', rfl, ?_⟩
    by_contra hc
    rw [if_neg hc] at h
    cases h

/-- Children are valid if all of them are taken and are complete. -/
theorem Run.verdict_eq_valid_iff {names : List Name} {r : Run} {index : Nat} :
    r.verdict index names = .valid ↔
      ∃ cs r', r.takeAll names = some (cs, r') ∧ r'.isComplete = true := by
  refine ⟨takeAll_of_valid, ?_⟩
  rintro ⟨cs, r', htake, hcomplete⟩
  rw [verdict_of_takeAll htake, if_pos hcomplete]

namespace IsFirst

variable {terms : List Term} {L : Language Nat} {u : List Nat} {name : Name} {c c' : Claimant}

theorem fits (h : IsFirst terms L u name c) : Fits terms c.particle name :=
  ⟨_, h.term_eq, h.accepts⟩

theorem not_lt (h : IsFirst terms L u name c) (h' : IsFirst terms L u name c') :
    ¬ c.particle < c'.particle :=
  fun hlt => h'.first _ hlt h.mem h.fits

/-- There is only one first particle. -/
theorem unique (h : IsFirst terms L u name c) (h' : IsFirst terms L u name c') : c = c' := by
  have he : c.particle = c'.particle :=
    Nat.le_antisymm (Nat.not_lt.1 (h'.not_lt h)) (Nat.not_lt.1 (h.not_lt h'))
  cases c with
  | mk t e =>
    cases c' with
    | mk t' e' =>
      obtain rfl : e = e' := he
      obtain rfl : t = t' := Option.some.inj (h.term_eq.symm.trans h'.term_eq)
      rfl

end IsFirst

namespace Tracks

variable {terms : List Term} {L : Language Nat} {R R' : List Nat → Run → Prop}

/-- What a run takes is attributed to the beginning of a word. -/
theorem takeAll (h : Tracks terms L R) {names : List Name} :
    ∀ {u : List Nat} {r r' : Run} {cs : List Claimant}, R u r → u ∈ beginnings L →
      u.length + names.length < UInt32.size → r.takeAll names = some (cs, r') →
      Attributes terms cs names ∧ u ++ cs.map (·.particle) ∈ beginnings L ∧
        R (u ++ cs.map (·.particle)) r' := by
  induction names with
  | nil =>
    intro u r r' cs hr hu _ hx
    cases hx
    exact ⟨.nil, by simpa using hu, by simpa using hr⟩
  | cons name names ih =>
    intro u r r' cs hr hu hlen ht
    rw [List.length_cons] at hlen
    obtain ⟨c, r₁, cs', hstep, ht', rfl⟩ := Run.takeAll_cons.1 ht
    rcases h.step hr (by omega) name with ⟨c', r₁', hfirst, hstep', hr'⟩ | ⟨-, _, hstep', -⟩
    · cases hstep.symm.trans hstep'
      obtain ⟨ha, hmem, hr''⟩ := ih hr' hfirst.mem (by simp; omega) ht'
      rw [List.append_assoc] at hmem hr''
      exact ⟨.cons ⟨hfirst.term_eq, hfirst.accepts⟩ ha, hmem, hr''⟩
    · cases hstep.symm.trans hstep'

/-- Runs that track the same language cannot be told apart. -/
theorem observations_eq (h : Tracks terms L R) (h' : Tracks terms L R') {names : List Name} :
    ∀ {u : List Nat} {r r' : Run}, R u r → R' u r' → u.length + names.length < UInt32.size →
      r.observations names = r'.observations names := by
  induction names with
  | nil => exact fun _ _ _ => rfl
  | cons name names ih =>
    intro u r r' hr hr' hlen
    rw [List.length_cons] at hlen
    rcases h.step hr (by omega) name with ⟨c, r₁, hc, hs, hr₁⟩ | ⟨hno, r₁, hs, hf, he⟩ <;>
      rcases h'.step hr' (by omega) name with ⟨c', r₁', hc', hs', hr₁'⟩ | ⟨hno', r₁', hs', hf', he'⟩
    · obtain rfl := hc.unique hc'
      have hcomplete : r₁.isComplete = r₁'.isComplete :=
        Bool.eq_iff_iff.2 ((h.isComplete hr₁).trans (h'.isComplete hr₁').symm)
      have hexpected : r₁.expected = r₁'.expected :=
        (h.expected hr₁).trans (h'.expected hr₁').symm
      simp only [Run.observations, hs, hs', hcomplete, hexpected, ih hr₁ hr₁' (by simp; omega)]
    · exact absurd hc.fits (hno' _ hc.mem)
    · exact absurd hc'.fits (hno _ hc'.mem)
    · have hexpected : r₁.expected = r₁'.expected := by
        rw [he, he', h.expected hr, h'.expected hr']
      simp only [Run.observations, hs, hs', Run.isComplete_of_hasFailed hf,
        Run.isComplete_of_hasFailed hf', hexpected,
        Run.observations_of_hasFailed hf hf' hexpected names]

end Tracks

end ContentAutomata
