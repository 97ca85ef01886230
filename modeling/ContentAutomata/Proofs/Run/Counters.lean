import ContentAutomata.Proofs.Attribution.Conflicts
import ContentAutomata.Proofs.Run.Compiled
import Mathlib.Data.List.DropRight

/-!
# What a counter holds

A state that counts does so for one entry: the one with a range that leads back to it. The automaton
looks at this entry before any other, no other leads back, and if the range has a lower bound, then
there is no way into the state but by the counted entry. All of this is about the tables of the
automaton of a compact tree; it says that sets of positions coincide only where they have to.

So the counter of a run can be told from what the children were attributed to: it is the number of
those at the end, without interruption, that were attributed to the counted entry. It does not go
beyond the range, and it is within it when the state is left.

Results:
* `countsOneEntry_counting`: what the tables of a compact tree say about counting;
* `countsChildren_counting`: what the counter says at any point of a run;
* `Builder.counters_of_build`: both for compiled particles.
-/
namespace ContentAutomata

open ContentAutomata.Tree

namespace Automaton

variable {t : Tree} {terms : List Term} {isApproximate : Bool} {i j e : Nat}

/-! ## The tables -/

/-- In each state at most one entry is counted, which comes first and alone leads back; a state in
which a lower bound is counted is entered by the counted entry only. -/
structure CountsOneEntry (a : Automaton) : Prop where
  counter_iff : ∀ i c, a.counter i = some c ↔
    a.target i c.entry = some i ∧ a.occurs? c.entry = some c.occurs
  first : ∀ i c, a.counter i = some c → ∀ e next, a.target i e = some next → e ≠ c.entry →
    c.entry < e ∧ next ≠ i
  entered : ∀ i c, a.counter i = some c → c.occurs.min ≠ 0 →
    i ≠ 0 ∧ ∀ j e, a.target j e = some i → e = c.entry

theorem lt_stateCount_of_target {a : Automaton} (h : a.target i e = some j) : i < a.stateCount := by
  unfold target at h
  cases hrow : a.rows[i]? with
  | none => simp [hrow] at h
  | some row => exact (Array.getElem?_eq_some_iff.1 hrow).1

section Counting

variable (ready : t.IsCounting terms)

include ready

/-- Every state that leads on offers what comes after some leaf, or at the start. -/
theorem exists_offers_of_target (ht : (t.automaton isApproximate).target i e = some j) :
    ∃ x, Offers t isApproximate i (t.Next x) := by
  obtain ⟨x, hx⟩ := exists_discovered ready (lt_stateCount_of_target ht)
  exact ⟨x, hx.offers ready⟩

omit ready in
/-- A state of the table, as that of a run that has not counted anything. -/
theorem countingState_zero {x : Option Leaf} (h : Offers t isApproximate i (t.Next x)) :
    CountingState t isApproximate ⟨x, 0⟩ ⟨i, 0, false⟩ :=
  ⟨rfl, h, fun _ _ _ _ _ => by simp⟩

/-- A state that offers what is counted there with a lower bound was reached by the counted leaf. -/
theorem eq_of_offers_of_min {x : Option Leaf} {c : Counter}
    (h : Offers t isApproximate i (t.Next x))
    (hc : (t.automaton isApproximate).counter i = some c) (hmin : c.occurs.min ≠ 0) :
    ∃ l, x = some l ∧ l.particle = c.entry := by
  obtain ⟨l, hpart, hrange, hl, hnext⟩ := leaf_of_counter ready h hc
  have hmem : (l, some c.occurs) ∈ t.leaves :=
    hrange ▸ ready.mem_leaves_of_has (has_of_next_right hl)
  by_cases hx : x = some l
  · exact ⟨l, hx, hpart⟩
  · exact absurd hnext (ready.isCompact.next_ne ready.ascends hmem hmin hx hl)

theorem countsOneEntry_counting : (t.automaton isApproximate).CountsOneEntry where
  counter_iff i c := by
    constructor
    · exact of_counter_eq_some
    · intro h
      obtain ⟨ht, ho⟩ := h
      obtain ⟨x, hx⟩ := exists_offers_of_target ready ht
      obtain ⟨c', hc'⟩ := Option.isSome_iff_exists.1 (counter_isSome ht ho)
      obtain ⟨k, hk, hpart⟩ :=
        (target_isSome_iff ready.toIsReady hx (e := c.entry)).1 (by rw [ht]; rfl)
      have hentry : c.entry = c'.entry :=
        hpart ▸ (target_eq_iff ready hx hc' hk (hpart.symm ▸ ht)).1 rfl
      have hoccurs : c.occurs = c'.occurs :=
        Option.some.inj (ho.symm.trans (hentry ▸ (of_counter_eq_some hc').2))
      rw [hc']
      cases c
      cases c'
      simp_all
  first i c hc e next ht hne := by
    obtain ⟨x, hx⟩ := exists_offers_of_target ready ht
    exact (orderly_counting ready (countingState_zero hx)).others c hc e next ht hne
  entered i c hc hmin := by
    constructor
    · rintro rfl
      obtain ⟨l, hl, -⟩ :=
        eq_of_offers_of_min ready (offers_start ready.toIsNumbered) hc hmin
      cases hl
    · intro j e ht
      obtain ⟨x, hx⟩ := exists_offers_of_target ready ht
      obtain ⟨k, hk, rfl⟩ := (target_isSome_iff ready.toIsReady hx).1 (by rw [ht]; rfl)
      obtain ⟨l, hl, hpart⟩ :=
        eq_of_offers_of_min ready (offers_target_leaf ready hx hk ht) hc hmin
      exact Option.some.inj hl ▸ hpart

end Counting

/-! ## Runs -/

/-- A run that has taken children, from the start on: the entries that they were attributed to, and
where it stands. -/
inductive Takes (a : Automaton) : List Nat → State → Prop
  | start : Takes a [] start
  | step {u : List Nat} {s s' : State} {name : Name} {e : Nat} (before : Takes a u s)
    (taken : a.step s name = (some e, s')) : Takes a (u ++ [e]) s'

/-- The counter says how many children in a row were attributed to the counted entry last. It is not
above the range, and not below it when the state is left. -/
structure CountsChildren (a : Automaton) (u : List Nat) (s : State) : Prop where
  count_eq : ∀ c, a.counter s.current = some c →
    s.count.toNat = (u.rtakeWhile (· = c.entry)).length
  le_max : ∀ c, a.counter s.current = some c → ∀ max, c.occurs.max = some max → s.count ≤ max
  min_le : ∀ c, a.counter s.current = some c → ∀ name e s', a.step s name = (some e, s') →
    s'.current ≠ s.current → u.length + 1 < UInt32.size → c.occurs.min ≤ s.count

section Runs

variable (ready : t.IsCounting terms) {u : List Nat} {s s' : State} {x : Point} {name : Name}

include ready

/-- The count of a point is the number of its last leaf at the end. -/
theorem length_rtakeWhile_of_reaches {range : Leaf → Option Multiplicity}
    (h : t.Reaches range u x) {l : Leaf} (hl : t.Has l) :
    (u.rtakeWhile (· = l.particle)).length = if x.last = some l then x.count else 0 := by
  induction u using List.reverseRecOn generalizing x with
  | nil =>
    rw [reaches_nil_iff.1 h]
    rfl
  | append_singleton u e ih =>
    obtain ⟨y, k, hy, hk, rfl, rfl⟩ := reaches_append_iff.1 h
    have hkl : k.particle = l.particle ↔ k = l :=
      ⟨ready.eq_of_particle (has_of_next_right hk.1) hl, congrArg _⟩
    simp only [List.rtakeWhile_concat, hkl, decide_eq_true_eq, Point.last_read, Option.some.injEq]
    split
    · rename_i hx
      subst hx
      rw [List.length_append, ih hy, List.length_singleton, Point.read]
      split <;> rfl
    · rfl

/-- A child is taken by an entry that may be taken. -/
theorem exists_entered_of_step (h : CountingState t isApproximate x s)
    (hreach : t.Reaches t.rangeOf u x) (hlen : u.length + 1 < UInt32.size)
    (htaken : (t.automaton isApproximate).step s name = (some e, s')) :
    ∃ next, (t.automaton isApproximate).target s.current e = some next ∧
      (t.automaton isApproximate).countAllows s next = true ∧
      Entered (t.automaton isApproximate) s e next s' := by
  have hsmall : ∀ c, (t.automaton isApproximate).counter s.current = some c →
      s.count.toNat + 1 < UInt32.size := fun c hc => Nat.lt_of_le_of_lt
    (Nat.succ_le_succ ((simulates_counting ready).count_le ⟨x, hreach, h⟩ c hc)) hlen
  rcases stepSpec (orderly_counting ready h) h.failed_eq hsmall name with
    ⟨e', next, s'', hchoice, ht, hstep, hentered⟩ | ⟨-, s'', hstep, -⟩
  · cases hstep.symm.trans htaken
    obtain ⟨next', ht', hallow⟩ := hchoice.isOpen
    obtain rfl := Option.some.inj (ht.symm.trans ht')
    exact ⟨_, ht, hallow, hentered⟩
  · cases hstep.symm.trans htaken

/-- A run stands where the leaves of its children lead to. -/
theorem exists_countingState_of_takes (h : (t.automaton isApproximate).Takes u s)
    (hlen : u.length < UInt32.size) :
    ∃ x, t.Reaches t.rangeOf u x ∧ CountingState t isApproximate x s := by
  induction h with
  | start => exact ⟨.start, reaches_nil_iff.2 rfl, countingState_start ready⟩
  | @step u s s' name e _ htaken ih =>
    rw [List.length_append, List.length_singleton] at hlen
    obtain ⟨x, hx, hs⟩ := ih (Nat.lt_of_succ_lt hlen)
    obtain ⟨next, ht, hallow, hentered⟩ := exists_entered_of_step ready hs hx hlen htaken
    exact (simulates_counting ready).entered ⟨x, hx, hs⟩ hlen ⟨next, ht, hallow⟩ ht hentered

/-- What the counter says at any point of a run. -/
theorem countsChildren_counting (h : (t.automaton isApproximate).Takes u s)
    (hlen : u.length < UInt32.size) : (t.automaton isApproximate).CountsChildren u s := by
  obtain ⟨x, hx, hs⟩ := exists_countingState_of_takes ready h hlen
  refine ⟨fun c hc => ?_, fun c hc max hmax => ?_, fun c hc name e s' htaken hleft hlen' => ?_⟩
  · obtain ⟨l, hpart, -, hl, -⟩ := leaf_of_counter ready hs.offers hc
    rw [hs.count_eq c hc l (has_of_next_right hl) hpart, ← hpart,
      length_rtakeWhile_of_reaches ready hx (has_of_next_right hl)]
  · obtain ⟨l, hpart, hrange, hl, -⟩ := leaf_of_counter ready hs.offers hc
    rw [UInt32.le_iff_toNat_le, hs.count_eq c hc l (has_of_next_right hl) hpart]
    split
    · rename_i hlast
      obtain ⟨w, -, hw⟩ := hx
      exact (hw.within ready.isCompact.isRegular ready.indexes l hlast).2 _ hrange max hmax
    · exact Nat.zero_le _
  · obtain ⟨next, -, hallow, hentered⟩ := exists_entered_of_step ready hs hx hlen' htaken
    rw [hentered.current_eq] at hleft
    simp only [countAllows, hc, hleft, if_false, Bool.not_eq_true'] at hallow
    exact UInt32.le_iff_toNat_le.2 (Multiplicity.isMissing_eq_false_iff.1 hallow)

end Runs

end Automaton

namespace Builder

open Automaton

/-- A compiled particle in which counters help was compiled by way of a tree that counts. -/
theorem exists_isCounting_of_build {b b' : Builder} {p : Particle} {purpose : Purpose}
    {c : Compilation} {a : Automaton} (hc : p.isCountable = true)
    (h : b.build p purpose = (.ok c, b')) (ha : c.model = .automaton a) :
    ∃ t : Tree, t.IsCounting p.terms ∧ a = t.automaton false := by
  have hmodel : p.model purpose = .automaton a := model_of_build h ▸ ha
  cases hp : p.isAllGroup with
  | true =>
    obtain ⟨members, m, rfl⟩ := Particle.exists_of_isAllGroup hp
    cases hn : m.isNever <;> simp [Particle.model, hn] at hmodel
  | false =>
    rw [Particle.model_of_countable hp hc] at hmodel
    cases ht : p.compactTree 0 with
    | none =>
      rw [ht] at hmodel
      cases hmodel
    | some t =>
      rw [ht] at hmodel
      cases hmodel
      exact ⟨t.numbered, isCounting_compactTree hc (build_eq_ok hp h).1 ht, rfl⟩

/-- In the automaton of a particle in which counters help, each state counts at most one entry, and
the counter of a run means what it says. -/
theorem counters_of_build {b b' : Builder} {p : Particle} {purpose : Purpose} {c : Compilation}
    {a : Automaton} (hc : p.isCountable = true) (h : b.build p purpose = (.ok c, b'))
    (ha : c.model = .automaton a) :
    a.CountsOneEntry ∧
      ∀ u s, a.Takes u s → u.length < UInt32.size → a.CountsChildren u s := by
  obtain ⟨t, ready, rfl⟩ := exists_isCounting_of_build hc h ha
  exact ⟨countsOneEntry_counting ready, fun u s htakes => countsChildren_counting ready htakes⟩

/-- Two or three times `a` and an optional `b`: after two times `a`, the counter stands at two. -/
theorem counters_of_build_between :
    let p : Particle := .group .sequence
      [.element (.bare "a") ⟨2, some 3⟩, .element (.bare "b") ⟨0, some 1⟩] .once
    ∃ c a s b', (Builder.new .default).build p .validation = (.ok c, b') ∧
      c.model = .automaton a ∧ a.Takes [0, 0] s ∧
      a.counter s.current = some ⟨⟨2, some 3⟩, 0⟩ ∧ s.count.toNat = 2 := by
  intro p
  let c : Compilation := .ofTree (.ofDraft (p.compactTree 0) false 4)
  let a : Automaton := (p.compactTree 0).get!.numbered.automaton false
  let s : Automaton.State := ⟨1, 2, false⟩
  have h : (Builder.new .default).build p .validation = (.ok c, _) := rfl
  have ha : c.model = .automaton a := rfl
  have hone : a.step Automaton.start (.bare "a") = (some 0, ⟨1, 1, false⟩) := by decide +kernel
  have htwo : a.step ⟨1, 1, false⟩ (.bare "a") = (some 0, s) := by decide +kernel
  have htakes : a.Takes [0, 0] s := .step (.step .start hone) htwo
  have hcounter : a.counter s.current = some ⟨⟨2, some 3⟩, 0⟩ := by decide +kernel
  have hcounts := (counters_of_build rfl h ha).2 [0, 0] s htakes (by decide)
  exact ⟨c, a, s, _, h, ha, htakes, hcounter, hcounts.count_eq _ hcounter⟩

end Builder

end ContentAutomata
