import ContentAutomata.Proofs.Attribution.Pairs
import ContentAutomata.Proofs.Language.Tame
import ContentAutomata.Proofs.Run.Compiled

/-!
# Automata find the conflicts of their language

Two particles are in conflict if after some word either of them may come next. The automaton of a
plain tree has a state for what may come after each word, so two entries lead on in a common state
just when they are in conflict.

In the automaton of a compact tree, an exact count tells the counted leaf and another one apart in
the state that is counted in. If that is the first state in which both lead on, then it is the only
one: it was found by reading the counted leaf, and every way to this leaf goes through a gate at
which both could have come.

Results:
* `conflict_iff_plain`, `conflict_iff_counting`: a pair is judged to be ambiguous exactly when the
  two particles are in conflict;
* `Represents.findsConflicts`: so the list of a compiled model is the list of conflicts.
-/
namespace ContentAutomata

open ContentAutomata.Tree

namespace Automaton

variable {t : Tree} {terms : List Term} {isApproximate : Bool} {i j k : Nat}

/-! ## Plain trees -/

section Plain

variable (ready : t.IsReady terms) (plain : t.IsPlain)

include ready

/-- Every state stands for what may come after some word. -/
theorem exists_offers_plainNext (hi : i < (t.automaton isApproximate).stateCount) :
    ∃ u, Offers t isApproximate i (PlainNext t u) := by
  induction i using Nat.strongRecOn with
  | ind i ih =>
    rcases Nat.eq_zero_or_pos i with rfl | hpos
    · exact ⟨[], (plainState_start ready).offers⟩
    · obtain ⟨i', e, hlt, ht⟩ := exists_source hpos hi
      obtain ⟨u, hu⟩ := ih i' hlt (Nat.lt_trans hlt hi)
      exact ⟨u ++ [e], (offers_target ready hu ht).congr fun y => plainNext_append.symm⟩

include plain

/-- For what may come after a word, there is a state. -/
theorem exists_state_plainNext {u : List Nat} (hu : u ∈ beginnings t.attributions) :
    ∃ i, Offers t isApproximate i (PlainNext t u) := by
  induction u using List.reverseRecOn with
  | nil => exact ⟨0, (plainState_start ready).offers⟩
  | append_singleton u e ih =>
    obtain ⟨i, hi⟩ := ih (mem_beginnings_of_append hu)
    obtain ⟨i', ht⟩ := Option.isSome_iff_exists.1 ((leads_iff_plain ready plain hi e).2 hu)
    exact ⟨i', (offers_target ready hi ht).congr fun y => plainNext_append.symm⟩

theorem conflict_iff_plain :
    (∃ i, (t.automaton isApproximate).IsFirstCommon j k i ∧
        (t.automaton isApproximate).isToldApart i j k = false) ↔
      Conflict t.attributions j k := by
  constructor
  · intro h
    obtain ⟨i, hi, -⟩ := h
    obtain ⟨u, hu⟩ := exists_offers_plainNext ready hi.lt
    exact ⟨u, (leads_iff_plain ready plain hu j).1 hi.left,
      (leads_iff_plain ready plain hu k).1 hi.right⟩
  · intro h
    obtain ⟨u, hj, hk⟩ := h
    obtain ⟨i, hi⟩ := exists_state_plainNext ready plain (mem_beginnings_of_append hj)
    obtain ⟨i₀, h₀⟩ := exists_isFirstCommon hi.lt_stateCount
      ((leads_iff_plain ready plain hi j).2 hj) ((leads_iff_plain ready plain hi k).2 hk)
    exact ⟨i₀, h₀, by simp [isToldApart, counter_eq_none ready plain]⟩

end Plain

/-! ## Compact trees -/

section Counting

variable (ready : t.IsCounting terms)

/-- The state was found by reading the leaf, or is the first one. -/
inductive Discovered (t : Tree) (isApproximate : Bool) : Nat → Option Leaf → Prop
  | start : Discovered t isApproximate 0 none
  | read {i j : Nat} {x : Option Leaf} {l : Leaf} (source : Discovered t isApproximate i x)
    (next : t.Next x (some l))
    (target : (t.automaton isApproximate).target i l.particle = some j) (lt : i < j) :
    Discovered t isApproximate j (some l)

include ready

theorem Discovered.offers {x : Option Leaf} (h : Discovered t isApproximate i x) :
    Offers t isApproximate i (t.Next x) := by
  induction h with
  | start => exact offers_start ready.toIsNumbered
  | read _ hn ht _ ih => exact offers_target_leaf ready ih hn ht

omit ready in
theorem Discovered.has {x : Option Leaf} (h : Discovered t isApproximate i x) {l : Leaf}
    (hl : x = some l) : t.Has l := by
  cases h with
  | start => cases hl
  | read _ hn _ _ =>
    cases hl
    exact has_of_next_right hn

theorem exists_discovered (hi : i < (t.automaton isApproximate).stateCount) :
    ∃ x, Discovered t isApproximate i x := by
  induction i using Nat.strongRecOn with
  | ind i ih =>
    rcases Nat.eq_zero_or_pos i with rfl | hpos
    · exact ⟨none, .start⟩
    · obtain ⟨i', e, hlt, ht⟩ := exists_source hpos hi
      obtain ⟨x, hx⟩ := ih i' hlt (Nat.lt_trans hlt hi)
      obtain ⟨l, hl, rfl⟩ :=
        (target_isSome_iff ready.toIsReady (hx.offers ready)).1 (by rw [ht]; rfl)
      exact ⟨some l, .read hx hl ht hlt⟩

/-- An entry leads on just where its leaf may come next. -/
theorem leads_iff_counting {x : Option Leaf} (h : Offers t isApproximate i (t.Next x)) {l : Leaf}
    (hl : t.Has l) :
    (t.automaton isApproximate).Leads i l.particle ↔ t.Next x (some l) := by
  unfold Leads
  rw [target_isSome_iff ready.toIsReady h]
  constructor
  · intro hx
    obtain ⟨l', hl', he⟩ := hx
    rwa [← ready.eq_of_particle (has_of_next_right hl') hl he]
  · exact fun hn => ⟨l, hn, rfl⟩

/-- Before a state that was found by going through a gate, there is one in which both leaves may
come next. -/
theorem Discovered.exists_common {l k : Leaf} (hk : t.Has k) {gate : Leaf → Prop}
    (hg : t.IsGate l (some k) gate) {x : Option Leaf} (h : Discovered t isApproximate i x) :
    ∀ {q : Leaf}, x = some q → gate q → ∃ i' < i,
      (t.automaton isApproximate).Leads i' l.particle ∧
        (t.automaton isApproximate).Leads i' k.particle := by
  induction h with
  | start => exact fun hq => by cases hq
  | @read i j x l' hsource hn ht hlt ih =>
    intro q hy hq
    cases hy
    by_cases hx : ∃ p, x = some p ∧ gate p
    · obtain ⟨p, hp, hgp⟩ := hx
      obtain ⟨i', hi', hboth⟩ := ih hp hgp
      exact ⟨i', Nat.lt_trans hi' hlt, hboth⟩
    · have hboth := hg.both x (fun p hp hgp => hx ⟨p, hp, hgp⟩) _ hq hn
      have hoffers := hsource.offers ready
      exact ⟨i, hlt, (leads_iff_counting ready hoffers (hg.within l hg.target)).2 hboth.1,
        (leads_iff_counting ready hoffers hk).2 hboth.2⟩

/-- If a leaf that is counted from a lower bound on and another leaf may both come next in the state
of the former, and in no earlier state, then they may only both come next after the former. -/
theorem eq_of_isFirstCommon {l k : Leaf} {m : Multiplicity} (hl : t.Has l) (hk : t.Has k)
    (hm : t.rangeOf l = some m) (hmin : m.min ≠ 0)
    (hfirst : (t.automaton isApproximate).IsFirstCommon l.particle k.particle i)
    (hi : Offers t isApproximate i (t.Next (some l))) {y : Option Leaf} (hyl : t.Next y (some l))
    (hyk : t.Next y (some k)) : y = some l := by
  by_contra hne
  have hmem : (l, some m) ∈ t.leaves := hm ▸ ready.mem_leaves_of_has hl
  obtain ⟨x, hx⟩ := exists_discovered ready hfirst.lt
  have hsame := (hx.offers ready).iff ready.toIsNumbered hi
  have hxl : x = some l := by
    by_contra hxl
    exact ready.isCompact.next_ne ready.ascends hmem hmin hxl
      ((hsame _).2 (ready.isCompact.next_self hmem)) hsame
  obtain ⟨gate, hg⟩ := ready.isCompact.exists_gate ready.ascends hne hyl hyk
    ((leads_iff_counting ready hi hk).1 hfirst.right)
  obtain ⟨i', hlt, hboth⟩ := hx.exists_common ready hk hg hxl hg.target
  exact hfirst.first i' hlt hboth

/-- A leaf with an exact count does not share a point with a leaf that it first meets in its own
state: it would have been read less often than itself. -/
theorem not_allows_both {l q : Leaf} {m : Multiplicity} (hl : t.Has l) (hq : t.Has q) (hne : q ≠ l)
    (hm : t.rangeOf l = some m) (hmin : m.min ≠ 0) (hexact : m.max = some m.min)
    (hfirst : (t.automaton isApproximate).IsFirstCommon l.particle q.particle i)
    (hi : Offers t isApproximate i (t.Next (some l))) {x : Point}
    (hxl : Allows t.Next t.rangeOf x (some l)) : ¬ Allows t.Next t.rangeOf x (some q) := by
  intro hxq
  have hlast := eq_of_isFirstCommon ready hl hq hm hmin hfirst hi hxl.1 hxq.1
  have hlt := hxl.2 m (by rw [hlast]; exact hm)
  have hge := hxq.2 m (by rw [hlast]; exact hm)
  rw [if_pos hlast.symm] at hlt
  rw [if_neg (by rw [hlast]; simpa using hne)] at hge
  exact Nat.not_lt.2 hge (hlt _ hexact)

/-- What it takes for the count to tell two leaves apart. -/
theorem isToldApart_iff {x : Option Leaf} (h : Offers t isApproximate i (t.Next x)) {j k : Leaf}
    (hj : t.Next x (some j)) (hk : t.Next x (some k)) :
    (t.automaton isApproximate).isToldApart i j.particle k.particle = true ↔
      ∃ c, (t.automaton isApproximate).counter i = some c ∧
        c.occurs.max = some c.occurs.min ∧ ¬ (j.particle = c.entry ↔ k.particle = c.entry) := by
  unfold isToldApart
  cases hc : (t.automaton isApproximate).counter i with
  | none => simp
  | some c =>
    have hback : ∀ l, t.Next x (some l) →
        (((t.automaton isApproximate).target i l.particle == some i) = true ↔
          l.particle = c.entry) := by
      intro l hl
      obtain ⟨i', ht⟩ := Option.isSome_iff_exists.1
        ((leads_iff_counting ready h (has_of_next_right hl)).2 hl)
      rw [ht, beq_iff_eq, Option.some.injEq]
      exact target_eq_iff ready h hc hl ht
    simp only [Bool.and_eq_true, beq_iff_eq, bne_iff_ne, ne_eq, Option.some.injEq, exists_eq_left']
    rw [Bool.eq_iff_iff, hback j hj, hback k hk]

/-- What can be read has a state. -/
theorem exists_state_of_reaches {range : Leaf → Option Multiplicity} {u : List Nat} {x : Point}
    (h : t.Reaches range u x) : ∃ i, Offers t isApproximate i (t.Next x.last) := by
  induction u using List.reverseRecOn generalizing x with
  | nil =>
    rw [reaches_nil_iff.1 h]
    exact ⟨0, offers_start ready.toIsNumbered⟩
  | append_singleton u e ih =>
    obtain ⟨y, k, hy, ha, rfl, rfl⟩ := reaches_append_iff.1 h
    obtain ⟨i, hi⟩ := ih hy
    obtain ⟨i', ht⟩ := Option.isSome_iff_exists.1
      ((leads_iff_counting ready hi (has_of_next_right ha.1)).2 ha.1)
    exact ⟨i', offers_target_leaf ready hi ha.1 ht⟩

/-- Particles in conflict are not told apart where they first may both come next. -/
theorem isToldApart_eq_false_of_allows {x : Point} {j k : Leaf}
    (hj : Allows t.Next t.rangeOf x (some j)) (hk : Allows t.Next t.rangeOf x (some k))
    (hfirst : (t.automaton isApproximate).IsFirstCommon j.particle k.particle i) :
    (t.automaton isApproximate).isToldApart i j.particle k.particle = false := by
  rw [← Bool.not_eq_true]
  intro hapart
  have hj' : t.Has j := has_of_next_right hj.1
  have hk' : t.Has k := has_of_next_right hk.1
  obtain ⟨x₀, hx₀⟩ := exists_discovered ready hfirst.lt
  have hoffers := hx₀.offers ready
  obtain ⟨c, hc, hexact, hone⟩ := (isToldApart_iff ready hoffers
    ((leads_iff_counting ready hoffers hj').1 hfirst.left)
    ((leads_iff_counting ready hoffers hk').1 hfirst.right)).1 hapart
  obtain ⟨l, hpart, hrange, hl, hnext⟩ := leaf_of_counter ready hoffers hc
  have hl' : t.Has l := has_of_next_right hl
  have hmem := ready.mem_leaves_of_has hl'
  have hmin : c.occurs.min ≠ 0 := by
    intro h0
    have hn := (ready.isCompact.isRegular.isNever_eq_false _ hmem _ hrange).2
    simp [Multiplicity.isNever, hexact, h0] at hn
  have hi := hoffers.congr hnext
  by_cases hjc : j.particle = c.entry
  · obtain rfl := ready.eq_of_particle hj' hl' (hjc.trans hpart.symm)
    exact not_allows_both ready hl' hk' (fun he => hone (by rw [he])) hrange hmin hexact hfirst hi
      hj hk
  · have hkc : k.particle = c.entry := by
      by_contra hkc
      exact hone (iff_of_false hjc hkc)
    obtain rfl := ready.eq_of_particle hk' hl' (hkc.trans hpart.symm)
    exact not_allows_both ready hl' hj' (fun he => hone (by rw [he])) hrange hmin hexact
      hfirst.symm hi hk hj

/-- Read as often as it has to be, a counted leaf may be followed by another one, and by itself if
its range goes on. -/
theorem permits_least {l q : Leaf} {m : Multiplicity} (hl : t.Has l) (hm : t.rangeOf l = some m)
    (hexact : q = l → m.max ≠ some m.min) :
    Point.Permits t.rangeOf ⟨some l, m.min.toNat ⊔ 1⟩ (some q) := by
  have hmem : (l, some m) ∈ t.leaves := hm ▸ ready.mem_leaves_of_has hl
  obtain ⟨hordered, hnever⟩ := ready.isCompact.isRegular.isNever_eq_false _ hmem _ rfl
  intro m' hm'
  obtain rfl : m = m' := Option.some.inj (hm.symm.trans hm')
  split
  · rename_i he
    intro max hmax
    have hne : m.min.toNat ≠ max.toNat := fun he' =>
      hexact (Option.some.inj he) (by rw [hmax, UInt32.toNat_inj.1 he'])
    have hne_one : max.toNat ≠ 1 := fun he' =>
      ready.isCompact.max_ne_one hmem (by rw [hmax, (UInt32.toNat_inj (b := 1)).1 he'])
    have hle := (Multiplicity.admits_min hordered).2 max hmax
    have hpos := Multiplicity.pos_of_max hnever hmax
    simp only
    omega
  · exact Nat.le_max_left _ _

/-- Where nothing is counted, everything may come next once the leaf was read. -/
theorem exists_reaches_of_no_counter {x : Option Leaf} (h : Discovered t isApproximate i x)
    (hc : (t.automaton isApproximate).counter i = none) :
    ∃ u y, t.Reaches t.rangeOf u y ∧ y.last = x ∧ ∀ z, y.Permits t.rangeOf z := by
  cases x with
  | none => exact ⟨[], .start, reaches_nil_iff.2 rfl, rfl, fun _ => Point.permits_start⟩
  | some p =>
    have hp : t.Has p := h.has rfl
    obtain ⟨w, hw⟩ := exists_reads_of_has ready.isCompact.isRegular ready.indexes hp
    refine ⟨_, _, ⟨w, rfl, hw⟩, rfl, fun z => Point.permits_of_uncounted fun q hq => ?_⟩
    obtain rfl := Option.some.inj hq
    rw [← Option.not_isSome_iff_eq_none, Option.isSome_iff_exists]
    intro hm
    obtain ⟨m, hm⟩ := hm
    have hsome := counter_isSome_of_range ready hp hm (h.offers ready)
    rw [hc] at hsome
    cases hsome

/-- A counted leaf can be read as often as it has to be. -/
theorem exists_reaches_least {l : Leaf} {m : Multiplicity} (hl : t.Has l)
    (hm : t.rangeOf l = some m) :
    ∃ u, t.Reaches t.rangeOf u ⟨some l, m.min.toNat ⊔ 1⟩ := by
  have hregular := ready.isCompact.isRegular
  have hmem : (l, some m) ∈ t.leaves := hm ▸ ready.mem_leaves_of_has hl
  obtain ⟨hordered, hnever⟩ := hregular.isNever_eq_false _ hmem _ rfl
  obtain ⟨w, hw⟩ := exists_reads_count hregular ready.indexes hl hm
    (ready.isCompact.next_self hmem) (Nat.lt_of_lt_of_le Nat.one_pos (Nat.le_max_right _ 1))
    (Multiplicity.admits_max_min_one hordered hnever).2
  exact ⟨_, w, rfl, hw⟩

/-- Particles that are not told apart in a common state are in conflict. -/
theorem exists_allows_of_not_toldApart {x : Option Leaf} (h : Discovered t isApproximate i x)
    {j k : Leaf} (hj : t.Next x (some j)) (hk : t.Next x (some k)) (hjk : j ≠ k)
    (hapart : (t.automaton isApproximate).isToldApart i j.particle k.particle = false) :
    ∃ u y, t.Reaches t.rangeOf u y ∧ Allows t.Next t.rangeOf y (some j) ∧
      Allows t.Next t.rangeOf y (some k) := by
  have hoffers := h.offers ready
  cases hc : (t.automaton isApproximate).counter i with
  | none =>
    obtain ⟨u, y, hy, rfl, hpermits⟩ := exists_reaches_of_no_counter ready h hc
    exact ⟨u, y, hy, ⟨hj, hpermits _⟩, hk, hpermits _⟩
  | some c =>
    obtain ⟨l, hpart, hrange, hl, hnext⟩ := leaf_of_counter ready hoffers hc
    have hl' : t.Has l := has_of_next_right hl
    obtain ⟨u, hu⟩ := exists_reaches_least ready hl' hrange
    -- so often it has been read that its range goes on if it is one of the two
    have hexact : c.occurs.max = some c.occurs.min →
        (j.particle = c.entry ↔ k.particle = c.entry) := by
      intro he
      by_contra hone
      rw [(isToldApart_iff ready hoffers hj hk).2 ⟨c, hc, he, hone⟩] at hapart
      cases hapart
    refine ⟨u, _, hu, ⟨(hnext _).1 hj, permits_least ready hl' hrange fun hjl he => ?_⟩,
      (hnext _).1 hk, permits_least ready hl' hrange fun hkl he => ?_⟩
    · subst hjl
      exact hjk (ready.eq_of_particle hl' (has_of_next_right hk)
        (hpart.trans ((hexact he).1 hpart).symm))
    · subst hkl
      exact hjk (ready.eq_of_particle (has_of_next_right hj) hl'
        (((hexact he).2 hpart).trans hpart.symm))

theorem conflict_iff_counting (hjk : j ≠ k) :
    (∃ i, (t.automaton isApproximate).IsFirstCommon j k i ∧
        (t.automaton isApproximate).isToldApart i j k = false) ↔
      Conflict t.attributions j k := by
  have hregular := ready.isCompact.isRegular
  constructor
  · intro h
    obtain ⟨i, hi, hapart⟩ := h
    obtain ⟨x, hx⟩ := exists_discovered ready hi.lt
    have hoffers := hx.offers ready
    obtain ⟨l, hl, rfl⟩ := (target_isSome_iff ready.toIsReady hoffers).1 hi.left
    obtain ⟨q, hq, rfl⟩ := (target_isSome_iff ready.toIsReady hoffers).1 hi.right
    obtain ⟨u, y, hy, hyl, hyq⟩ := exists_allows_of_not_toldApart ready hx hl hq
      (fun he => hjk (by rw [he])) hapart
    exact ⟨u, (append_mem_beginnings_iff hregular ready.indexes).2 ⟨y, l, hy, hyl, rfl⟩,
      (append_mem_beginnings_iff hregular ready.indexes).2 ⟨y, q, hy, hyq, rfl⟩⟩
  · intro h
    obtain ⟨u, hj, hk⟩ := h
    obtain ⟨y, l, hy, hyl, rfl⟩ := (append_mem_beginnings_iff hregular ready.indexes).1 hj
    obtain ⟨y', q, hy', hyq, rfl⟩ := (append_mem_beginnings_iff hregular ready.indexes).1 hk
    obtain rfl := reaches_unique ready hy hy'
    obtain ⟨i, hi⟩ := exists_state_of_reaches ready hy
    obtain ⟨i₀, h₀⟩ := exists_isFirstCommon hi.lt_stateCount
      ((leads_iff_counting ready hi (has_of_next_right hyl.1)).2 hyl.1)
      ((leads_iff_counting ready hi (has_of_next_right hyq.1)).2 hyq.1)
    exact ⟨i₀, h₀, isToldApart_eq_false_of_allows ready hyl hyq h₀⟩

end Counting

end Automaton

/-! ## Compiled models -/

/-- Two of the terms that accept a common name, and are in conflict. -/
structure IsConflict (terms : List Term) (L : Language Nat) (x : Ambiguity) : Prop where
  lt : x.first.particle < x.second.particle
  first_eq : terms[x.first.particle]? = some x.first.term
  second_eq : terms[x.second.particle]? = some x.second.term
  overlap : ∃ name, x.first.term.accepts name = true ∧ x.second.term.accepts name = true
  conflict : Conflict L x.first.particle x.second.particle

/-- What is to be said of the ambiguities of a model: they are the conflicts, and each is listed
once. -/
structure FindsConflicts (terms : List Term) (L : Language Nat) (xs : List Ambiguity) : Prop where
  mem_iff : ∀ x, x ∈ xs ↔ IsConflict terms L x
  nodup : (xs.map fun x => (x.first.particle, x.second.particle)).Nodup

namespace Automaton

/-- If the first common state of two entries tells whether they are in conflict, then the automaton
finds the conflicts. -/
theorem Simulates.findsConflicts {a : Automaton} {terms : List Term} {L : Language Nat}
    {S : List Nat → State → Prop} (h : a.Simulates terms L S)
    (hc : ∀ {j k : Nat}, j ≠ k →
      ((∃ i, a.IsFirstCommon j k i ∧ a.isToldApart i j k = false) ↔ Conflict L j k)) :
    FindsConflicts terms L a.ambiguities where
  mem_iff x := by
    rw [mem_ambiguities_iff]
    constructor
    · intro hx
      obtain ⟨j, k, e, f, hlt, he, hf, hname, hapart, rfl⟩ := hx
      obtain ⟨hfirst, rfl⟩ := h.entry_eq he
      obtain ⟨hsecond, rfl⟩ := h.entry_eq hf
      exact ⟨hlt, hfirst, hsecond, hname, (hc (Nat.ne_of_lt hlt)).1 hapart⟩
    · have entry : ∀ c : Claimant, terms[c.particle]? = some c.term →
          ∃ e, a.entries[c.particle]? = some e ∧ e.claimant = c := fun c hterm =>
        Option.map_eq_some_iff.1 (by rw [h.claimant?_eq, hterm, Option.map_some])
      intro hx
      obtain ⟨hlt, hfirst, hsecond, hname, hconflict⟩ := hx
      obtain ⟨e, he, hce⟩ := entry x.first hfirst
      obtain ⟨f, hf, hcf⟩ := entry x.second hsecond
      rw [← hce, ← hcf] at hname
      exact ⟨_, _, e, f, hlt, he, hf, hname, (hc (Nat.ne_of_lt hlt)).2 hconflict, by rw [hce, hcf]⟩
  nodup := nodup_ambiguities fun _ _ he => (h.entry_eq he).2

end Automaton

/-- Without terms there are no conflicts. -/
theorem findsConflicts_empty (L : Language Nat) : FindsConflicts [] L Model.empty.ambiguities := by
  refine ⟨fun x => ⟨nofun, fun hx => ?_⟩, .nil⟩
  have hfirst := hx.first_eq
  simp at hfirst

/-- A model that represents a particle finds its conflicts. -/
theorem Represents.findsConflicts {p : Particle} {m : Model} (h : Represents p m) :
    FindsConflicts p.terms p.attributions m.ambiguities := by
  cases h with
  | empty hterms =>
    rw [hterms]
    exact findsConflicts_empty _
  | counting ready hattr =>
    rw [hattr]
    exact (Automaton.simulates_counting ready).findsConflicts fun hjk =>
      Automaton.conflict_iff_counting ready hjk
  | plain ready plain hattr =>
    rw [hattr]
    exact (Automaton.simulates_plain ready plain).findsConflicts fun _ =>
      Automaton.conflict_iff_plain ready plain

/-- A compiled model lists just those pairs of terms that accept a common name and are in conflict,
and none twice. -/
theorem ambiguities_of_build {b b' : Builder} {p : Particle} {c : Compilation}
    (hp : p.isAllGroup = false) (h : b.build p .validation = (.ok c, b')) :
    (∀ j k s t, ⟨⟨s, j⟩, ⟨t, k⟩⟩ ∈ c.model.ambiguities ↔
      j < k ∧ p.terms[j]? = some s ∧ p.terms[k]? = some t ∧
        (∃ name, s.accepts name = true ∧ t.accepts name = true) ∧
        ∃ u, u ++ [j] ∈ beginnings p.attributions ∧ u ++ [k] ∈ beginnings p.attributions) ∧
      (c.model.ambiguities.map fun x => (x.first.particle, x.second.particle)).Nodup := by
  have hfinds := (represents_of_build hp h).findsConflicts
  refine ⟨fun j k s t => ?_, hfinds.nodup⟩
  rw [hfinds.mem_iff]
  exact ⟨fun ⟨hlt, hs, ht, hname, hconflict⟩ => ⟨hlt, hs, ht, hname, hconflict⟩,
    fun ⟨hlt, hs, ht, hname, hconflict⟩ => ⟨hlt, hs, ht, hname, hconflict⟩⟩

/-- After two times `a`, an optional `a` and another one are in conflict. The count tells the first
two apart from those after them. -/
theorem ambiguities_of_build_counted :
    let p : Particle := .group .sequence [.element (.bare "a") ⟨2, some 2⟩,
      .element (.bare "a") ⟨0, some 1⟩, .element (.bare "a") .once] .once
    (∃ u, u ++ [1] ∈ beginnings p.attributions ∧ u ++ [2] ∈ beginnings p.attributions) ∧
      ¬ ∃ u, u ++ [0] ∈ beginnings p.attributions ∧ u ++ [1] ∈ beginnings p.attributions := by
  intro p
  let c : Compilation := .ofTree (.ofDraft (p.compactTree 0) false 6)
  have h : (Builder.new .default).build p .validation = (.ok c, _) := rfl
  have hspec := (ambiguities_of_build (p := p) rfl h).1
  have hlisted : c.model.ambiguities =
      [⟨⟨.element (.bare "a"), 1⟩, ⟨.element (.bare "a"), 2⟩⟩] := by decide +kernel
  constructor
  · exact ((hspec 1 2 _ _).1 (by rw [hlisted]; exact List.mem_singleton_self _)).2.2.2.2
  · intro hu
    have hmem := (hspec 0 1 (.element (.bare "a")) (.element (.bare "a"))).2
      ⟨Nat.one_pos, rfl, rfl, ⟨.bare "a", by decide, by decide⟩, hu⟩
    rw [hlisted] at hmem
    revert hmem
    decide

end ContentAutomata
