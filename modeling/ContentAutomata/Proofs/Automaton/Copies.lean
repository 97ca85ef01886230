import ContentAutomata.Proofs.Automaton.Counting

/-!
# The automaton of a single leaf

A tree with one leaf has an automaton with one entry. Children that the leaf accepts are taken one
after the other, in one and the same state from the first of them on. If the leaf is counted, the
counter holds how many they are, as far as a 32-bit word can tell.

Results:
* `step_taken`: what a further child does;
* `isComplete_taken`: when the children so far are complete;
* `takeAll_taken`, `takeAll_copies`: how many of any number of children are taken;
* `validate_copies`: when they are valid.
-/
namespace ContentAutomata.Automaton

open ContentAutomata.Tree

/-! ## One entry -/

section OneEntry

variable {a : Automaton} {name : Name} {i j : Nat} (hsize : a.entries.size = 1)

include hsize

theorem eq_zero_of_accepts {e : Nat} (h : a.Accepts e name) : e = 0 := by
  have hlt := lt_size_of_accepts h
  omega

theorem choose_of_target_eq_none (h : a.target i 0 = none) : a.choose i name 0 = none := by
  refine choose_eq_none_iff.2 fun e _ hleads ha => ?_
  rw [eq_zero_of_accepts hsize ha, Leads, h] at hleads
  cases hleads

theorem choose_of_target_eq_some (ha : a.Accepts 0 name) (h : a.target i 0 = some j) :
    a.choose i name 0 = some (0, j) := by
  cases hc : a.choose i name 0 with
  | none => exact absurd ha (choose_eq_none_iff.1 hc 0 (Nat.le_refl 0) (by rw [Leads, h]; rfl))
  | some r =>
    obtain ⟨e, next⟩ := r
    obtain ⟨-, ht, he, -⟩ := of_choose_eq_some hc
    obtain rfl := eq_zero_of_accepts hsize he
    obtain rfl := Option.some.inj (ht.symm.trans h)
    rfl

/-- There is no other entry to take instead. -/
theorem choose_one : a.choose i name 1 = none := by
  refine choose_eq_none_iff.2 fun e hle _ ha => ?_
  have he := eq_zero_of_accepts hsize ha
  omega

end OneEntry

/-! ## One leaf -/

/-- As far as the tree and the counter tell, the leaf may be read again after `k` times. -/
structure Repeats (t : Tree) (l : Leaf) (k : Nat) : Prop where
  next : t.Next (some l) (some l)
  room : ∀ m, t.rangeOf l = some m → m.isExceeded (.ofNat (k + 1)) = false

/-- The run has taken `k` children for the leaf. -/
structure Taken (t : Tree) (isApproximate : Bool) (l : Leaf) (k : Nat) (s : State) : Prop where
  failed_eq : s.failed = false
  offers : Offers t isApproximate s.current (t.Next (some l))
  count_eq : ∀ m, t.rangeOf l = some m → s.count = .ofNat k

section OneLeaf

variable {t : Tree} {term : Term} {isApproximate : Bool} {l : Leaf} {name : Name} {s : State}
  {i k n : Nat} (ready : t.IsCounting [term]) (hl : t.Has l)

include ready

theorem size_entries_one : (t.automaton isApproximate).entries.size = 1 :=
  size_entries ready.toIsReady

theorem claimant?_zero :
    (t.automaton isApproximate).entries[0]?.map Entry.claimant = some ⟨term, 0⟩ :=
  (simulates_counting ready).claimant?_eq 0

theorem accepts_zero (ha : term.accepts name = true) : (t.automaton isApproximate).Accepts 0 name :=
  ⟨term, (simulates_counting ready).term?_eq 0, ha⟩

/-- A child that is taken is told to be the term's. -/
theorem run_step_zero {s' : State} (h : (t.automaton isApproximate).step s name = (some 0, s')) :
    (Run.automaton (t.automaton isApproximate) s).step name =
      (some ⟨term, 0⟩, .automaton (t.automaton isApproximate) s') := by
  simp [Run.step, h, claimant?_zero ready]

include hl

theorem particle_eq_zero : l.particle = 0 := by
  obtain ⟨x, hx, rfl⟩ := List.mem_map.1 hl
  obtain ⟨i, hi, hterm⟩ := ready.lettered.term_eq x hx
  have hlt := (List.getElem?_eq_some_iff.1 hterm).1
  rw [List.length_singleton] at hlt
  omega

theorem eq_of_has {k : Leaf} (hk : t.Has k) : k = l :=
  ready.eq_of_particle hk hl
    ((particle_eq_zero ready hk).trans (particle_eq_zero ready hl).symm)

/-- After the leaf was read, it is counted if it has a range. -/
theorem counter_after (h : Offers t isApproximate i (t.Next (some l))) :
    (t.automaton isApproximate).counter i = (t.rangeOf l).map fun m => ⟨m, 0⟩ := by
  have hcounter : ∀ c, (t.automaton isApproximate).counter i = some c →
      c.entry = 0 ∧ t.rangeOf l = some c.occurs := by
    intro c hc
    obtain ⟨k, hpart, hrange, hk, -⟩ := leaf_of_counter ready h hc
    obtain rfl := eq_of_has ready hl (has_of_next_right hk)
    exact ⟨hpart ▸ particle_eq_zero ready hl, hrange⟩
  cases hc : (t.automaton isApproximate).counter i with
  | none =>
    cases hr : t.rangeOf l with
    | none => rfl
    | some m =>
      have hsome := counter_isSome_of_range ready hl hr h
      rw [hc] at hsome
      cases hsome
  | some c =>
    obtain ⟨hentry, hrange⟩ := hcounter c hc
    rw [hrange, Option.map_some, ← hentry]

/-- Reading the leaf leads to the state that offers what comes after it. -/
theorem target_zero {x : Option Leaf} (h : Offers t isApproximate i (t.Next x))
    (hx : t.Next x (some l)) :
    ∃ j, (t.automaton isApproximate).target i 0 = some j ∧
      Offers t isApproximate j (t.Next (some l)) := by
  have hpart := particle_eq_zero ready hl
  obtain ⟨j, hj⟩ := Option.isSome_iff_exists.1
    ((target_isSome_iff ready.toIsReady h (e := 0)).2 ⟨l, hx, hpart⟩)
  exact ⟨j, hj, offers_target_leaf ready h hx (hpart.symm ▸ hj)⟩

variable (ha : term.accepts name = true)

include ha

/-- The first child is taken. -/
theorem step_first (hfirst : t.Next none (some l))
    (hroom : ∀ m, t.rangeOf l = some m → m.isExceeded 1 = false) :
    ∃ s, (t.automaton isApproximate).step start name = (some 0, s) ∧
      Taken t isApproximate l 1 s := by
  have hstart : Offers t isApproximate 0 (t.Next none) := offers_start ready.toIsNumbered
  obtain ⟨j, hj, hoffers⟩ := target_zero ready hl hstart hfirst
  have hchoose := choose_of_target_eq_some (size_entries_one ready) (accepts_zero ready ha) hj
  have hcounter := counter_after ready hl hoffers
  cases hc : (t.automaton isApproximate).counter 0 with
  | none =>
    -- the count begins with the child
    refine ⟨(t.automaton isApproximate).enter start 0 j, by simp [step, start, hchoose, hc], ?_⟩
    unfold enter
    cases hr : t.rangeOf l with
    | none =>
      rw [hr] at hcounter
      rw [hcounter]
      exact ⟨rfl, hoffers, fun m hm => by cases hr.symm.trans hm⟩
    | some m =>
      rw [hr] at hcounter
      rw [hcounter]
      exact ⟨rfl, hoffers, fun _ _ => rfl⟩
  | some c =>
    -- the leaf may be left out, so it is counted from the start
    obtain ⟨k, -, hrange, hk, hnext⟩ := leaf_of_counter ready hstart hc
    obtain rfl := eq_of_has ready hl (has_of_next_right hk)
    obtain rfl := offers_unique hoffers (hstart.congr hnext)
    refine ⟨⟨0, 1, false⟩, ?_, rfl, hoffers, fun _ _ => rfl⟩
    have hexceeded := hroom _ hrange
    simp [step, start, hchoose, hc, hexceeded]

/-- What a further child does. -/
theorem step_taken (h : Taken t isApproximate l k s) :
    (Repeats t l k ∧ ∃ s', (t.automaton isApproximate).step s name = (some 0, s') ∧
        Taken t isApproximate l (k + 1) s') ∨
      (¬ Repeats t l k ∧ ((t.automaton isApproximate).step s name).1 = none) := by
  have hcounter := counter_after ready hl h.offers
  by_cases hnext : t.Next (some l) (some l)
  · obtain ⟨j, hj, hoffers⟩ := target_zero ready hl h.offers hnext
    obtain rfl := offers_unique hoffers h.offers
    have hchoose := choose_of_target_eq_some (size_entries_one ready) (accepts_zero ready ha) hj
    cases hr : t.rangeOf l with
    | none =>
      rw [hr, Option.map_none] at hcounter
      refine .inl ⟨⟨hnext, fun m hm => by cases hr.symm.trans hm⟩, s, ?_, h.failed_eq, h.offers,
        fun m hm => by cases hr.symm.trans hm⟩
      have hstay : (⟨s.current, s.count, false⟩ : State) = s := by rw [← h.failed_eq]
      simpa [step, enter, h.failed_eq, hchoose, hcounter] using hstay
    | some m =>
      rw [hr, Option.map_some] at hcounter
      have hcount : s.count + 1 = .ofNat (k + 1) := by
        rw [h.count_eq m hr, UInt32.ofNat_add]
        rfl
      cases hexceeded : m.isExceeded (s.count + 1) with
      | false =>
        refine .inl ⟨⟨hnext, fun m' hm => ?_⟩, { s with count := s.count + 1 }, ?_, h.failed_eq,
          h.offers, fun _ _ => hcount⟩
        · rwa [← Option.some.inj (hr.symm.trans hm), ← hcount]
        · simp [step, h.failed_eq, hchoose, hcounter, hexceeded]
      | true =>
        refine .inr ⟨fun hrepeats => ?_, ?_⟩
        · cases (hcount ▸ hexceeded).symm.trans (hrepeats.room m hr)
        · have hother : (t.automaton isApproximate).choose s.current name 1 = none :=
            choose_one (size_entries_one ready)
          simp [step, h.failed_eq, hchoose, hcounter, hexceeded, hother]
  · refine .inr ⟨fun hrepeats => hnext hrepeats.next, ?_⟩
    have htarget : (t.automaton isApproximate).target s.current 0 = none := by
      rw [← Option.not_isSome_iff_eq_none, target_isSome_iff ready.toIsReady h.offers]
      rintro ⟨k, hk, -⟩
      rw [eq_of_has ready hl (has_of_next_right hk)] at hk
      exact hnext hk
    have hchoose : (t.automaton isApproximate).choose s.current name 0 = none :=
      choose_of_target_eq_none (size_entries_one ready) htarget
    simp [step, h.failed_eq, hchoose]

omit ha

theorem isComplete_taken (h : Taken t isApproximate l k s) :
    (t.automaton isApproximate).isComplete s = true ↔
      t.Next (some l) none ∧ ∀ m, t.rangeOf l = some m → m.isMissing (.ofNat k) = false := by
  have hcounter := counter_after ready hl h.offers
  rw [isComplete, h.failed_eq, hcounter, ← isFinal_iff ready.toIsNumbered h.offers]
  cases hr : t.rangeOf l with
  | none => simp
  | some m => simp [h.count_eq m hr]

omit hl

theorem isComplete_start :
    (t.automaton isApproximate).isComplete start = true ↔ t.Next none none := by
  rw [isComplete_iff_allows ready (countingState_start ready) (by simp)]
  exact and_iff_left (Point.permits_of_uncounted (by simp))

end OneLeaf

/-! ## Whole runs -/

section Runs

variable {t : Tree} {term : Term} {isApproximate : Bool} {l : Leaf} {name : Name} {s : State}
  {k n : Nat} (ready : t.IsCounting [term]) (hl : t.Has l) (ha : term.accepts name = true)

include ready hl ha

/-- How many further children are taken. -/
theorem takeAll_taken (h : Taken t isApproximate l n s) (k : Nat) :
    (∃ cs s', (Run.automaton (t.automaton isApproximate) s).takeAll (List.replicate k name) =
        some (cs, .automaton (t.automaton isApproximate) s') ∧
        Taken t isApproximate l (n + k) s' ∧ ∀ i, n ≤ i → i < n + k → Repeats t l i) ∨
      ((Run.automaton (t.automaton isApproximate) s).takeAll (List.replicate k name) = none ∧
        ∃ i, n ≤ i ∧ i < n + k ∧ ¬ Repeats t l i) := by
  induction k generalizing n s with
  | zero => exact .inl ⟨[], s, rfl, h, fun i hle hlt => by omega⟩
  | succ k ih =>
    rw [List.replicate_succ]
    rcases step_taken ready hl ha h with ⟨hrepeats, s', hstep, h'⟩ | ⟨hrepeats, hstep⟩
    · have hrun := run_step_zero ready hstep
      rcases ih h' with ⟨cs, s'', htake, h'', hall⟩ | ⟨htake, i, hle, hlt, hno⟩
      · refine .inl ⟨⟨term, 0⟩ :: cs, s'', Run.takeAll_cons.2 ⟨_, _, cs, hrun, htake, rfl⟩,
          by rwa [Nat.add_comm k, ← Nat.add_assoc], fun i hle hlt => ?_⟩
        rcases Nat.eq_or_lt_of_le hle with rfl | hlt'
        · exact hrepeats
        · exact hall i hlt' (by omega)
      · exact .inr ⟨by simp [Run.takeAll, hrun, htake], i, by omega, by omega, hno⟩
    · refine .inr ⟨?_, n, Nat.le_refl n, by omega, hrepeats⟩
      simp [Run.takeAll, Run.step, hstep]

variable (hfirst : t.Next none (some l))
  (hroom : ∀ m, t.rangeOf l = some m → m.isExceeded 1 = false)

include hfirst hroom

variable (isApproximate) in
/-- How many children are taken from the start. -/
theorem takeAll_copies (k : Nat) :
    (∃ cs s, (Run.automaton (t.automaton isApproximate) start).takeAll
          (List.replicate (k + 1) name) = some (cs, .automaton (t.automaton isApproximate) s) ∧
        Taken t isApproximate l (k + 1) s ∧ ∀ i, 1 ≤ i → i < k + 1 → Repeats t l i) ∨
      ((Run.automaton (t.automaton isApproximate) start).takeAll
          (List.replicate (k + 1) name) = none ∧ ∃ i, 1 ≤ i ∧ i < k + 1 ∧ ¬ Repeats t l i) := by
  obtain ⟨s, hstep, h⟩ : ∃ s, (t.automaton isApproximate).step start name = (some 0, s) ∧
      Taken t isApproximate l 1 s := step_first ready hl ha hfirst hroom
  have hrun := run_step_zero ready hstep
  rw [List.replicate_succ, Nat.add_comm k]
  rcases takeAll_taken ready hl ha h k with ⟨cs, s', htake, h', hall⟩ | ⟨htake, hno⟩
  · exact .inl ⟨_, s', Run.takeAll_cons.2 ⟨_, _, cs, hrun, htake, rfl⟩, h', hall⟩
  · exact .inr ⟨by simp [Run.takeAll, hrun, htake], hno⟩

/-- When any number of children are valid. -/
theorem validate_copies (hlast : t.Next (some l) none) (k : Nat) :
    (Model.automaton (t.automaton isApproximate)).validate (List.replicate (k + 1) name) = .valid ↔
      (∀ i, 1 ≤ i → i < k + 1 → Repeats t l i) ∧
        ∀ m, t.rangeOf l = some m → m.isMissing (.ofNat (k + 1)) = false := by
  rw [Model.validate, Run.verdict_eq_valid_iff, Model.start]
  rcases takeAll_copies isApproximate ready hl ha hfirst hroom k with
    ⟨cs, s, htake, h, hall⟩ | ⟨htake, i, hle, hlt, hno⟩
  · have hcomplete := isComplete_taken ready hl h
    rw [and_iff_right hlast] at hcomplete
    rw [and_iff_right hall, ← hcomplete]
    constructor
    · rintro ⟨_, _, htake', hc⟩
      cases htake.symm.trans htake'
      exact hc
    · exact fun hc => ⟨_, _, htake, hc⟩
  · refine iff_of_false ?_ fun hx => hno (hx.1 i hle hlt)
    rintro ⟨_, _, htake', -⟩
    cases htake.symm.trans htake'

end Runs

end ContentAutomata.Automaton
