import ContentAutomata.Automaton.Run

/-!
# What one step of an automaton does

The automaton looks for the first entry that leads on and accepts the name, and only then at the
counter. In an automaton that is *orderly* this comes to the same as looking for the first entry
that may be taken, the counter taken into account, and accepts the name: in a counting state the
counted entry comes before all others, and it alone leads back.

Results:
* `choose_eq_none_iff`, `of_choose_eq_some`: what the search for an entry finds;
* `stepsTo_step`: all that a step can do, in any automaton;
* `step_current_cases`: a step stays in its state or follows an entry;
* `stepSpec`: a step takes the first entry that may be taken and accepts the name; if there is none,
  it refuses the name, and what may come next stays the same.
-/
namespace ContentAutomata.Automaton

variable {a : Automaton} {s : State} {name : Name} {e next : Nat}

/-- The entry accepts the name. -/
def Accepts (a : Automaton) (e : Nat) (name : Name) : Prop :=
  ∃ term, a.term? e = some term ∧ term.accepts name = true

/-- The entry leads on. -/
def Leads (a : Automaton) (state e : Nat) : Prop := (a.target state e).isSome = true

/-- The entry may be taken. -/
def Open (a : Automaton) (s : State) (e : Nat) : Prop :=
  ∃ next, a.target s.current e = some next ∧ a.countAllows s next = true

/-- The entry is the first that may be taken and accepts the name. -/
structure IsChoice (a : Automaton) (s : State) (name : Name) (e : Nat) : Prop where
  isOpen : a.Open s e
  accepts : a.Accepts e name
  first : ∀ e' < e, a.Open s e' → ¬ a.Accepts e' name

theorem Open.leads (h : a.Open s e) : a.Leads s.current e := by
  obtain ⟨next, hn, -⟩ := h
  unfold Leads
  rw [hn]
  rfl

/-! ## Looking for an entry -/

theorem lt_size_of_accepts (h : a.Accepts e name) : e < a.entries.size := by
  obtain ⟨term, hterm, -⟩ := h
  obtain ⟨entry, he, -⟩ := Option.map_eq_some_iff.1 hterm
  exact (Array.getElem?_eq_some_iff.1 he).1

/-- The first success when going through numbers in order. -/
theorem exists_of_findSome?_range' {β : Type} {f : Nat → Option β} {n least : Nat} {b : β}
    (h : (List.range' least n).findSome? f = some b) :
    ∃ i, least ≤ i ∧ f i = some b ∧ ∀ j, least ≤ j → j < i → f j = none := by
  induction n generalizing least with
  | zero => simp at h
  | succ n ih =>
    rw [List.range'_succ, List.findSome?_cons] at h
    split at h
    · rename_i b' hb
      exact ⟨least, Nat.le_refl _, hb.trans h, fun j hj hlt => by omega⟩
    · rename_i hb
      obtain ⟨i, hi, hfi, hmin⟩ := ih h
      refine ⟨i, by omega, hfi, fun j hj hlt => ?_⟩
      rcases Nat.eq_or_lt_of_le hj with rfl | hj'
      · exact hb
      · exact hmin j hj' hlt

/-- What `choose` makes of an entry. -/
theorem candidate_cases (a : Automaton) (state : Nat) (name : Name) (e : Nat) :
    let candidate := match a.target state e, a.term? e with
      | some next, some term => if term.accepts name then some (e, next) else none
      | _, _ => none
    (candidate = none ∧ (a.Leads state e → ¬ a.Accepts e name)) ∨
      ∃ next, candidate = some (e, next) ∧ a.target state e = some next ∧ a.Accepts e name := by
  cases ht : a.target state e with
  | none => exact .inl ⟨rfl, by simp [Leads, ht]⟩
  | some next =>
    cases hterm : a.term? e with
    | none => exact .inl ⟨rfl, by simp [Accepts, hterm]⟩
    | some term =>
      cases ha : term.accepts name with
      | false => exact .inl ⟨by simp [ha], by simp [Accepts, hterm, ha]⟩
      | true => exact .inr ⟨next, by simp [ha], rfl, term, hterm, ha⟩

theorem choose_eq_none_iff {state least : Nat} :
    a.choose state name least = none ↔
      ∀ e, least ≤ e → a.Leads state e → ¬ a.Accepts e name := by
  unfold choose
  rw [List.findSome?_eq_none_iff]
  constructor
  · intro h e hle hl ha
    have hlt := lt_size_of_accepts ha
    rcases candidate_cases a state name e with ⟨-, hno⟩ | ⟨next, hc, -⟩
    · exact hno hl ha
    · cases hc.symm.trans (h e (List.mem_range'_1.2 ⟨hle, by omega⟩))
  · intro h e he
    rcases candidate_cases a state name e with ⟨hc, -⟩ | ⟨next, -, ht, ha⟩
    · exact hc
    · exact absurd ha (h e (List.mem_range'_1.1 he).1 (by simp [Leads, ht]))

theorem of_choose_eq_some {state least : Nat} (h : a.choose state name least = some (e, next)) :
    least ≤ e ∧ a.target state e = some next ∧ a.Accepts e name ∧
      ∀ e', least ≤ e' → e' < e → a.Leads state e' → ¬ a.Accepts e' name := by
  obtain ⟨i, hle, hi, hmin⟩ := exists_of_findSome?_range' h
  rcases candidate_cases a state name i with ⟨hc, -⟩ | ⟨next', hc, ht, ha⟩
  · cases hc.symm.trans hi
  · cases hc.symm.trans hi
    refine ⟨hle, ht, ha, fun e' hle' hlt => ?_⟩
    rcases candidate_cases a state name e' with ⟨-, hno⟩ | ⟨_, hc', -⟩
    · exact hno
    · cases (hmin e' hle' hlt).symm.trans hc'

/-! ## All that a step can do -/

/-- The outcomes of a step, each with what it takes to come about. -/
inductive StepsTo (a : Automaton) (s : State) (name : Name) : Option Nat × State → Prop
  /-- The run has failed before. -/
  | failed (hf : s.failed = true) : StepsTo a s name (none, s)
  /-- No entry accepts the name. -/
  | refused (hf : s.failed = false) (hc : a.choose s.current name 0 = none) :
    StepsTo a s name (none, s.fail)
  /-- Nothing is counted in the state. -/
  | uncounted {e next : Nat} (hf : s.failed = false)
    (hc : a.choose s.current name 0 = some (e, next)) (hctr : a.counter s.current = none) :
    StepsTo a s name (some e, a.enter s e next)
  /-- The state may not be left yet. -/
  | missing {e next : Nat} {c : Counter} (hf : s.failed = false)
    (hc : a.choose s.current name 0 = some (e, next)) (hctr : a.counter s.current = some c)
    (hne : next ≠ s.current) (hm : c.occurs.isMissing s.count = true) :
    StepsTo a s name (none, s.fail)
  /-- The state is left. -/
  | left {e next : Nat} {c : Counter} (hf : s.failed = false)
    (hc : a.choose s.current name 0 = some (e, next)) (hctr : a.counter s.current = some c)
    (hne : next ≠ s.current) (hm : c.occurs.isMissing s.count = false) :
    StepsTo a s name (some e, a.enter s e next)
  /-- The count goes up. -/
  | counted {e : Nat} {c : Counter} (hf : s.failed = false)
    (hc : a.choose s.current name 0 = some (e, s.current)) (hctr : a.counter s.current = some c)
    (hx : c.occurs.isExceeded (s.count + 1) = false) :
    StepsTo a s name (some e, { s with count := s.count + 1 })
  /-- The count would be too great, and a later entry is taken. -/
  | passed {e e' next : Nat} {c : Counter} (hf : s.failed = false)
    (hc : a.choose s.current name 0 = some (e, s.current)) (hctr : a.counter s.current = some c)
    (hx : c.occurs.isExceeded (s.count + 1) = true)
    (hc' : a.choose s.current name (e + 1) = some (e', next)) :
    StepsTo a s name (some e', a.enter { s with count := s.count + 1 } e' next)
  /-- The count would be too great, and no later entry accepts the name. -/
  | exceeded {e : Nat} {c : Counter} (hf : s.failed = false)
    (hc : a.choose s.current name 0 = some (e, s.current)) (hctr : a.counter s.current = some c)
    (hx : c.occurs.isExceeded (s.count + 1) = true)
    (hc' : a.choose s.current name (e + 1) = none) :
    StepsTo a s name (none, State.fail { s with count := s.count + 1 })

theorem stepsTo_step (a : Automaton) (s : State) (name : Name) :
    a.StepsTo s name (a.step s name) := by
  unfold step
  split
  · exact .failed ‹_›
  rename_i hf
  rw [Bool.not_eq_true] at hf
  split
  · exact .refused hf ‹_›
  rename_i e next hc
  split
  · exact .uncounted hf hc ‹_›
  rename_i c hctr
  split
  · rename_i hloop
    subst hloop
    simp only
    split
    · rename_i hx
      split
      · exact .passed hf hc hctr hx ‹_›
      · exact .exceeded hf hc hctr hx ‹_›
    · rename_i hx
      exact .counted hf hc hctr (Bool.eq_false_iff.2 hx)
  · rename_i hne
    split
    · exact .missing hf hc hctr hne ‹_›
    · rename_i hm
      exact .left hf hc hctr hne (Bool.eq_false_iff.2 hm)

@[simp] theorem enter_current (a : Automaton) (s : State) (e next : Nat) :
    (a.enter s e next).current = next := by
  unfold enter
  split <;> rfl

/-- A step stays in its state or goes where some entry leads to. -/
theorem step_current_cases (a : Automaton) (s : State) (name : Name) :
    (a.step s name).2.current = s.current ∨
      ∃ e, a.target s.current e = some (a.step s name).2.current := by
  have hstep := a.stepsTo_step s name
  generalize a.step s name = result at hstep ⊢
  cases hstep with
  | failed => exact .inl rfl
  | refused => exact .inl rfl
  | uncounted _ hc => exact .inr ⟨_, by simpa using (of_choose_eq_some hc).2.1⟩
  | missing => exact .inl rfl
  | left _ hc => exact .inr ⟨_, by simpa using (of_choose_eq_some hc).2.1⟩
  | counted => exact .inl rfl
  | passed _ _ _ _ hc' => exact .inr ⟨_, by simpa using (of_choose_eq_some hc').2.1⟩
  | exceeded => exact .inl rfl

/-! ## Orderly states -/

/-- In a counting state, the counted entry comes first and is the only one that leads back. -/
structure Orderly (a : Automaton) (s : State) : Prop where
  loops : ∀ c, a.counter s.current = some c → a.target s.current c.entry = some s.current
  others : ∀ c, a.counter s.current = some c → ∀ e next, a.target s.current e = some next →
    e ≠ c.entry → c.entry < e ∧ next ≠ s.current
  isOrdered : ∀ c, a.counter s.current = some c → c.occurs.isOrdered = true

/-- The counted entry is the only one that leads back. -/
theorem Orderly.eq_entry (ho : Orderly a s) {c : Counter} (hctr : a.counter s.current = some c)
    (ht : a.target s.current e = some s.current) : e = c.entry :=
  Classical.byContradiction fun hne => (ho.others c hctr e _ ht hne).2 rfl

/-- The state of a run after an entry was taken. -/
structure Entered (a : Automaton) (s : State) (e next : Nat) (s' : State) : Prop where
  failed_eq : s'.failed = false
  current_eq : s'.current = next
  count_eq : ∀ c, a.counter next = some c →
    s'.count = if next = s.current then s.count + 1 else if e = c.entry then 1 else 0

theorem entered_enter {s₀ : State} (hf : s.failed = false)
    (hne : ∀ c, a.counter next = some c → next ≠ s₀.current) :
    Entered a s₀ e next (a.enter s e next) := by
  unfold enter
  cases h : a.counter next with
  | none => exact ⟨hf, rfl, fun c hc => by cases h.symm.trans hc⟩
  | some c =>
    refine ⟨hf, rfl, fun c' hc => ?_⟩
    obtain rfl := Option.some.inj (h.symm.trans hc)
    rw [if_neg (hne _ h)]

theorem toNat_add_one {count : UInt32} (h : count.toNat + 1 < UInt32.size) :
    (count + 1).toNat = count.toNat + 1 := by
  rw [UInt32.toNat_add, UInt32.toNat_one, Nat.mod_eq_of_lt h]

theorem isExceeded_add_one {m : Multiplicity} {count : UInt32}
    (h : count.toNat + 1 < UInt32.size) : m.isExceeded (count + 1) = m.isFull count := by
  cases hm : m.max with
  | none => simp [Multiplicity.isExceeded, Multiplicity.isFull, hm]
  | some max =>
    simp only [Multiplicity.isExceeded, Multiplicity.isFull, hm, decide_eq_decide,
      UInt32.lt_iff_toNat_lt, UInt32.le_iff_toNat_le, toNat_add_one h]
    omega

theorem isFull_add_one {m : Multiplicity} {count : UInt32} (h : count.toNat + 1 < UInt32.size)
    (hfull : m.isFull count = true) : m.isFull (count + 1) = true := by
  cases hm : m.max with
  | none => simp [Multiplicity.isFull, hm] at hfull
  | some max =>
    simp only [Multiplicity.isFull, hm, decide_eq_true_eq, UInt32.le_iff_toNat_le,
      toNat_add_one h] at hfull ⊢
    omega

theorem isMissing_of_isFull {m : Multiplicity} {count : UInt32} (ho : m.isOrdered = true)
    (h : m.isFull count = true) : m.isMissing count = false := by
  cases hm : m.max with
  | none => simp [Multiplicity.isFull, hm] at h
  | some max =>
    have hle := UInt32.le_iff_toNat_le.1 (Multiplicity.isOrdered_iff.1 ho max hm)
    simp only [Multiplicity.isFull, hm, decide_eq_true_eq, UInt32.le_iff_toNat_le] at h
    simp only [Multiplicity.isMissing, decide_eq_false_iff_not, UInt32.lt_iff_toNat_lt]
    omega

theorem expected_congr {s' : State} (hcurrent : s'.current = s.current)
    (h : ∀ next, a.countAllows s' next = a.countAllows s next) : a.expected s' = a.expected s := by
  simp only [expected, hcurrent, h]

section Step

variable (ho : Orderly a s) (hf : s.failed = false)
  (hsmall : ∀ c, a.counter s.current = some c → s.count.toNat + 1 < UInt32.size)

/-- A step takes the first entry that may be taken and accepts the name. If there is none, it
refuses the name and what may come next stays the same. -/
def StepSpec (a : Automaton) (s : State) (name : Name) : Prop :=
  (∃ e next s', a.IsChoice s name e ∧ a.target s.current e = some next ∧
      a.step s name = (some e, s') ∧ Entered a s e next s') ∨
    ((∀ e, a.Open s e → ¬ a.Accepts e name) ∧
      ∃ s', a.step s name = (none, s') ∧ s'.failed = true ∧ a.expected s' = a.expected s)

include hf

theorem stepSpec_of_choose_none (hc : a.choose s.current name 0 = none) : StepSpec a s name :=
  .inr ⟨fun e h => choose_eq_none_iff.1 hc e (Nat.zero_le e) h.leads,
    s.fail, by simp [step, hf, hc], rfl, rfl⟩

/-- Without a counter, the first entry that leads on and accepts the name is taken. -/
theorem stepSpec_of_no_counter (hctr : a.counter s.current = none)
    (hc : a.choose s.current name 0 = some (e, next)) : StepSpec a s name := by
  obtain ⟨-, ht, ha, hmin⟩ := of_choose_eq_some hc
  refine .inl ⟨e, next, a.enter s e next, ⟨⟨next, ht, by simp [countAllows, hctr]⟩, ha, ?_⟩, ht,
    by simp [step, hf, hc, hctr], entered_enter hf fun c h he => ?_⟩
  · exact fun e' hlt h => hmin e' (Nat.zero_le e') hlt h.leads
  · rw [he, hctr] at h
    cases h

include ho

/-- Leaving a counting state is refused as long as the count falls short. -/
theorem stepSpec_of_leave {c : Counter} (hctr : a.counter s.current = some c)
    (hc : a.choose s.current name 0 = some (e, next)) (hne : next ≠ s.current) :
    StepSpec a s name := by
  obtain ⟨-, ht, ha, hmin⟩ := of_choose_eq_some hc
  have hloop := ho.loops c hctr
  have hec : e ≠ c.entry := by
    intro hx
    subst hx
    exact hne (Option.some.inj (ht.symm.trans hloop))
  cases hm : c.occurs.isMissing s.count with
  | true =>
    refine .inr ⟨fun e' h => ?_, s.fail, by simp [step, hf, hc, hctr, hne, hm], rfl, rfl⟩
    by_cases he : e' = c.entry
    · -- the counted entry comes before the one that was found
      refine hmin e' (Nat.zero_le e') ?_ h.leads
      rw [he]
      exact (ho.others c hctr e next ht hec).1
    · obtain ⟨next', ht', hallow⟩ := h
      have hne' := (ho.others c hctr e' next' ht' he).2
      simp [countAllows, hctr, hne', hm] at hallow
  | false =>
    have hallow : a.countAllows s next = true := by simp [countAllows, hctr, hne, hm]
    refine .inl ⟨e, next, a.enter s e next, ⟨⟨next, ht, hallow⟩, ha, ?_⟩, ht,
      by simp [step, hf, hc, hctr, hne, hm], entered_enter hf fun _ _ => hne⟩
    exact fun e' hlt h => hmin e' (Nat.zero_le e') hlt h.leads

include hsmall

/-- Staying in a counting state counts one up, if the count is not full. -/
theorem stepSpec_of_not_full {c : Counter} (hctr : a.counter s.current = some c)
    (hfull : c.occurs.isFull s.count = false)
    (hc : a.choose s.current name 0 = some (e, s.current)) : StepSpec a s name := by
  obtain ⟨-, ht, ha, hmin⟩ := of_choose_eq_some hc
  have hec := ho.eq_entry hctr ht
  have hexceeded := (isExceeded_add_one (hsmall c hctr)).trans hfull
  refine .inl ⟨e, s.current, { s with count := s.count + 1 },
    ⟨⟨_, ht, by simp [countAllows, hctr, hfull]⟩, ha, ?_⟩, ht,
    by simp [step, hf, hc, hctr, hexceeded], hf, rfl, fun _ _ => by simp⟩
  exact fun e' hlt h => hmin e' (Nat.zero_le e') hlt h.leads

/-- If the count is full, the next entry that accepts the name is taken instead. -/
theorem stepSpec_of_full {c : Counter} (hctr : a.counter s.current = some c)
    (hfull : c.occurs.isFull s.count = true)
    (hc : a.choose s.current name 0 = some (e, s.current)) : StepSpec a s name := by
  obtain ⟨-, ht, -, hmin⟩ := of_choose_eq_some hc
  have hec := ho.eq_entry hctr ht
  have hexceeded := (isExceeded_add_one (hsmall c hctr)).trans hfull
  have hmissing := isMissing_of_isFull (ho.isOrdered c hctr) hfull
  -- the counted entry may not be taken, all others may
  have hclosed : ¬ a.Open s e := by
    intro hx
    obtain ⟨next', ht', hallow⟩ := hx
    obtain rfl := Option.some.inj (ht.symm.trans ht')
    simp [countAllows, hctr, hfull] at hallow
  have hbefore : ∀ e' ≤ e, a.Open s e' → ¬ a.Accepts e' name := by
    intro e' hle h
    rcases Nat.eq_or_lt_of_le hle with rfl | hlt
    · exact absurd h hclosed
    · exact hmin e' (Nat.zero_le e') hlt h.leads
  cases hc' : a.choose s.current name (e + 1) with
  | none =>
    refine .inr ⟨fun e' h => ?_, State.fail { s with count := s.count + 1 },
      by simp [step, hf, hc, hctr, hexceeded, hc'], rfl, ?_⟩
    · rcases Nat.lt_or_ge e e' with hlt | hge
      · exact choose_eq_none_iff.1 hc' e' hlt h.leads
      · exact hbefore e' hge h
    · refine expected_congr rfl fun next => ?_
      have hfull' := isFull_add_one (hsmall c hctr) hfull
      have hmissing' := isMissing_of_isFull (ho.isOrdered c hctr) hfull'
      simp [countAllows, State.fail, hctr, hfull, hfull', hmissing, hmissing']
  | some r =>
    obtain ⟨e₁, next₁⟩ := r
    obtain ⟨hlt, ht₁, ha₁, hmin₁⟩ := of_choose_eq_some hc'
    have hne := (ho.others c hctr e₁ next₁ ht₁ (by omega)).2
    refine .inl ⟨e₁, next₁, a.enter { s with count := s.count + 1 } e₁ next₁,
      ⟨⟨next₁, ht₁, by simp [countAllows, hctr, hne, hmissing]⟩, ha₁, fun e' hlt' h => ?_⟩, ht₁,
      by simp [step, hf, hc, hctr, hexceeded, hc'], entered_enter hf fun _ _ => hne⟩
    rcases Nat.lt_or_ge e e' with hlt | hge
    · exact hmin₁ e' hlt hlt' h.leads
    · exact hbefore e' hge h

/-- What one step does. -/
theorem stepSpec (name : Name) : StepSpec a s name := by
  cases hc : a.choose s.current name 0 with
  | none => exact stepSpec_of_choose_none hf hc
  | some r =>
    obtain ⟨e, next⟩ := r
    cases hctr : a.counter s.current with
    | none => exact stepSpec_of_no_counter hf hctr hc
    | some c =>
      by_cases hne : next = s.current
      · subst hne
        cases hfull : c.occurs.isFull s.count with
        | false => exact stepSpec_of_not_full ho hf hsmall hctr hfull hc
        | true => exact stepSpec_of_full ho hf hsmall hctr hfull hc
      · exact stepSpec_of_leave ho hf hctr hc hne

end Step

end ContentAutomata.Automaton
