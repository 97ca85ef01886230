import ContentAutomata.Proofs.Run.Tracking

/-!
# When a count leaves its word

The counts of a run are kept in 32-bit words, and counting up the greatest number a word can hold
makes the count begin at zero again. Here it is said when that can happen. A count is never greater
than the number of children that were taken. In an automaton it is compared with its bound after it
was counted up, in an `all` group before that. So a bound keeps the count within its word, except
that in an automaton the greatest number is no bound.

Results:
* `Automaton.bounded_step`, `Run.bounded_step`: what a step preserves;
* `Run.OverflowsIn.cases`: a count leaves its word only after as many children as a word has
  values, and only if there is a range that does not stop it.
-/
namespace ContentAutomata

theorem toNat_add_one_le (count : UInt32) : (count + 1).toNat ≤ count.toNat + 1 := by
  rw [UInt32.toNat_add, UInt32.toNat_one]
  exact Nat.mod_le _ _

/-- The range sets no bound that a count in a word can exceed. -/
def Multiplicity.IsOpenEnded (m : Multiplicity) : Prop :=
  ∀ max, m.max = some max → max.toNat + 1 = UInt32.size

namespace Automaton

variable {a : Automaton} {s : State} {name : Name} {n : Nat}

/-- Taking the child counts up a word that holds the greatest number. -/
def Overflows (a : Automaton) (s : State) (name : Name) : Prop :=
  s.failed = false ∧ s.count.toNat + 1 = UInt32.size ∧
    ∃ c e, a.counter s.current = some c ∧ a.choose s.current name 0 = some (e, s.current)

/-- Something is counted in a range that does not stop the count before it leaves its word. -/
def CountsFreely (a : Automaton) : Prop := ∃ i c, a.counter i = some c ∧ c.occurs.IsOpenEnded

/-- The count is at most `n`, and is at most what is allowed, or one. -/
structure Bounded (a : Automaton) (n : Nat) (s : State) : Prop where
  count_le : s.count.toNat ≤ n
  within : s.failed = false → ∀ c, a.counter s.current = some c →
    ∀ max, c.occurs.max = some max → s.count.toNat ≤ max.toNat ∨ s.count.toNat ≤ 1

theorem bounded_start (a : Automaton) : a.Bounded 0 start :=
  ⟨Nat.le_refl 0, fun _ _ _ _ _ => .inr (Nat.zero_le 1)⟩

theorem bounded_enter (h : s.count.toNat ≤ n + 1) (e next : Nat) :
    a.Bounded (n + 1) (a.enter s e next) := by
  unfold enter
  cases hc : a.counter next with
  | none => exact ⟨h, fun _ c hc' => by cases hc.symm.trans hc'⟩
  | some c =>
    have hone : (if e = c.entry then 1 else 0 : UInt32).toNat ≤ 1 := by split <;> decide
    exact ⟨Nat.le_trans hone (Nat.succ_le_succ (Nat.zero_le n)), fun _ _ _ _ _ => .inr hone⟩

theorem bounded_fail (h : s.count.toNat ≤ n) : a.Bounded n s.fail :=
  ⟨h, fun hf => by cases hf⟩

/-- A step counts one up at most. -/
theorem bounded_step (h : a.Bounded n s) (name : Name) : a.Bounded (n + 1) (a.step s name).2 := by
  have hsucc := Nat.le_succ_of_le h.count_le
  have hadd := Nat.le_trans (toNat_add_one_le s.count) (Nat.succ_le_succ h.count_le)
  have hstep := a.stepsTo_step s name
  generalize a.step s name = result at hstep ⊢
  cases hstep with
  | failed => exact ⟨hsucc, h.within⟩
  | refused => exact bounded_fail hsucc
  | uncounted => exact bounded_enter hsucc _ _
  | missing => exact bounded_fail hsucc
  | left => exact bounded_enter hsucc _ _
  | counted hf hc hctr hx =>
    -- staying counts up to the bound at most
    refine ⟨hadd, fun _ c' hc' max hmax => .inl ?_⟩
    obtain rfl := Option.some.inj (hctr.symm.trans hc')
    simpa [Multiplicity.isExceeded, hmax, UInt32.lt_iff_toNat_lt] using hx
  | passed => exact bounded_enter hadd _ _
  | exceeded => exact bounded_fail hadd

/-- A count that leaves its word is not stopped by its range. -/
theorem Overflows.cases (h : a.Overflows s name) (hb : a.Bounded n s) :
    UInt32.size ≤ n + 1 ∧ a.CountsFreely := by
  obtain ⟨hf, hcount, c, -, hc, -⟩ := h
  have hle := hb.count_le
  refine ⟨by omega, s.current, c, hc, fun max hmax => ?_⟩
  have hlt := max.toNat_lt_size
  have hsize : 2 < UInt32.size := by decide
  rcases hb.within hf c hc max hmax with hmax | hone <;> omega

end Automaton

namespace AllGroup

variable {name : Name} {ms : List Member} {cs cs' : List UInt32} {m : Member} {n : Nat}

/-- Counting the child counts up a word that holds the greatest number. -/
def Overflows (name : Name) : List Member → List UInt32 → Prop
  | m :: ms, c :: cs =>
    if m.term.accepts name && !m.occurs.isFull c then c.toNat + 1 = UInt32.size
    else Overflows name ms cs
  | _, _ => False

/-- Some member may occur any number of times. -/
def CountsFreely (g : AllGroup) : Prop := ∃ m ∈ g.members, m.occurs.max = none

/-- A count that leaves its word is not stopped by a range. -/
theorem Overflows.cases (h : Overflows name ms cs) :
    (∃ m ∈ ms, m.occurs.max = none) ∧ ∃ c ∈ cs, c.toNat + 1 = UInt32.size := by
  induction ms generalizing cs with
  | nil => exact h.elim
  | cons m ms ih =>
    cases cs with
    | nil => exact h.elim
    | cons c cs =>
      unfold Overflows at h
      split at h
      · rename_i hroom
        rw [Bool.and_eq_true, Bool.not_eq_true'] at hroom
        refine ⟨⟨m, List.mem_cons_self, ?_⟩, c, List.mem_cons_self, h⟩
        cases hmax : m.occurs.max with
        | none => rfl
        | some max =>
          have hlt := Multiplicity.isFull_eq_false_iff.1 hroom.2 max hmax
          have hsize := max.toNat_lt_size
          omega
      · obtain ⟨⟨k, hk, hmax⟩, d, hd, hcount⟩ := ih h
        exact ⟨⟨k, List.mem_cons_of_mem m hk, hmax⟩, d, List.mem_cons_of_mem c hd, hcount⟩

/-- Counting a child counts one up at most. -/
theorem count_le_of_count (h : count name ms cs = some (m, cs')) (hle : ∀ c ∈ cs, c.toNat ≤ n) :
    ∀ c ∈ cs', c.toNat ≤ n + 1 := by
  induction ms generalizing cs cs' with
  | nil => cases cs <;> cases h
  | cons k ms ih =>
    cases cs with
    | nil => cases h
    | cons c cs =>
      obtain ⟨hc, hcs⟩ := List.forall_mem_cons.1 hle
      have hsucc : ∀ d ∈ cs, d.toNat ≤ n + 1 := fun d hd => Nat.le_succ_of_le (hcs d hd)
      unfold count at h
      split at h
      · cases h
        exact List.forall_mem_cons.2
          ⟨Nat.le_trans (toNat_add_one_le c) (Nat.succ_le_succ hc), hsucc⟩
      · obtain ⟨⟨found, ds⟩, hd, he⟩ := Option.map_eq_some_iff.1 h
        cases he
        exact List.forall_mem_cons.2 ⟨Nat.le_succ_of_le hc, ih hd hcs⟩

end AllGroup

/-! ## Runs -/

/-- Some count of the model is not stopped by a range before it leaves its word. -/
def Model.CountsFreely : Model → Prop
  | empty => False
  | automaton a => a.CountsFreely
  | all g => g.CountsFreely

namespace Run

variable {r r' : Run} {name : Name} {names names' : List Name} {n : Nat}

/-- The model that a run belongs to. -/
def model : Run → Model
  | empty _ => .empty
  | automaton a _ => .automaton a
  | all g _ => .all g

/-- Taking the child counts up a word that holds the greatest number. -/
def Overflows : Run → Name → Prop
  | empty _, _ => False
  | automaton a s, name => a.Overflows s name
  | all g s, name => s.failed = false ∧ AllGroup.Overflows name g.members s.counts

/-- Some count leaves its word while the children are taken. -/
def OverflowsIn : Run → List Name → Prop
  | _, [] => False
  | r, name :: names => r.Overflows name ∨ (r.step name).2.OverflowsIn names

/-- Counts are at most `n`. -/
def Bounded (n : Nat) : Run → Prop
  | empty _ => True
  | automaton a s => a.Bounded n s
  | all _ s => ∀ c ∈ s.counts, c.toNat ≤ n

theorem bounded_start (m : Model) : m.start.Bounded 0 := by
  cases m with
  | empty => trivial
  | automaton a => exact a.bounded_start
  | all g =>
    intro c hc
    obtain ⟨_, -, rfl⟩ := List.mem_map.1 hc
    exact Nat.le_refl 0

theorem model_start (m : Model) : m.start.model = m := by
  cases m <;> rfl

theorem model_step (r : Run) (name : Name) : (r.step name).2.model = r.model := by
  cases r <;> rfl

/-- A step counts one up at most. -/
theorem bounded_step (h : r.Bounded n) (name : Name) : (r.step name).2.Bounded (n + 1) := by
  cases r with
  | empty failed => trivial
  | automaton a s => exact Automaton.bounded_step h name
  | all g s =>
    have hsucc : ∀ c ∈ s.counts, c.toNat ≤ n + 1 := fun c hc => Nat.le_succ_of_le (h c hc)
    have hstep : ∀ c ∈ (g.step s name).2.counts, c.toNat ≤ n + 1 := by
      unfold AllGroup.step
      split
      · exact hsucc
      · split
        · rename_i hcount
          exact AllGroup.count_le_of_count hcount h
        · exact hsucc
    exact hstep

theorem Overflows.cases (h : r.Overflows name) (hb : r.Bounded n) :
    UInt32.size ≤ n + 1 ∧ r.model.CountsFreely := by
  cases r with
  | empty failed => exact h.elim
  | automaton a s => exact Automaton.Overflows.cases h hb
  | all g s =>
    obtain ⟨hfree, c, hc, hcount⟩ := h.2.cases
    have hle := hb c hc
    exact ⟨by omega, hfree⟩

/-- A count leaves its word only after enough children, and only if no range stops it. -/
theorem OverflowsIn.cases (h : r.OverflowsIn names) (hb : r.Bounded n) :
    UInt32.size ≤ n + names.length ∧ r.model.CountsFreely := by
  induction names generalizing r n with
  | nil => exact h.elim
  | cons name names ih =>
    rw [List.length_cons]
    rcases h with h | h
    · obtain ⟨hle, hfree⟩ := Overflows.cases h hb
      exact ⟨by omega, hfree⟩
    · obtain ⟨hle, hfree⟩ := ih h (bounded_step hb name)
      rw [model_step] at hfree
      exact ⟨by omega, hfree⟩

/-- What happens after the children that were taken happens. -/
theorem OverflowsIn.of_takeAll {cs : List Claimant} (htake : r.takeAll names = some (cs, r'))
    (h : r'.OverflowsIn names') : r.OverflowsIn (names ++ names') := by
  induction names generalizing r cs with
  | nil =>
    cases htake
    exact h
  | cons name names ih =>
    obtain ⟨c, r₁, cs', hstep, htake', -⟩ := takeAll_cons.1 htake
    refine .inr ?_
    rw [hstep]
    exact ih htake'

end Run

end ContentAutomata
