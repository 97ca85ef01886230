import ContentAutomata.Proofs.Automaton.States
import ContentAutomata.Proofs.Run.Tracking

/-!
# The automaton of a plain tree

A plain tree counts nothing, so its automaton never needs a counter: after some children, its state
offers what may come after any leaf that these children can be read up to.

Results:
* `simulates_plain`: the automaton of a plain tree tracks the language of the tree.
-/
namespace ContentAutomata.Automaton

open ContentAutomata.Tree

variable {t : Tree} {terms : List Term} {isApproximate : Bool}

/-- Nothing is counted. -/
def uncounted (_ : Leaf) : Option Multiplicity := none

theorem allows_uncounted {t : Tree} {x : Point} {y : Option Leaf} :
    Allows t.Next uncounted x y ↔ t.Next x.last y :=
  and_iff_left (Point.permits_of_uncounted fun _ _ => rfl)

/-- What may come after children that were attributed to the given particles. -/
def PlainNext (t : Tree) (u : List Nat) (y : Option Leaf) : Prop :=
  ∃ x, t.Reaches uncounted u x ∧ t.Next x.last y

/-- The state of a run stands for what its children were attributed to. -/
structure PlainState (t : Tree) (isApproximate : Bool) (u : List Nat) (s : State) : Prop where
  failed_eq : s.failed = false
  offers : Offers t isApproximate s.current (PlainNext t u)

theorem plainNext_append {t : Tree} {u : List Nat} {e : Nat} {y : Option Leaf} :
    PlainNext t (u ++ [e]) y ↔
      ∃ k, PlainNext t u (some k) ∧ k.particle = e ∧ t.Next (some k) y := by
  simp only [PlainNext, reaches_append_iff, allows_uncounted]
  constructor
  · intro h
    obtain ⟨_, ⟨x, k, hx, hn, hk, rfl⟩, hy⟩ := h
    exact ⟨k, ⟨x, hx, hn⟩, hk, hy⟩
  · intro h
    obtain ⟨k, ⟨x, hx, hn⟩, hk, hy⟩ := h
    exact ⟨_, ⟨x, k, hx, hn, hk, rfl⟩, hy⟩

theorem indexes_uncounted (numbered : t.IsNumbered) (plain : t.IsPlain) : Indexes uncounted t :=
  ⟨numbered.nodup, fun x hx => (plain.range_eq_none x hx).symm⟩

/-- The first state offers what may come before anything was read. -/
theorem offers_nil (numbered : t.IsNumbered) : Offers t isApproximate 0 (PlainNext t []) :=
  (offers_start numbered).congr fun y => by simp [PlainNext, reaches_nil_iff]

section Plain

variable (ready : t.IsReady terms) (plain : t.IsPlain)

include ready plain

theorem counter_eq_none (i : Nat) : (t.automaton isApproximate).counter i = none := by
  cases hc : (t.automaton isApproximate).counter i with
  | none => rfl
  | some c =>
    obtain ⟨-, ho⟩ := of_counter_eq_some hc
    obtain ⟨entry, he, hrange⟩ := Option.bind_eq_some_iff.1 ho
    obtain ⟨x, hx, -, rfl, -⟩ := entry_cases ready he
    cases (plain.range_eq_none x hx).symm.trans hrange

/-- The entries that lead on are those that a word goes on with. -/
theorem leads_iff_plain {u : List Nat} {i : Nat} (h : Offers t isApproximate i (PlainNext t u))
    (e : Nat) :
    (t.automaton isApproximate).Leads i e ↔ u ++ [e] ∈ beginnings t.attributions := by
  rw [Leads, target_isSome_iff ready h,
    append_mem_beginnings_iff plain.isRegular (indexes_uncounted ready.toIsNumbered plain)]
  simp only [PlainNext, allows_uncounted]
  constructor
  · intro hy
    obtain ⟨k, ⟨x, hx, hn⟩, hk⟩ := hy
    exact ⟨x, k, hx, hn, hk⟩
  · intro hy
    obtain ⟨x, k, hx, hn, hk⟩ := hy
    exact ⟨k, ⟨x, hx, hn⟩, hk⟩

theorem open_iff {u : List Nat} {s : State} (h : PlainState t isApproximate u s) (e : Nat) :
    (t.automaton isApproximate).Open s e ↔ u ++ [e] ∈ beginnings t.attributions := by
  rw [← leads_iff_plain ready plain h.offers]
  simp [Open, countAllows, counter_eq_none ready plain, Leads, Option.isSome_iff_exists]

theorem isComplete_iff {u : List Nat} {s : State} (h : PlainState t isApproximate u s) :
    (t.automaton isApproximate).isComplete s = true ↔ u ∈ t.attributions := by
  have hcomplete : (t.automaton isApproximate).isComplete s =
      (t.automaton isApproximate).isFinal s.current := by
    simp [isComplete, h.failed_eq, counter_eq_none ready plain]
  rw [hcomplete, isFinal_iff ready.toIsNumbered h.offers,
    mem_attributions_iff plain.isRegular (indexes_uncounted ready.toIsNumbered plain)]
  simp only [PlainNext, allows_uncounted]

omit plain in
theorem plainState_start : PlainState t isApproximate [] start :=
  ⟨rfl, offers_nil ready.toIsNumbered⟩

/-- The automaton of a plain tree tracks its language. -/
theorem simulates_plain :
    (t.automaton isApproximate).Simulates terms t.attributions
      (PlainState t isApproximate) where
  size_eq := size_entries ready
  entry_eq he := by
    obtain ⟨x, -, -, rfl, ht⟩ := entry_cases ready he
    exact ⟨ht, rfl⟩
  failed h := h.failed_eq
  orderly _ := by constructor <;> simp [counter_eq_none ready plain]
  count_le _ := by simp [counter_eq_none ready plain]
  isOpen h := open_iff ready plain h
  isComplete h := isComplete_iff ready plain h
  entered h _ _ ht hs := by
    refine ⟨hs.failed_eq, hs.current_eq ▸ (offers_target ready h.offers ht).congr fun y => ?_⟩
    exact plainNext_append.symm

end Plain

end ContentAutomata.Automaton
