import ContentAutomata.Proofs.Automaton.Guarded
import Mathlib.Logic.Relation

/-!
# The tables of an automaton are closed

A run with every access checked never looks up what is not there, because the tables are closed:
there is one entry for each state, a row has one column for each entry of the automaton, and what a
row leads to is a state. So it is the run without the checks.

Results:
* `isClosed_tables`: the tables of an automaton are closed;
* `step?_eq`, `isComplete?_eq`, `expected?_eq`: in a state that has a row, no access fails;
* `step_current_lt`, `foldlM_step?_eq`: a run stays in such states;
* `construct_closed`: all this of every tree, once its leaves are numbered.
-/
namespace ContentAutomata.Automaton

namespace Tables

/-! ## Closed tables -/

/-- Some entry leads from one state to the other. -/
def Leads (a : Tables) (i j : Nat) : Prop := ∃ row, a.rows[i]? = some row ∧ some j ∈ row

/-- The tables fit together. -/
structure IsClosed (a : Tables) : Prop where
  pos : 0 < a.rows.size
  size_states : a.states.size = a.rows.size
  size_finals : a.finals.size = a.rows.size
  size_counters : a.counters.size = a.rows.size
  /-- Every row has one column for each entry. -/
  size_row : ∀ row ∈ a.rows, row.size = a.entries.size
  target_lt : ∀ {i j : Nat}, a.Leads i j → j < a.rows.size
  isReachable : ∀ i < a.rows.size, Relation.ReflTransGen a.Leads 0 i
  /-- No two states stand for the same positions. -/
  nodup : a.states.toList.Nodup
  counter_lt : ∀ c : Counter, some c ∈ a.counters → c.entry < a.entries.size

end Tables

/-! ## The tables of an automaton -/

section Closed

variable {t : Tree} {n : Nat} {isApproximate : Bool}

theorem nodup_states : (ofTree t n isApproximate).states.toList.Nodup := by
  obtain ⟨table, hstates, -⟩ := explored_ofTree t n isApproximate
  rw [List.nodup_iff_getElem?_ne_getElem?]
  intro i j hij hj he
  simp only [Array.length_toList, Array.getElem?_toList] at hj he
  obtain ⟨s, hs⟩ : ∃ s, (ofTree t n isApproximate).states[j]? = some s :=
    ⟨_, Array.getElem?_eq_getElem hj⟩
  have hi := (hstates i).symm.trans (he.trans hs)
  have hj := (hstates j).symm.trans hs
  exact Nat.ne_of_lt hij (table.number_unique hi hj)

theorem exists_target {a : Automaton} {i j : Nat} (h : a.tables.Leads i j) :
    ∃ e, a.target i e = some j := by
  obtain ⟨row, hi, hmem⟩ := h
  obtain ⟨e, he⟩ := Array.mem_iff_getElem?.1 hmem
  exact ⟨e, by rw [target_eq_row hi, he]; rfl⟩

theorem leads_of_target {a : Automaton} {i j e : Nat} (h : a.target i e = some j) :
    a.tables.Leads i j := by
  obtain ⟨row, hi, he⟩ := Option.bind_eq_some_iff.1 (Option.join_eq_some_iff.1 h)
  exact ⟨row, hi, Array.mem_of_getElem? he⟩

theorem isClosed_tables (t : Tree) (n : Nat) (isApproximate : Bool) :
    (ofTree t n isApproximate).tables.IsClosed := by
  obtain ⟨table, hstates, hfirst, hsize, hexp⟩ := explored_ofTree t n isApproximate
  have hstateSize := size_rows t n isApproximate
  constructor
  case pos => exact hsize ▸ (Array.getElem?_eq_some_iff.1 hfirst).1
  case size_states => exact Array.size_map.trans hstateSize.symm
  case size_finals => exact Array.size_map.trans hstateSize.symm
  case size_counters => exact Array.size_mapIdx
  case size_row =>
    intro row hrow
    obtain ⟨i, hi⟩ := Array.mem_iff_getElem?.1 hrow
    have hentries : row.size = (ofTree t n isApproximate).entries.size := size_row hi
    exact hentries
  case target_lt =>
    intro i j h
    obtain ⟨e, he⟩ := exists_target h
    obtain ⟨row, hi, -⟩ := h
    have hlt := hsize ▸ (Array.getElem?_eq_some_iff.1 hi).1
    have hrel := target_rel ((hstates i).trans (Array.getElem?_eq_getElem hlt)) e
    rw [he] at hrel
    generalize ((lettersOf (n + 1) t)[e]?.map (·.2)).bind _ = next at hrel
    cases hrel with
    | some hj => exact hsize ▸ (Array.getElem?_eq_some_iff.1 ((hstates j).symm.trans hj)).1
  case isReachable =>
    intro i
    induction i using Nat.strongRecOn with
    | ind i ih =>
      intro hi
      rcases Nat.eq_zero_or_pos i with rfl | hpos
      · exact .refl
      · obtain ⟨j, row, hji, hj, hmem⟩ := hexp.found hpos (hsize ▸ hi)
        exact (ih j hji (Nat.lt_trans hji hi)).tail ⟨row, hj, Array.mem_toList_iff.1 hmem⟩
  case nodup =>
    simp only [tables, Array.toList_map]
    exact nodup_states.map fun s s' h => PositionSet.bounded_inj.1 h
  case counter_lt =>
    intro c hc
    obtain ⟨i, hi⟩ := Array.mem_iff_getElem?.1 hc
    have hcounter : (ofTree t n isApproximate).counter i = some c := congrArg Option.join hi
    obtain ⟨entry, he, -⟩ := Option.bind_eq_some_iff.1 (of_counter_eq_some hcounter).2
    exact (Array.getElem?_eq_some_iff.1 he).1

end Closed

/-! ## No access fails -/

/-- The term of an entry if it may be taken. -/
def offered (a : Automaton) (s : State) (e : Nat) : Option Term :=
  match a.target s.current e with
  | some next => if a.countAllows s next then a.term? e else none
  | none => none

section Running

variable {a : Automaton} (closed : a.tables.IsClosed) {s : State} {name : Name}

include closed

theorem exists_row {i : Nat} (h : i < a.stateCount) :
    ∃ row, a.tables.rows[i]? = some row ∧ row.size = a.entries.size :=
  ⟨_, Array.getElem?_eq_getElem h, closed.size_row _ (Array.getElem_mem h)⟩

/-- What is counted in a state is in the table. -/
theorem counters_getElem? {i : Nat} (h : i < a.stateCount) :
    a.tables.counters[i]? = some (a.counter i) := by
  have hlt : i < a.counters.size := Nat.lt_of_lt_of_eq h closed.size_counters.symm
  have hget : a.counters[i]? = some (a.counter i) := by simp [counter, hlt]
  exact hget

theorem target_lt {i j e : Nat} (h : a.target i e = some j) : j < a.stateCount :=
  closed.target_lt (leads_of_target h)

omit closed in
theorem choose?_eq {i : Nat} {row : Array (Option Nat)} (hi : a.rows[i]? = some row)
    (hrow : row.size = a.entries.size) (name : Name) (least : Nat) :
    a.tables.choose? row name least = some (a.choose i name least) := by
  have hlt : ∀ e ∈ List.range' least (a.entries.size - least), e < a.entries.size := by
    intro e he
    rw [List.mem_range'_1] at he
    omega
  have hsize : a.tables.entries.size = a.entries.size := rfl
  rw [Tables.choose?, choose, hsize]
  generalize List.range' least (a.entries.size - least) = es at hlt ⊢
  induction es with
  | nil => rfl
  | cons e es ih =>
    obtain ⟨he, hes⟩ := List.forall_mem_cons.1 hlt
    have hcolumn : row[e]? = some row[e] := Array.getElem?_eq_getElem (hrow.symm ▸ he)
    have hentry : a.entries[e]? = some a.entries[e] := Array.getElem?_eq_getElem he
    have hentry' : a.tables.entries[e]? = some a.entries[e] := hentry
    rw [Tables.firstOf?, List.findSome?_cons, target_eq_row hi, term?, hcolumn, hentry, hentry']
    simp only [Option.bind_eq_bind, Option.bind_some, Option.join_some, Option.map_some, ih hes]
    cases row[e] with
    | none => rfl
    | some next =>
      simp only
      split <;> rfl

theorem enter?_eq {next : Nat} (h : next < a.stateCount) (s : State) (e : Nat) :
    a.tables.enter? s e next = some (a.enter s e next) := by
  rw [Tables.enter?, counters_getElem? closed h, enter]
  cases a.counter next <;> rfl

omit closed in
theorem take?_eq {e : Nat} (h : a.Accepts e name) (s : State) :
    a.tables.take? e s = some (a.term? e, s) := by
  obtain ⟨term, hterm, -⟩ := h
  obtain ⟨entry, he, rfl⟩ := Option.map_eq_some_iff.1 hterm
  have he' : a.tables.entries[e]? = some entry := he
  rw [Tables.take?, he', hterm]
  rfl

/-- What was chosen can be taken. -/
theorem proceed?_eq {state e next least : Nat} (h : a.choose state name least = some (e, next))
    (s : State) : a.tables.proceed? s e next = some (a.term? e, a.enter s e next) := by
  obtain ⟨-, ht, ha, -⟩ := of_choose_eq_some h
  rw [Tables.proceed?, enter?_eq closed (target_lt closed ht)]
  exact take?_eq ha _

/-- In a state that has a row, a step finds all that it looks up. -/
theorem step?_eq (h : s.current < a.stateCount) (name : Name) :
    a.tables.step? s name = some ((a.step s name).1.bind a.term?, (a.step s name).2) := by
  obtain ⟨row, hi, hrow⟩ := exists_row closed h
  have hcounter := counters_getElem? closed h
  have hchoose := choose?_eq hi hrow name
  have hstep := a.stepsTo_step s name
  generalize a.step s name = result at hstep ⊢
  unfold Tables.step?
  simp only [hi, hcounter, hchoose, Option.bind_eq_bind, Option.bind_some]
  cases hstep with
  | failed hf => simp [hf]
  | refused hf hc => simp [hf, hc]
  | uncounted hf hc hctr => simp [hf, hc, hctr, proceed?_eq closed hc]
  | missing hf hc hctr hne hm => simp [hf, hc, hctr, hne, hm]
  | left hf hc hctr hne hm => simp [hf, hc, hctr, hne, hm, proceed?_eq closed hc]
  | counted hf hc hctr hx =>
    obtain ⟨-, -, ha, -⟩ := of_choose_eq_some hc
    simp [hf, hc, hctr, hx, take?_eq ha]
  | passed hf hc hctr hx hc' => simp [hf, hc, hctr, hx, hc', proceed?_eq closed hc']
  | exceeded hf hc hctr hx hc' => simp [hf, hc, hctr, hx, hc']

/-- A step leads to a state that has a row. -/
theorem step_current_lt (h : s.current < a.stateCount) (name : Name) :
    (a.step s name).2.current < a.stateCount := by
  rcases a.step_current_cases s name with he | ⟨e, ht⟩
  · exact he ▸ h
  · exact target_lt closed ht

/-- A run stays in states that have a row, and no access fails. -/
theorem foldlM_step?_eq (names : List Name) (h : s.current < a.stateCount) :
    (names.foldl (fun s name => (a.step s name).2) s).current < a.stateCount ∧
      names.foldlM (fun s name => (a.tables.step? s name).map (·.2)) s =
        some (names.foldl (fun s name => (a.step s name).2) s) := by
  induction names generalizing s with
  | nil => exact ⟨h, rfl⟩
  | cons name names ih =>
    rw [List.foldlM_cons, step?_eq closed h]
    exact ih (step_current_lt closed h name)

theorem isComplete?_eq (h : s.current < a.stateCount) :
    a.tables.isComplete? s = some (a.isComplete s) := by
  have hcounter := counters_getElem? closed h
  have hfinal : a.tables.finals[s.current]?.getD false = a.isFinal s.current := by
    unfold isFinal
    have hfinals : a.tables.finals[s.current]? =
        a.states[s.current]?.map fun s => decide (a.leafCount ∈ s) := Array.getElem?_map
    rw [hfinals]
    cases a.states[s.current]? <;> rfl
  unfold Tables.isComplete? isComplete
  rw [hfinal, hcounter]
  cases s.failed
  · cases a.isFinal s.current
    · rfl
    · cases a.counter s.current <;> rfl
  · rfl

omit closed in
theorem offer?_eq {row : Array (Option Nat)} (hi : a.rows[s.current]? = some row)
    (hrow : row.size = a.entries.size) {x : Option Nat × Nat} (hx : x ∈ row.toList.zipIdx) :
    a.tables.offer? (a.counter s.current) s x = some (a.offered s x.2) := by
  obtain ⟨target, e⟩ := x
  have hcolumn : row[e]? = some target := by simpa using List.mem_zipIdx_iff_getElem?.1 hx
  have he : e < a.entries.size := hrow ▸ (Array.getElem?_eq_some_iff.1 hcolumn).1
  have hentry : a.tables.entries[e]? = some a.entries[e] := Array.getElem?_eq_getElem he
  have hterm : a.term? e = some a.entries[e].term := by simp [term?, he]
  rw [offered, target_eq_row hi, hcolumn]
  cases target with
  | none => rfl
  | some next =>
    simp only [Tables.offer?, Option.join_some, hentry, hterm, Option.map_some]
    change (if a.countAllows s next then _ else _) = _
    split <;> rfl

theorem expected?_eq (h : s.current < a.stateCount) :
    a.tables.expected? s = some (a.expected s) := by
  obtain ⟨row, hi, hrow⟩ := exists_row closed h
  have hcounter := counters_getElem? closed h
  have hterms : row.toList.zipIdx.map (fun x => a.offered s x.2) =
      (List.range a.entries.size).map (a.offered s) := by
    rw [← hrow, ← Array.length_toList, List.range_eq_range', ← List.zipIdx_map_snd, List.map_map]
    rfl
  rw [Tables.expected?, hi, hcounter]
  simp only [Option.bind_eq_bind, Option.bind_some,
    mapM_eq_some fun x hx => offer?_eq hi hrow hx, hterms]
  rw [List.filterMap_map]
  rfl

end Running

/-- An automaton can be made from any tree, once its leaves are numbered: the search for states ends
and no access fails on the way. The tables that are made are closed, and whatever children a run has
met, it finds in them all that it looks up. -/
theorem construct_closed (t : Tree) (isApproximate : Bool) :
    let a := ofTree t.numbered t.leafCount isApproximate
    t.number 0 = (t.numbered, t.leafCount) ∧
      (∀ k, construct? (1 <<< (t.leafCount + 1) + k + 1) t.numbered t.leafCount =
        some a.tables) ∧
      a.tables.IsClosed ∧
      ∀ names : List Name,
        let s := names.foldl (fun s name => (a.step s name).2) start
        s.current < a.stateCount ∧ a.tables.run? names = some s ∧
          (∀ name, a.tables.step? s name =
            some ((a.step s name).1.bind a.term?, (a.step s name).2)) ∧
          a.tables.isComplete? s = some (a.isComplete s) ∧
          a.tables.expected? s = some (a.expected s) := by
  intro a
  have closed := isClosed_tables t.numbered t.leafCount isApproximate
  refine ⟨?_, fun k => ?_, closed, fun names => ?_⟩
  · exact Prod.ext rfl ((Tree.number_snd t 0).trans (Nat.zero_add _))
  · have hfits : t.numbered.Fits t.leafCount := Tree.fits_of_positions (t.positions_number 0)
    exact construct?_eq hfits isApproximate (by omega)
  · obtain ⟨hlt, hrun⟩ := foldlM_step?_eq closed names (s := start) closed.pos
    exact ⟨hlt, hrun, step?_eq closed hlt, isComplete?_eq closed hlt, expected?_eq closed hlt⟩

end ContentAutomata.Automaton
