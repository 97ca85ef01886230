import ContentAutomata.Proofs.Automaton.Exploration
import ContentAutomata.Proofs.Automaton.Letters
import ContentAutomata.Proofs.Automaton.Steps
import ContentAutomata.Proofs.Tree.Order

/-!
# What the states of an automaton stand for

A state is a set of positions, and what the positions stand for are leaves, or the end of the
content. `Offers t a i next` says that state `i` of the automaton `a` of the tree `t` holds just
what `next` allows to come next. Through it everything about the automaton is said in terms of what
follows what in the tree.

Results:
* `offers_start`: the first state offers what words begin with;
* `target_cases`: an entry can be taken where a leaf of its particle is offered, and leads to what
  comes after these leaves;
* `target_isSome_iff`, `offers_target`: the same where particles are introduced in order;
* `offers_unique`: no two states offer the same;
* `exists_source`: every state but the first is reached from an earlier one.
-/
namespace ContentAutomata

namespace Tree

/-- The automaton of a tree whose leaves are numbered from 0. -/
abbrev automaton (t : Tree) (isApproximate : Bool) : Automaton :=
  .ofTree t t.leafCount isApproximate

/-- A tree whose states can be told: its leaves are numbered from 0, and it holds no `all` node. -/
structure IsNumbered (t : Tree) : Prop where
  isAllFree : t.IsAllFree
  positions : t.leaves.map (·.1.position) = List.range' 0 t.leafCount

/-- A tree that an automaton can be made from: its leaves are numbered from 0, and stand for the
terms in the order in which these are met. -/
structure IsReady (t : Tree) (terms : List Term) : Prop extends IsNumbered t where
  lettered : Lettered 0 t.leaves terms

namespace IsNumbered

variable {t : Tree}

theorem fits (h : t.IsNumbered) : t.Fits t.leafCount := fits_of_positions h.positions

theorem position_lt (h : t.IsNumbered) : ∀ x ∈ t.leaves, x.1.position < t.leafCount :=
  fun x hx => h.fits x.1 (List.mem_map_of_mem hx)

theorem ascends (h : t.IsNumbered) : t.Ascends := by
  unfold Ascends
  rw [h.positions]
  exact List.pairwise_lt_range'

theorem nodup (h : t.IsNumbered) : (t.leaves.map (·.1)).Nodup := by
  apply List.Nodup.of_map (·.position)
  rw [List.map_map]
  exact h.ascends.imp Nat.ne_of_lt

/-- Leaves at the same position are the same, and so is their range. -/
theorem eq_of_position (h : t.IsNumbered) {x y : Leaf × Option Multiplicity} (hx : x ∈ t.leaves)
    (hy : y ∈ t.leaves) (he : x.1.position = y.1.position) : x = y := by
  have hnodup : (t.leaves.map (·.1.position)).Nodup := h.ascends.imp Nat.ne_of_lt
  exact List.inj_on_of_nodup_map hnodup hx hy he

theorem leaf_eq_of_position (h : t.IsNumbered) {k l : Leaf} (hk : t.Has k) (hl : t.Has l)
    (he : k.position = l.position) : k = l := by
  obtain ⟨x, hx, rfl⟩ := List.mem_map.1 hk
  obtain ⟨y, hy, rfl⟩ := List.mem_map.1 hl
  rw [h.eq_of_position hx hy he]

theorem code_injective (h : t.IsNumbered) {y z : Option Leaf} (hy : ∀ k, y = some k → t.Has k)
    (hz : ∀ k, z = some k → t.Has k) (he : code t.leafCount y = code t.leafCount z) : y = z := by
  cases y with
  | none =>
    cases z with
    | none => rfl
    | some l => exact absurd he.symm (Nat.ne_of_lt (h.fits l (hz l rfl)))
  | some k =>
    cases z with
    | none => exact absurd he (Nat.ne_of_lt (h.fits k (hy k rfl)))
    | some l => rw [h.leaf_eq_of_position (hy k rfl) (hz l rfl) he]

end IsNumbered

theorem isNumbered_numbered {t : Tree} (hf : (t.number 0).1.IsAllFree) :
    (t.number 0).1.IsNumbered :=
  ⟨hf, by rw [leafCount, length_leaves_number, positions_number]⟩

theorem isReady_numbered {t : Tree} {terms : List Term} (hf : (t.number 0).1.IsAllFree)
    (hl : Lettered 0 t.leaves terms) : (t.number 0).1.IsReady terms :=
  ⟨isNumbered_numbered hf, hl.number 0⟩

end Tree

namespace Automaton

open ContentAutomata.Tree

/-! ## The tables of an automaton -/

/-- The positions that may come next in a state of the automaton of a tree. -/
def stateSet (t : Tree) (n : Nat) (isApproximate : Bool) (i : Nat) : Option (PositionSet (n + 1)) :=
  (ofTree t n isApproximate).states[i]?

theorem isFinal_iff_stateSet {t : Tree} {n i : Nat} {isApproximate : Bool} :
    (ofTree t n isApproximate).isFinal i = true ↔
      ∃ s, stateSet t n isApproximate i = some s ∧ n ∈ s := by
  unfold isFinal stateSet
  cases (ofTree t n isApproximate).states[i]? with
  | none => simp
  | some s =>
    rw [decide_eq_true_eq]
    constructor
    · exact fun h => ⟨s, rfl, h⟩
    · intro hx
      obtain ⟨_, ⟨⟩, h⟩ := hx
      exact h

theorem explored_ofTree (t : Tree) (n : Nat) (isApproximate : Bool) :
    ∃ table : StateTable (n + 1), (∀ i, stateSet t n isApproximate i = table.order[i]?) ∧
      table.order[0]? = some (initial t n) ∧
      (ofTree t n isApproximate).rows.size = table.order.size ∧
      Explored (followWithEnd t n) ((lettersOf (n + 1) t).toList.map (·.2)) table
        (ofTree t n isApproximate).rows := by
  let table₀ := ((StateTable.empty (n := n + 1)).intern (initial t n)).2
  -- the first set is entered into an empty table
  have hfirst := (StateTable.empty (n := n + 1)).intern_getElem? (initial t n)
  have hone : table₀.order.size = 1 ∧ table₀.order[0]? = some (initial t n) := by
    rcases (StateTable.empty (n := n + 1)).size_intern (initial t n) with hs | ⟨hs, hi⟩
    · have hlt := (Array.getElem?_eq_some_iff.1 hfirst).1
      rw [hs] at hlt
      exact absurd hlt (Nat.not_lt_zero _)
    · rw [hi] at hfirst
      exact ⟨hs, hfirst⟩
  have h₀ : Explored (followWithEnd t n) ((lettersOf (n + 1) t).toList.map (·.2)) table₀ #[] :=
    ⟨Nat.zero_le _, by simp, fun hpos hlt => by omega⟩
  obtain ⟨hexp, hsize, hext⟩ := explored_explore (1 <<< (n + 1)) h₀ (Nat.le_add_left _ _)
  exact ⟨_, fun _ => rfl, hext.getElem? hone.2, hsize, hexp⟩

/-- Where an entry leads to is worked out by a move. -/
theorem target_rel {t : Tree} {n i : Nat} {isApproximate : Bool} {s : PositionSet (n + 1)}
    (hs : stateSet t n isApproximate i = some s) (e : Nat) :
    Option.Rel (fun next j => stateSet t n isApproximate j = some next)
      (((lettersOf (n + 1) t)[e]?.map (·.2)).bind (move (followWithEnd t n) s))
      ((ofTree t n isApproximate).target i e) := by
  obtain ⟨table, hstates, -, hsize, hexp⟩ := explored_ofTree t n isApproximate
  rw [hstates] at hs
  have hi := hsize ▸ (Array.getElem?_eq_some_iff.1 hs).1
  have hrow := (hexp.isRow (Array.getElem?_eq_getElem hi) hs).getElem? e
  simp only [hstates]
  simpa [target, Array.getElem?_eq_getElem hi] using hrow

/-- The particle of an entry. -/
def particle? (a : Automaton) (e : Nat) : Option Nat := a.entries[e]?.map (·.particle)

theorem particle?_ofTree {t : Tree} {n e : Nat} {isApproximate : Bool} :
    (ofTree t n isApproximate).particle? e =
      (lettersOf (n + 1) t)[e]?.map (·.1.particle) := by
  have hentries : (ofTree t n isApproximate).entries = (lettersOf (n + 1) t).map (·.1) := rfl
  rw [particle?, hentries, Array.getElem?_map, Option.map_map]
  rfl

/-- What is no entry leads nowhere. -/
theorem target_eq_none {t : Tree} {n i e : Nat} {isApproximate : Bool} {s : PositionSet (n + 1)}
    (hs : stateSet t n isApproximate i = some s)
    (he : (ofTree t n isApproximate).particle? e = none) :
    (ofTree t n isApproximate).target i e = none := by
  rw [particle?_ofTree, Option.map_eq_none_iff] at he
  have hrel := target_rel hs e
  rw [he] at hrel
  generalize (ofTree t n isApproximate).target i e = target at hrel ⊢
  cases hrel
  rfl

theorem mem_foldl_union {n : Nat} {f : Nat → PositionSet n} {ps : List Nat} {s : PositionSet n}
    {q : Nat} :
    q ∈ ps.foldl (fun next p => next ∪ f p) s ↔ q ∈ s ∨ ∃ p ∈ ps, q ∈ f p := by
  induction ps generalizing s with
  | nil => simp
  | cons p ps ih => simp [ih, or_assoc]

theorem move_eq_none_iff {n : Nat} {follow : Tree.FollowTable n} {s positions : PositionSet n} :
    move follow s positions = none ↔ ∀ p, p ∈ s → p ∉ positions := by
  simp only [move]
  split
  · rename_i h
    simpa [PositionSet.isEmpty_iff] using h
  · rename_i h
    rw [PositionSet.isEmpty_iff] at h
    simpa using h

theorem exists_of_move {n : Nat} {follow : Tree.FollowTable n} {s positions next : PositionSet n}
    (h : move follow s positions = some next) : ∃ p, p ∈ s ∧ p ∈ positions := by
  by_contra hno
  rw [move_eq_none_iff.2 fun p hp hp' => hno ⟨p, hp, hp'⟩] at h
  cases h

theorem mem_of_move {n : Nat} {follow : Tree.FollowTable n} {s positions next : PositionSet n}
    (h : move follow s positions = some next) (q : Nat) :
    q ∈ next ↔ ∃ p, p ∈ s ∧ p ∈ positions ∧ q ∈ follow.after p := by
  simp only [move] at h
  split at h
  · cases h
  · obtain rfl := Option.some.inj h
    rw [mem_foldl_union]
    simp [PositionSet.mem_members, and_assoc]

/-! ## What states offer -/

section Offers

variable {t : Tree} {terms : List Term} {isApproximate : Bool} {i j e : Nat}
  {next next' : Option Leaf → Prop}

/-- State `i` of the automaton of the tree holds what `next` allows. -/
structure Offers (t : Tree) (isApproximate : Bool) (i : Nat) (next : Option Leaf → Prop) :
    Prop where
  has : ∀ l, next (some l) → t.Has l
  mem : ∃ s, stateSet t t.leafCount isApproximate i = some s ∧
    ∀ q, q ∈ s ↔ ∃ y, code t.leafCount y = q ∧ next y

theorem Offers.congr (h : Offers t isApproximate i next) (he : ∀ y, next y ↔ next' y) :
    Offers t isApproximate i next' := by
  obtain rfl : next = next' := funext fun y => propext (he y)
  exact h

theorem Offers.lt_stateCount (h : Offers t isApproximate i next) :
    i < (t.automaton isApproximate).stateCount := by
  obtain ⟨table, hstates, -, hsize, -⟩ := explored_ofTree t t.leafCount isApproximate
  obtain ⟨s, hs, -⟩ := h.mem
  rw [hstates] at hs
  unfold stateCount
  rw [hsize]
  exact (Array.getElem?_eq_some_iff.1 hs).1

/-- No two states offer the same. -/
theorem offers_unique (h : Offers t isApproximate i next) (h' : Offers t isApproximate j next) :
    i = j := by
  obtain ⟨table, hstates, -⟩ := explored_ofTree t t.leafCount isApproximate
  obtain ⟨s, hs, hmem⟩ := h.mem
  obtain ⟨s', hs', hmem'⟩ := h'.mem
  obtain rfl : s = s' := PositionSet.ext fun q => (hmem q).trans (hmem' q).symm
  rw [hstates] at hs hs'
  exact table.number_unique hs hs'

section Numbered

variable (numbered : t.IsNumbered)

include numbered

theorem Offers.mem_code (h : Offers t isApproximate i next) {s : PositionSet (t.leafCount + 1)}
    (hs : stateSet t t.leafCount isApproximate i = some s) {y : Option Leaf}
    (hy : ∀ k, y = some k → t.Has k) : code t.leafCount y ∈ s ↔ next y := by
  obtain ⟨s', hs', hmem⟩ := h.mem
  obtain rfl := Option.some.inj (hs.symm.trans hs')
  rw [hmem]
  constructor
  · intro hx
    obtain ⟨z, hz, hn⟩ := hx
    rwa [← numbered.code_injective (fun k hk => h.has k (hk ▸ hn)) hy hz]
  · exact fun hn => ⟨y, rfl, hn⟩

/-- A state determines what it offers. -/
theorem Offers.iff (h : Offers t isApproximate i next) (h' : Offers t isApproximate i next')
    (y : Option Leaf) : next y ↔ next' y := by
  obtain ⟨s, hs, -⟩ := h.mem
  by_cases hy : ∀ k, y = some k → t.Has k
  · rw [← h.mem_code numbered hs hy, h'.mem_code numbered hs hy]
  · refine iff_of_false (fun hn => hy ?_) (fun hn => hy ?_)
    · intro k hx
      subst hx
      exact h.has k hn
    · intro k hx
      subst hx
      exact h'.has k hn

/-- The first state offers what words begin with. -/
theorem offers_start : Offers t isApproximate 0 (t.Next none) := by
  obtain ⟨table, hstates, hfirst, -⟩ := explored_ofTree t t.leafCount isApproximate
  exact ⟨fun l => has_of_next_right, _, (hstates 0).trans hfirst,
    fun q => mem_initial numbered.isAllFree numbered.fits⟩

theorem isFinal_iff (h : Offers t isApproximate i next) :
    (t.automaton isApproximate).isFinal i = true ↔ next none := by
  obtain ⟨s, hs, -⟩ := h.mem
  rw [← h.mem_code numbered hs (y := none) (by simp), isFinal_iff_stateSet]
  simp [hs, code]

theorem gathered_of_numbered : Gathered t.leaves (lettersOf (t.leafCount + 1) t) :=
  gathered_lettersOf fun x hx => Nat.lt_succ_of_lt (numbered.position_lt x hx)

/-- Which of the positions that may come next belong to an entry. -/
theorem mem_and_mem_iff (h : Offers t isApproximate i next) {s : PositionSet (t.leafCount + 1)}
    (hs : stateSet t t.leafCount isApproximate i = some s) {letter : Entry × PositionSet _}
    (hl : (lettersOf (t.leafCount + 1) t)[e]? = some letter) (p : Nat) :
    p ∈ s ∧ p ∈ letter.2 ↔
      ∃ k, next (some k) ∧ k.particle = letter.1.particle ∧ k.position = p := by
  have hg := gathered_of_numbered numbered
  rw [hg.positions hl]
  constructor
  · intro hy
    obtain ⟨hp, x, hx, he, rfl⟩ := hy
    have hhas : t.Has x.1 := List.mem_map_of_mem hx
    have hy : ∀ k, some x.1 = some k → t.Has k := fun _ hk => Option.some.inj hk ▸ hhas
    exact ⟨x.1, (h.mem_code numbered hs hy).1 hp, he, rfl⟩
  · intro hy
    obtain ⟨k, hk, he, rfl⟩ := hy
    have hhas := h.has k hk
    refine ⟨(h.mem_code numbered hs (y := some k) fun _ hk => Option.some.inj hk ▸ hhas).2 hk, ?_⟩
    obtain ⟨x, hx, rfl⟩ := List.mem_map.1 hhas
    exact ⟨x, hx, he, rfl⟩

/-- What follows the positions of an entry is what follows its leaves. -/
theorem mem_after_iff (h : Offers t isApproximate i next)
    {s positions : PositionSet (t.leafCount + 1)}
    (hmet : ∀ p, p ∈ s ∧ p ∈ positions ↔ ∃ k, next (some k) ∧ k.particle = e ∧ k.position = p)
    {q : Nat} :
    (∃ p, p ∈ s ∧ p ∈ positions ∧ q ∈ (followWithEnd t t.leafCount).after p) ↔
      ∃ y, code t.leafCount y = q ∧ ∃ k, next (some k) ∧ k.particle = e ∧ t.Next (some k) y := by
  simp only [mem_followWithEnd numbered.isAllFree numbered.fits, AtPosition]
  constructor
  · intro hx
    obtain ⟨_, hp, hp', k, rfl, y, rfl, hn⟩ := hx
    obtain ⟨k', hk', hke, hpos⟩ := (hmet k.position).1 ⟨hp, hp'⟩
    obtain rfl := numbered.leaf_eq_of_position (h.has k' hk') (has_of_next_left hn) hpos
    exact ⟨y, rfl, k', hk', hke, hn⟩
  · intro hx
    obtain ⟨y, rfl, k, hk, hke, hn⟩ := hx
    obtain ⟨hp, hp'⟩ := (hmet k.position).2 ⟨k, hk, hke, rfl⟩
    exact ⟨k.position, hp, hp', k, rfl, y, rfl, hn⟩

/-- Where an entry leads to from a state. -/
theorem target_cases (h : Offers t isApproximate i next) {p : Nat}
    (he : (t.automaton isApproximate).particle? e = some p) :
    ((t.automaton isApproximate).target i e = none ∧ ∀ k, next (some k) → k.particle ≠ p) ∨
      ∃ j, (t.automaton isApproximate).target i e = some j ∧
        (∃ k, next (some k) ∧ k.particle = p) ∧ Offers t isApproximate j fun y =>
          ∃ k, next (some k) ∧ k.particle = p ∧ t.Next (some k) y := by
  rw [particle?_ofTree] at he
  obtain ⟨letter, hl, rfl⟩ := Option.map_eq_some_iff.1 he
  obtain ⟨s, hs, -⟩ := h.mem
  have hrel := target_rel hs e
  generalize (t.automaton isApproximate).target i e = target at hrel ⊢
  have hmet := mem_and_mem_iff numbered h hs hl
  rw [hl, Option.map_some, Option.bind_some] at hrel
  cases hm : move (followWithEnd t t.leafCount) s letter.2 with
  | none =>
    rw [hm] at hrel
    cases hrel
    refine .inl ⟨rfl, fun k hk hke => ?_⟩
    obtain ⟨hp, hp'⟩ := (hmet k.position).2 ⟨k, hk, hke, rfl⟩
    exact move_eq_none_iff.1 hm _ hp hp'
  | some next' =>
    rw [hm] at hrel
    cases hrel with
    | some hj =>
      refine .inr ⟨_, rfl, ?_, fun l ⟨_, _, _, hn⟩ => has_of_next_right hn, next', hj,
        fun q => ?_⟩
      · obtain ⟨p, hp, hp'⟩ := exists_of_move hm
        obtain ⟨k, hk, hke, -⟩ := (hmet p).1 ⟨hp, hp'⟩
        exact ⟨k, hk, hke⟩
      · rw [mem_of_move hm]
        exact mem_after_iff numbered h hmet

end Numbered

/-- Every state but the first is reached from an earlier one. -/
theorem exists_source (hpos : 0 < j)
    (hj : j < (t.automaton isApproximate).stateCount) :
    ∃ i e, i < j ∧ (t.automaton isApproximate).target i e = some j := by
  obtain ⟨table, -, -, hsize, hexp⟩ := explored_ofTree t t.leafCount isApproximate
  unfold stateCount at hj
  rw [hsize] at hj
  obtain ⟨i, row, hij, hi, hmem⟩ := hexp.found hpos hj
  obtain ⟨e, he, hget⟩ := List.getElem_of_mem hmem
  refine ⟨i, e, hij, ?_⟩
  simp only [Array.length_toList, Array.getElem_toList] at he hget
  simp [target, hi, he, hget]

section Ready

variable (ready : t.IsReady terms)

include ready

/-- An entry stands under the number of its particle. -/
theorem particle?_of_ready (isApproximate : Bool) (e : Nat) :
    (t.automaton isApproximate).particle? e = if e < terms.length then some e else none := by
  have hp := particlesOf_lettersOf (n := t.leafCount + 1) ready.lettered.introduces
  rw [particle?_ofTree, ← getElem?_particlesOf, hp, Nat.zero_add]
  split
  · rename_i h
    exact List.getElem?_range h
  · rename_i h
    simpa using h

/-- What an entry can take, and what it leads to. -/
theorem target_cases_of_ready (h : Offers t isApproximate i next) (e : Nat) :
    ((t.automaton isApproximate).target i e = none ∧ ∀ k, next (some k) → k.particle ≠ e) ∨
      ∃ j, (t.automaton isApproximate).target i e = some j ∧
        (∃ k, next (some k) ∧ k.particle = e) ∧ Offers t isApproximate j fun y =>
          ∃ k, next (some k) ∧ k.particle = e ∧ t.Next (some k) y := by
  have hp := particle?_of_ready ready isApproximate e
  split at hp
  · exact target_cases ready.toIsNumbered h hp
  · rename_i hge
    obtain ⟨s, hs, -⟩ := h.mem
    refine .inl ⟨target_eq_none hs hp, fun k hk hke => hge ?_⟩
    obtain ⟨x, hx, rfl⟩ := List.mem_map.1 (h.has k hk)
    have hlt := ready.lettered.introduces.lt_of_mem _ (List.mem_map_of_mem hx)
    omega

/-- An entry can be taken where one of its leaves is offered. -/
theorem target_isSome_iff (h : Offers t isApproximate i next) :
    ((t.automaton isApproximate).target i e).isSome = true ↔
      ∃ k, next (some k) ∧ k.particle = e := by
  rcases target_cases_of_ready ready h e with ⟨ht, hne⟩ | ⟨j, ht, hk, -⟩
  · simp only [ht, Option.isSome_none, Bool.false_eq_true, false_iff, not_exists, not_and]
    exact hne
  · simpa [ht] using hk

/-- An entry leads to what comes after its leaves. -/
theorem offers_target (h : Offers t isApproximate i next)
    (ht : (t.automaton isApproximate).target i e = some j) :
    Offers t isApproximate j fun y => ∃ k, next (some k) ∧ k.particle = e ∧ t.Next (some k) y := by
  rcases target_cases_of_ready ready h e with ⟨hn, -⟩ | ⟨j', ht', -, ho⟩
  · cases hn.symm.trans ht
  · obtain rfl := Option.some.inj (ht'.symm.trans ht)
    exact ho

/-- What the entries are. -/
theorem entry_cases {entry : Entry}
    (he : (t.automaton isApproximate).entries[e]? = some entry) :
    ∃ x ∈ t.leaves, x.1.particle = e ∧ entry = ⟨x.1.term, e, x.2⟩ ∧ terms[e]? = some x.1.term := by
  have hp := particle?_of_ready ready isApproximate e
  rw [particle?, he, Option.map_some] at hp
  have hmap : (t.automaton isApproximate).entries =
      (lettersOf (t.leafCount + 1) t).map (·.1) := rfl
  rw [hmap, Array.getElem?_map, Option.map_eq_some_iff] at he
  obtain ⟨letter, hl, rfl⟩ := he
  obtain ⟨x, hx, hentry⟩ := (gathered_of_numbered ready.toIsNumbered).entry hl
  have hpart : x.1.particle = e := by
    rw [hentry] at hp
    split at hp
    · exact Option.some.inj hp
    · cases hp
  obtain ⟨i, hi, hterm⟩ := ready.lettered.term_eq x hx
  exact ⟨x, hx, hpart, hpart ▸ hentry, by rwa [← hpart, hi, Nat.zero_add]⟩

/-- There is one entry for each term. -/
theorem size_entries : (t.automaton isApproximate).entries.size = terms.length := by
  have hp := particlesOf_lettersOf (n := t.leafCount + 1) ready.lettered.introduces
  have hmap : (t.automaton isApproximate).entries =
      (lettersOf (t.leafCount + 1) t).map (·.1) := rfl
  rw [hmap, Array.size_map]
  simpa [particlesOf] using congrArg List.length hp

end Ready

end Offers

/-! ## Counters -/

section Counter

variable {t : Tree} {isApproximate : Bool} {n i : Nat}

/-- The range that the entry is counted in. -/
def occurs? (a : Automaton) (e : Nat) : Option Multiplicity := a.entries[e]?.bind (·.occurs)

theorem target_eq_row {a : Automaton} {row : Array (Option Nat)} (h : a.rows[i]? = some row)
    (e : Nat) : a.target i e = row[e]?.join := by
  simp [target, h]

theorem counter_eq {row : Array (Option Nat)} (h : (ofTree t n isApproximate).rows[i]? = some row) :
    (ofTree t n isApproximate).counter i =
      counterOf (ofTree t n isApproximate).entries i row := by
  have hcounters : (ofTree t n isApproximate).counters =
      (ofTree t n isApproximate).rows.mapIdx (counterOf (ofTree t n isApproximate).entries) := rfl
  unfold counter
  rw [hcounters, Array.getElem?_mapIdx, h]
  rfl

theorem rows_of_counter (h : ((ofTree t n isApproximate).counter i).isSome = true) :
    ∃ row, (ofTree t n isApproximate).rows[i]? = some row := by
  have hcounters : (ofTree t n isApproximate).counters =
      (ofTree t n isApproximate).rows.mapIdx (counterOf (ofTree t n isApproximate).entries) := rfl
  cases hrow : (ofTree t n isApproximate).rows[i]? with
  | none => simp [counter, hcounters, Array.getElem?_mapIdx, hrow] at h
  | some row => exact ⟨row, rfl⟩

/-- What is counted is an entry with a range that leads back. -/
theorem of_counter_eq_some {c : Counter} (h : (ofTree t n isApproximate).counter i = some c) :
    (ofTree t n isApproximate).target i c.entry = some i ∧
      (ofTree t n isApproximate).occurs? c.entry = some c.occurs := by
  obtain ⟨row, hrow⟩ := rows_of_counter (by rw [h]; rfl)
  rw [counter_eq hrow, counterOf, List.range_eq_range'] at h
  obtain ⟨e, -, he, -⟩ := exists_of_findSome?_range' h
  have ht := target_eq_row hrow e
  have ho : (ofTree t n isApproximate).occurs? e =
      (ofTree t n isApproximate).entries[e]?.bind (·.occurs) := rfl
  rw [← ht, ← ho] at he
  split at he
  · rename_i target occurs ht' ho'
    split at he
    · rename_i heq
      obtain rfl := Option.some.inj he
      exact ⟨heq ▸ ht', ho'⟩
    · cases he
  · cases he

/-- Where an entry with a range leads back, something is counted. -/
theorem counter_isSome {e : Nat} (ht : (ofTree t n isApproximate).target i e = some i)
    {m : Multiplicity} (ho : (ofTree t n isApproximate).occurs? e = some m) :
    ((ofTree t n isApproximate).counter i).isSome = true := by
  have hlt : e < (ofTree t n isApproximate).entries.size := by
    obtain ⟨entry, he, -⟩ := Option.bind_eq_some_iff.1 ho
    exact (Array.getElem?_eq_some_iff.1 he).1
  cases hrow : (ofTree t n isApproximate).rows[i]? with
  | none => simp [target, hrow] at ht
  | some row =>
    rw [target_eq_row hrow] at ht
    rw [counter_eq hrow, counterOf, List.findSome?_isSome_iff]
    unfold occurs? at ho
    exact ⟨e, List.mem_range.2 hlt, by simp [ht, ho]⟩

end Counter

end Automaton

end ContentAutomata
