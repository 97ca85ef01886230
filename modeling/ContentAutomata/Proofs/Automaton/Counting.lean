import ContentAutomata.Proofs.Automaton.States
import ContentAutomata.Proofs.Run.Tracking

/-!
# The automaton of a compact tree

In a compact tree every particle has one leaf, so what children were attributed to tells which leaf
was read last. The state of the automaton offers what comes after this leaf, and the counter says
how often it was read in a row, if it is the leaf that is counted in the state. If it is another
leaf, then the state is one that was reached without having begun to count; the counter stands at
zero, and the range of the counted leaf has no lower bound.

Results:
* `leaf_of_counter`: what is counted is a leaf after which the same may come;
* `permits_iff`: the counter says whether a leaf may be read, or the content may end;
* `simulates_counting`: the automaton of a compact tree tracks the language of the tree.
-/
namespace ContentAutomata

namespace Tree

/-- The range that a leaf of the tree is counted in. -/
def rangeOf (t : Tree) (l : Leaf) : Option Multiplicity :=
  (t.leaves.find? (·.1 == l)).bind (·.2)

/-- A compact tree that an automaton can be made from, in which each particle has one leaf. -/
structure IsCounting (t : Tree) (terms : List Term) : Prop extends IsReady t terms where
  isCompact : t.IsCompact
  particle_eq : ∀ x ∈ t.leaves, x.1.particle = x.1.position

namespace IsCounting

variable {t : Tree} {terms : List Term}

theorem rangeOf_eq (h : t.IsCounting terms) {x : Leaf × Option Multiplicity} (hx : x ∈ t.leaves) :
    t.rangeOf x.1 = x.2 := by
  have hsome : (t.leaves.find? (·.1 == x.1)).isSome = true :=
    List.find?_isSome.2 ⟨x, hx, by simp⟩
  obtain ⟨y, hy⟩ := Option.isSome_iff_exists.1 hsome
  have hyx : y.1 = x.1 := by simpa using List.find?_some hy
  obtain rfl := h.eq_of_position (List.mem_of_find?_eq_some hy) hx (by rw [hyx])
  unfold rangeOf
  rw [hy]
  rfl

theorem indexes (h : t.IsCounting terms) : Indexes t.rangeOf t := ⟨h.nodup, fun _ => h.rangeOf_eq⟩

theorem mem_leaves_of_has (h : t.IsCounting terms) {l : Leaf} (hl : t.Has l) :
    (l, t.rangeOf l) ∈ t.leaves := by
  obtain ⟨x, hx, rfl⟩ := List.mem_map.1 hl
  rwa [h.rangeOf_eq hx]

theorem particle_eq_position (h : t.IsCounting terms) {l : Leaf} (hl : t.Has l) :
    l.particle = l.position := by
  obtain ⟨x, hx, rfl⟩ := List.mem_map.1 hl
  exact h.particle_eq x hx

/-- A particle has one leaf. -/
theorem eq_of_particle (h : t.IsCounting terms) {k l : Leaf} (hk : t.Has k) (hl : t.Has l)
    (he : k.particle = l.particle) : k = l :=
  h.leaf_eq_of_position hk hl (by rw [← h.particle_eq_position hk, he, h.particle_eq_position hl])

/-- Leaves that loop and are followed by the same are the same. -/
theorem eq_of_next_iff (h : t.IsCounting terms) {k l : Leaf} (hk : t.Next (some k) (some k))
    (hl : t.Next (some l) (some l)) (he : ∀ y, t.Next (some k) y ↔ t.Next (some l) y) : k = l :=
  h.leaf_eq_of_position (has_of_next_left hk) (has_of_next_left hl)
    (Nat.le_antisymm (h.isCompact.le_of_next h.ascends ((he _).2 hl))
      (h.isCompact.le_of_next h.ascends ((he _).1 hk)))

end IsCounting

end Tree

namespace Automaton

open ContentAutomata.Tree

section Counting

variable {t : Tree} {terms : List Term} {isApproximate : Bool} {i j e : Nat} {x : Option Leaf}
  (ready : t.IsCounting terms)

include ready

/-- An entry leads to what comes after its leaf. -/
theorem offers_target_leaf {k : Leaf} (h : Offers t isApproximate i (t.Next x))
    (hk : t.Next x (some k))
    (ht : (t.automaton isApproximate).target i k.particle = some j) :
    Offers t isApproximate j (t.Next (some k)) := by
  refine (offers_target ready.toIsReady h ht).congr fun y => ⟨?_, fun hn => ⟨k, hk, rfl, hn⟩⟩
  intro hx
  obtain ⟨k', hk', he, hn⟩ := hx
  rwa [ready.eq_of_particle (has_of_next_right hk) (has_of_next_right hk') he.symm]

/-- The range of an entry is that of its leaf. -/
theorem occurs?_particle {k : Leaf} (hk : t.Has k) :
    (t.automaton isApproximate).occurs? k.particle = t.rangeOf k := by
  have hlt : k.particle < (t.automaton isApproximate).entries.size := by
    obtain ⟨x, hx, rfl⟩ := List.mem_map.1 hk
    obtain ⟨i, hi, hterm⟩ := ready.lettered.term_eq x hx
    rw [size_entries ready.toIsReady, hi, Nat.zero_add]
    exact (List.getElem?_eq_some_iff.1 hterm).1
  have he := Array.getElem?_eq_getElem hlt
  obtain ⟨x, hx, hpart, hentry, -⟩ := entry_cases ready.toIsReady he
  obtain rfl := ready.eq_of_particle (List.mem_map_of_mem hx) hk hpart
  unfold occurs?
  rw [he, hentry, ready.rangeOf_eq hx]
  rfl

/-- What is counted is a leaf after which the same may come. -/
theorem leaf_of_counter (h : Offers t isApproximate i (t.Next x)) {c : Counter}
    (hc : (t.automaton isApproximate).counter i = some c) :
    ∃ l, l.particle = c.entry ∧ t.rangeOf l = some c.occurs ∧ t.Next x (some l) ∧
      ∀ y, t.Next x y ↔ t.Next (some l) y := by
  obtain ⟨ht, ho⟩ := of_counter_eq_some hc
  obtain ⟨l, hl, hpart⟩ := (target_isSome_iff ready.toIsReady h (e := c.entry)).1 (by rw [ht]; rfl)
  rw [← hpart] at ht ho
  rw [occurs?_particle ready (has_of_next_right hl)] at ho
  exact ⟨l, hpart, ho, hl, h.iff ready.toIsNumbered (offers_target_leaf ready h hl ht)⟩

/-- Where a leaf with a range was read last, something is counted. -/
theorem counter_isSome_of_range {p : Leaf} {m : Multiplicity} (hp : t.Has p)
    (hm : t.rangeOf p = some m) (h : Offers t isApproximate i (t.Next (some p))) :
    ((t.automaton isApproximate).counter i).isSome = true := by
  have hloop := ready.isCompact.next_self (hm ▸ ready.mem_leaves_of_has hp)
  have hsome := (target_isSome_iff ready.toIsReady h).2 ⟨p, hloop, rfl⟩
  obtain ⟨j, hj⟩ := Option.isSome_iff_exists.1 hsome
  obtain rfl := offers_unique h (offers_target_leaf ready h hloop hj)
  exact counter_isSome hj ((occurs?_particle ready hp).trans hm)

/-- The leaf that is counted in a state is the only one that leads back. -/
theorem target_eq_iff (h : Offers t isApproximate i (t.Next x)) {c : Counter}
    (hc : (t.automaton isApproximate).counter i = some c) {k : Leaf}
    (hk : t.Next x (some k))
    (ht : (t.automaton isApproximate).target i k.particle = some j) :
    j = i ↔ k.particle = c.entry := by
  constructor
  · intro hx
    subst hx
    obtain ⟨l, hpart, hrange, hl, hnext⟩ := leaf_of_counter ready h hc
    have hxk := h.iff ready.toIsNumbered (offers_target_leaf ready h hk ht)
    have hkl : k = l := ready.eq_of_next_iff ((hxk _).1 hk) ((hnext _).1 hl)
      fun y => (hxk y).symm.trans (hnext y)
    rw [hkl, hpart]
  · intro he
    rw [he, (of_counter_eq_some hc).1] at ht
    exact (Option.some.inj ht).symm

/-- The state of a run stands for the leaf that was read last, and how often it was. -/
structure CountingState (t : Tree) (isApproximate : Bool) (x : Point) (s : State) : Prop where
  failed_eq : s.failed = false
  offers : Offers t isApproximate s.current (t.Next x.last)
  count_eq : ∀ c, (t.automaton isApproximate).counter s.current = some c →
    ∀ l, t.Has l → l.particle = c.entry →
      s.count.toNat = if x.last = some l then x.count else 0

variable {s : State} {x : Point}

/-- Where nothing is counted, everything may come next that follows. -/
theorem permits_of_no_counter (h : CountingState t isApproximate x s)
    (hhas : ∀ p, x.last = some p → t.Has p)
    (hc : (t.automaton isApproximate).counter s.current = none) (y : Option Leaf) :
    x.Permits t.rangeOf y := by
  apply Point.permits_of_uncounted
  intro p hp
  cases hm : t.rangeOf p with
  | none => rfl
  | some m =>
    have hsome := counter_isSome_of_range ready (hhas p hp) hm (hp ▸ h.offers)
    rw [hc] at hsome
    cases hsome

/-- The counter says whether a leaf may be read, or the content may end. -/
theorem permits_iff (h : CountingState t isApproximate x s) {c : Counter}
    (hc : (t.automaton isApproximate).counter s.current = some c)
    (hhas : ∀ p, x.last = some p → t.Has p) {y : Option Leaf} (hy : t.Next x.last y) :
    x.Permits t.rangeOf y ↔
      if y.map (·.particle) = some c.entry then c.occurs.isFull s.count = false
      else c.occurs.isMissing s.count = false := by
  obtain ⟨l, hpart, hrange, hl, hnext⟩ := leaf_of_counter ready h.offers hc
  have hlt : t.Has l := has_of_next_right hl
  have hcount := h.count_eq c hc l hlt hpart
  have hyl : y.map (·.particle) = some c.entry ↔ y = some l := by
    rw [Option.map_eq_some_iff]
    constructor
    · intro hx
      obtain ⟨k, rfl, hk⟩ := hx
      rw [ready.eq_of_particle (has_of_next_right hy) hlt (hk.trans hpart.symm)]
    · intro hx
      subst hx
      exact ⟨l, rfl, hpart⟩
  simp only [hyl, Multiplicity.isFull_eq_false_iff, Multiplicity.isMissing_eq_false_iff, hcount]
  by_cases hlast : x.last = some l
  · -- the counted leaf was read last
    simp [Point.Permits, hlast, hrange]
  · -- nothing was counted yet
    have hmem : (l, some c.occurs) ∈ t.leaves := hrange ▸ ready.mem_leaves_of_has hlt
    have hloop := ready.isCompact.next_self hmem
    have huncounted : ∀ p, x.last = some p → t.rangeOf p = none := by
      intro p hp
      rw [← Option.not_isSome_iff_eq_none, Option.isSome_iff_exists]
      intro hx
      obtain ⟨m, hm⟩ := hx
      have hself := ready.isCompact.next_self (hm ▸ ready.mem_leaves_of_has (hhas p hp))
      refine hlast (hp.trans (congrArg some (ready.eq_of_next_iff hself hloop fun y => ?_)))
      rw [← hp, hnext]
    apply iff_of_true (Point.permits_of_uncounted huncounted)
    rw [if_neg hlast]
    split
    · intro max hmax
      exact Multiplicity.pos_of_max
        (ready.isCompact.isRegular.isNever_eq_false _ hmem _ rfl).2 hmax
    · have hmin : c.occurs.min = 0 := by
        by_contra hmin
        exact ready.isCompact.next_ne ready.ascends hmem hmin hlast hl hnext
      simp [hmin]

/-- As far as the count is concerned, an entry may be taken when its leaf may be read. -/
theorem countAllows_iff (h : CountingState t isApproximate x s)
    (hhas : ∀ p, x.last = some p → t.Has p) {k : Leaf} {next : Nat} (hk : t.Next x.last (some k))
    (ht : (t.automaton isApproximate).target s.current k.particle = some next) :
    (t.automaton isApproximate).countAllows s next = true ↔
      x.Permits t.rangeOf (some k) := by
  unfold countAllows
  cases hc : (t.automaton isApproximate).counter s.current with
  | none => simpa using permits_of_no_counter ready h hhas hc (some k)
  | some c =>
    have hback := target_eq_iff ready h.offers hc hk ht
    rw [permits_iff ready h hc hhas hk]
    simp only [Option.map_some, Option.some.injEq, hback]
    split <;> simp

/-- An entry may be taken when its leaf may be read. -/
theorem open_iff_allows (h : CountingState t isApproximate x s)
    (hhas : ∀ p, x.last = some p → t.Has p) (e : Nat) :
    (t.automaton isApproximate).Open s e ↔
      ∃ k, Allows t.Next t.rangeOf x (some k) ∧ k.particle = e := by
  constructor
  · intro hx
    obtain ⟨next, ht, hallow⟩ := hx
    obtain ⟨k, hk, rfl⟩ := (target_isSome_iff ready.toIsReady h.offers).1 (by rw [ht]; rfl)
    exact ⟨k, ⟨hk, (countAllows_iff ready h hhas hk ht).1 hallow⟩, rfl⟩
  · intro hx
    obtain ⟨k, ⟨hk, hpermits⟩, rfl⟩ := hx
    obtain ⟨next, ht⟩ := Option.isSome_iff_exists.1
      ((target_isSome_iff ready.toIsReady h.offers).2 ⟨k, hk, rfl⟩)
    exact ⟨next, ht, (countAllows_iff ready h hhas hk ht).2 hpermits⟩

theorem isComplete_iff_allows (h : CountingState t isApproximate x s)
    (hhas : ∀ p, x.last = some p → t.Has p) :
    (t.automaton isApproximate).isComplete s = true ↔ Allows t.Next t.rangeOf x none := by
  unfold Allows isComplete
  rw [h.failed_eq, ← isFinal_iff ready.toIsNumbered h.offers]
  cases hc : (t.automaton isApproximate).counter s.current with
  | none => simpa using fun _ => permits_of_no_counter ready h hhas hc none
  | some c =>
    simp only [Bool.not_false, Bool.true_and, Bool.and_eq_true, Bool.not_eq_true']
    apply and_congr_right
    intro hf
    rw [permits_iff ready h hc hhas ((isFinal_iff ready.toIsNumbered h.offers).1 hf)]
    simp

/-- In a counting state, the counted leaf stands furthest to the left. -/
theorem orderly_counting (h : CountingState t isApproximate x s) :
    (t.automaton isApproximate).Orderly s where
  loops c hc := (of_counter_eq_some hc).1
  others c hc e next ht hne := by
    obtain ⟨l, hpart, hrange, hl, hnext⟩ := leaf_of_counter ready h.offers hc
    obtain ⟨k, hk, rfl⟩ := (target_isSome_iff ready.toIsReady h.offers).1 (by rw [ht]; rfl)
    refine ⟨?_, fun hback => hne ((target_eq_iff ready h.offers hc hk ht).1 hback)⟩
    have hle := ready.isCompact.le_of_next ready.ascends ((hnext _).1 hk)
    rw [← ready.particle_eq_position (has_of_next_right hl),
      ← ready.particle_eq_position (has_of_next_right hk)] at hle
    omega
  isOrdered c hc := by
    obtain ⟨l, -, hrange, hl, -⟩ := leaf_of_counter ready h.offers hc
    have hmem := ready.mem_leaves_of_has (has_of_next_right hl)
    exact (ready.isCompact.isRegular.isNever_eq_false _ hmem _ hrange).1

theorem countingState_read (h : CountingState t isApproximate x s) {k : Leaf} {next : Nat}
    {s' : State} (hk : t.Next x.last (some k)) (hsmall : x.count + 1 < UInt32.size)
    (ht : (t.automaton isApproximate).target s.current k.particle = some next)
    (hs : Entered (t.automaton isApproximate) s k.particle next s') :
    CountingState t isApproximate (x.read k) s' := by
  have hoffers := offers_target_leaf ready h.offers hk ht
  refine ⟨hs.failed_eq, hs.current_eq ▸ hoffers, fun c hc l hl hpart => ?_⟩
  rw [hs.current_eq] at hc
  have hkl : some k = some l ↔ k.particle = c.entry := by
    rw [Option.some.injEq, ← hpart]
    exact ⟨congrArg _, ready.eq_of_particle (has_of_next_right hk) hl⟩
  rw [hs.count_eq c hc, Point.last_read]
  by_cases hstay : next = s.current
  · -- one more of the counted leaf
    subst hstay
    have hentry := (target_eq_iff ready h.offers hc hk ht).1 rfl
    have hcount := h.count_eq c hc l hl hpart
    rw [if_pos rfl, if_pos (hkl.2 hentry), Option.some.inj (hkl.2 hentry), Point.read]
    have hle : s.count.toNat ≤ x.count := by
      rw [hcount]
      split <;> omega
    rw [toNat_add_one (by omega), hcount]
    split <;> rfl
  · -- the counted leaf is read for the first time, or another one
    have hlast : x.last ≠ some k := by
      intro hlast
      exact hstay (offers_unique hoffers (hlast ▸ h.offers))
    rw [if_neg hstay, Point.read, if_neg hlast]
    simp only [hkl]
    split <;> rfl

theorem countingState_start : CountingState t isApproximate .start start := by
  refine ⟨rfl, offers_start ready.toIsNumbered, ?_⟩
  simp [start]

omit ready in
/-- What children were attributed to tells what was read. -/
theorem reaches_unique (ready : t.IsCounting terms) {range : Leaf → Option Multiplicity}
    {u : List Nat} {y : Point} (hx : t.Reaches range u x) (hy : t.Reaches range u y) : x = y := by
  induction u using List.reverseRecOn generalizing x y with
  | nil => rw [reaches_nil_iff.1 hx, reaches_nil_iff.1 hy]
  | append_singleton u e ih =>
    obtain ⟨x₀, k, hx₀, hk, rfl, rfl⟩ := reaches_append_iff.1 hx
    obtain ⟨y₀, l, hy₀, hl, he, rfl⟩ := reaches_append_iff.1 hy
    rw [ih hx₀ hy₀, ready.eq_of_particle (has_of_next_right hk.1) (has_of_next_right hl.1) he.symm]

omit ready in
theorem Reaches.has {u : List Nat} (h : t.Reaches t.rangeOf u x) {p : Leaf}
    (hp : x.last = some p) : t.Has p := by
  obtain ⟨w, -, hw⟩ := h
  exact hw.has hp

omit ready in
theorem Reaches.count_le {u : List Nat} (h : t.Reaches t.rangeOf u x) : x.count ≤ u.length := by
  obtain ⟨w, rfl, hw⟩ := h
  simpa using hw.count_le

/-- The automaton of a compact tree tracks its language. -/
theorem simulates_counting :
    (t.automaton isApproximate).Simulates terms t.attributions
      fun u s => ∃ x, t.Reaches t.rangeOf u x ∧ CountingState t isApproximate x s where
  size_eq := size_entries ready.toIsReady
  entry_eq he := by
    obtain ⟨x, -, -, rfl, ht⟩ := entry_cases ready.toIsReady he
    exact ⟨ht, rfl⟩
  failed := fun ⟨_, _, h⟩ => h.failed_eq
  orderly := fun ⟨_, _, h⟩ => orderly_counting ready h
  count_le := by
    intro u s hz c hc
    obtain ⟨x, hx, h⟩ := hz
    obtain ⟨l, hpart, -, hl, -⟩ := leaf_of_counter ready h.offers hc
    have hle := Reaches.count_le hx
    rw [h.count_eq c hc l (has_of_next_right hl) hpart]
    split <;> omega
  isOpen := by
    intro u s hz e
    obtain ⟨x, hx, h⟩ := hz
    rw [open_iff_allows ready h fun p => Reaches.has hx,
      append_mem_beginnings_iff ready.isCompact.isRegular ready.indexes]
    constructor
    · intro hz
      obtain ⟨k, hk, he⟩ := hz
      exact ⟨x, k, hx, hk, he⟩
    · intro hz
      obtain ⟨y, k, hy, hk, he⟩ := hz
      obtain rfl := reaches_unique ready hx hy
      exact ⟨k, hk, he⟩
  isComplete := by
    intro u s hz
    obtain ⟨x, hx, h⟩ := hz
    rw [isComplete_iff_allows ready h fun p => Reaches.has hx,
      mem_attributions_iff ready.isCompact.isRegular ready.indexes]
    constructor
    · exact fun hend => ⟨x, hx, hend⟩
    · intro hz
      obtain ⟨y, hy, hend⟩ := hz
      rwa [reaches_unique ready hx hy]
  entered := by
    intro u s e next s' hz hlen hopen ht hs
    obtain ⟨x, hx, h⟩ := hz
    obtain ⟨k, hk, rfl⟩ := (open_iff_allows ready h (fun p => Reaches.has hx) e).1 hopen
    have hle := Reaches.count_le hx
    exact ⟨x.read k, reaches_append_iff.2 ⟨x, k, hx, hk, rfl, rfl⟩,
      countingState_read ready h hk.1 (by omega) ht hs⟩

end Counting

end Automaton

end ContentAutomata
