import ContentAutomata.Proofs.Tree.Next

/-!
# Reading a word of a tree leaf by leaf, with a counter

A word of a tree is read from left to right. A `Point` remembers the leaf read last and how often it
was read in a row; that is all that is needed to tell what may come next: the leaf has to be one
that `Next` allows, a counted leaf may be read again only below its upper bound, and something else
may come after it only from its lower bound on.

Results:
* `mem_words_iff`: reading accepts exactly the words of a regular tree;
* `exists_accepts`: wherever reading has got to, it can be completed;
* `extends_iff`: a list of leaves can be read exactly when it is the beginning of a word.
-/
namespace ContentAutomata.Tree

open scoped Computability

/-- How far a word was read. -/
structure Point where
  /-- The leaf that was read last, `none` at the beginning. -/
  last : Option Leaf
  /-- How often it was read in a row. -/
  count : Nat

namespace Point

/-- The beginning of a word. -/
def start : Point := ⟨none, 0⟩

/-- The point after one more leaf. -/
def read (x : Point) (l : Leaf) : Point := ⟨some l, if x.last = some l then x.count + 1 else 1⟩

/-- The count allows that `y` comes next, given which range each leaf is counted in. -/
def Permits (range : Leaf → Option Multiplicity) (x : Point) (y : Option Leaf) : Prop :=
  ∀ m, x.last.bind range = some m →
    if y = x.last then ∀ max, m.max = some max → x.count < max.toNat else m.min.toNat ≤ x.count

@[simp] theorem last_start : start.last = none := rfl

@[simp] theorem last_read (x : Point) (l : Leaf) : (x.read l).last = some l := rfl

@[simp] theorem permits_start {range : Leaf → Option Multiplicity} {y : Option Leaf} :
    start.Permits range y := fun _ h => by cases h

theorem permits_of_uncounted {range : Leaf → Option Multiplicity} {x : Point} {y : Option Leaf}
    (h : ∀ p, x.last = some p → range p = none) : x.Permits range y := by
  intro m hm
  cases hx : x.last with
  | none => simp [hx] at hm
  | some p => simp [hx, h p hx] at hm

/-- Something other than the last leaf is permitted where the word may end. -/
theorem permits_some_iff {range : Leaf → Option Multiplicity} {x : Point} {l : Leaf}
    (h : x.last ≠ some l) : x.Permits range (some l) ↔ x.Permits range none := by
  cases hx : x.last with
  | none => simp [Permits, hx]
  | some p =>
    have hne : some l ≠ some p := fun he => h (hx.trans he.symm)
    simp [Permits, hx, hne]

theorem read_of_ne {x : Point} {l : Leaf} (h : x.last ≠ some l) : x.read l = start.read l := by
  simp [read, h, start]

end Point

section Reading

variable (next : Option Leaf → Option Leaf → Prop) (range : Leaf → Option Multiplicity)

/-- What may come next at a point; `none` is the end of the word. -/
def Allows (x : Point) (y : Option Leaf) : Prop := next x.last y ∧ x.Permits range y

/-- The rest of a word can be read from a point on. -/
def Accepts : Point → List Leaf → Prop
  | x, [] => Allows next range x none
  | x, l :: w => Allows next range x (some l) ∧ Accepts (x.read l) w

/-- The words that can be read from the beginning on. -/
def accepted : Language Leaf := {w | Accepts next range .start w}

end Reading

variable {next next' : Option Leaf → Option Leaf → Prop} {range : Leaf → Option Multiplicity}

theorem has_of_last_read {t : Tree} {x : Point} {l : Leaf} (hl : t.Has l) :
    ∀ p, (x.read l).last = some p → t.Has p := by
  intro p hp
  cases hp
  exact hl

theorem mem_accepted {w : List Leaf} : w ∈ accepted next range ↔ Accepts next range .start w :=
  Iff.rfl

/-! ## Moving within a part of a tree -/

theorem Accepts.mono (h : ∀ x y, next x y → next' x y) {w : List Leaf} :
    ∀ {x : Point}, Accepts next range x w → Accepts next' range x w := by
  induction w with
  | nil => exact fun ha => ⟨h _ _ ha.1, ha.2⟩
  | cons l w ih => exact fun ha => ⟨⟨h _ _ ha.1.1, ha.1.2⟩, ih ha.2⟩

/-- Reading only depends on what may follow the leaves that it stays among. -/
theorem accepts_congr {S : Leaf → Prop} (h : ∀ p, S p → ∀ y, next (some p) y ↔ next' (some p) y)
    (stay : ∀ p q, S p → next (some p) (some q) → S q) {w : List Leaf} :
    ∀ {x : Point}, (∃ p, x.last = some p ∧ S p) →
      (Accepts next range x w ↔ Accepts next' range x w) := by
  induction w with
  | nil =>
    intro x hy
    obtain ⟨p, hx, hp⟩ := hy
    simp only [Accepts, Allows, hx, h p hp]
  | cons l w ih =>
    intro x hy
    obtain ⟨p, hx, hp⟩ := hy
    simp only [Accepts, Allows, hx, h p hp]
    refine and_congr_right fun hl => ih ⟨l, rfl, stay p l hp ?_⟩
    exact (h p hp _).2 hl.1

/-- Within a part of a tree, only that part is left to read. -/
theorem accepts_part {part t : Tree}
    (h : ∀ p, part.Has p → ∀ y, t.Next (some p) y ↔ part.Next (some p) y) {w : List Leaf}
    {x : Point} (hx : ∃ p, x.last = some p ∧ part.Has p) :
    Accepts t.Next range x w ↔ Accepts part.Next range x w :=
  accepts_congr h (fun p _ hp hq => has_of_next_right ((h p hp _).1 hq)) hx

/-- From the beginning on, the leaves that a word may begin with matter too. -/
theorem accepts_cons_congr {S : Leaf → Prop}
    (h : ∀ p, S p → ∀ y, next (some p) y ↔ next' (some p) y)
    (stay : ∀ p q, S p → next (some p) (some q) → S q) {l : Leaf} {w : List Leaf}
    (first : next none (some l) ↔ next' none (some l)) (within : next none (some l) → S l) :
    Accepts next range .start (l :: w) ↔ Accepts next' range .start (l :: w) := by
  simp only [Accepts, Allows, Point.permits_start, Point.last_start, and_true, first]
  exact and_congr_right fun hl => accepts_congr h stay ⟨l, rfl, within (first.2 hl)⟩

/-- Among leaves that are not counted, the count is of no importance. -/
theorem accepts_of_uncounted {S : Leaf → Prop} (h : ∀ p, S p → range p = none)
    (stay : ∀ p q, S p → next (some p) (some q) → S q) {w : List Leaf} :
    ∀ {x y : Point}, x.last = y.last → (∀ p, x.last = some p → S p) →
      Accepts next range x w → Accepts next range y w := by
  induction w with
  | nil =>
    intro x y he hs ha
    exact ⟨he ▸ ha.1, Point.permits_of_uncounted fun p hp => h p (hs p (he.trans hp))⟩
  | cons l w ih =>
    intro x y he hs hy
    obtain ⟨hl, ha⟩ := hy
    refine ⟨⟨he ▸ hl.1, Point.permits_of_uncounted fun p hp => h p (hs p (he.trans hp))⟩, ?_⟩
    cases hx : x.last with
    | none =>
      rwa [Point.read_of_ne (by rw [← he, hx]; simp),
        ← Point.read_of_ne (x := x) (by rw [hx]; simp)]
    | some p =>
      refine ih (x := x.read l) rfl ?_ ha
      intro q hy
      cases hy
      exact stay p _ (hs p hx) (hx ▸ hl.1)

/-! ## Sequences and choices -/

section Sequence

variable {a b : Tree} (disjoint : ∀ l, a.Has l → ¬ b.Has l)

include disjoint

/-- In the right part of a sequence, only that part is left to read. -/
theorem accepts_sequence_right {w : List Leaf} {x : Point} (hx : ∃ p, x.last = some p ∧ b.Has p) :
    Accepts (joined .sequence a b).Next range x w ↔ Accepts b.Next range x w :=
  accepts_part (fun _ hp _ => next_sequence_right disjoint hp) hx

/-- In a branch of a choice, only that branch is left to read. -/
theorem accepts_choice_left {w : List Leaf} {x : Point} (hx : ∃ p, x.last = some p ∧ a.Has p) :
    Accepts (joined .choice a b).Next range x w ↔ Accepts a.Next range x w :=
  accepts_part (fun _ hp _ => next_choice_left disjoint hp) hx

theorem accepts_choice_right {w : List Leaf} {x : Point} (hx : ∃ p, x.last = some p ∧ b.Has p) :
    Accepts (joined .choice a b).Next range x w ↔ Accepts b.Next range x w :=
  accepts_part (fun _ hp _ => next_choice_right disjoint hp) hx

theorem accepts_choice_start {w : List Leaf} :
    Accepts (joined .choice a b).Next range .start w ↔
      Accepts a.Next range .start w ∨ Accepts b.Next range .start w := by
  cases w with
  | nil =>
    simp only [Accepts, Allows, Point.permits_start, and_true]
    exact Iff.rfl
  | cons l w =>
    constructor
    · intro h
      obtain ⟨⟨hn | hn, hp⟩, hw⟩ := h
      · exact .inl ⟨⟨hn, hp⟩,
          (accepts_choice_left disjoint ⟨l, rfl, has_of_next_right hn⟩).1 hw⟩
      · exact .inr ⟨⟨hn, hp⟩,
          (accepts_choice_right disjoint ⟨l, rfl, has_of_next_right hn⟩).1 hw⟩
    · intro h
      rcases h with ⟨⟨hn, hp⟩, hw⟩ | ⟨⟨hn, hp⟩, hw⟩
      · exact ⟨⟨.inl hn, hp⟩,
          (accepts_choice_left disjoint ⟨l, rfl, has_of_next_right hn⟩).2 hw⟩
      · exact ⟨⟨.inr hn, hp⟩,
          (accepts_choice_right disjoint ⟨l, rfl, has_of_next_right hn⟩).2 hw⟩

/-- From a point in the left part on, the rest of that part is read and then the right part. -/
theorem accepts_sequence {w : List Leaf} : ∀ {x : Point}, (∀ p, x.last = some p → a.Has p) →
    (Accepts (joined .sequence a b).Next range x w ↔
      ∃ u v, w = u ++ v ∧ Accepts a.Next range x u ∧ Accepts b.Next range .start v) := by
  induction w with
  | nil =>
    intro x hx
    simp only [Accepts, Allows, next_sequence_of_left disjoint hx, ne_eq, not_true_eq_false,
      false_and, false_or]
    constructor
    · intro hy
      obtain ⟨⟨h1, h2⟩, hp⟩ := hy
      exact ⟨[], [], rfl, ⟨h1, hp⟩, h2, Point.permits_start⟩
    · intro hy
      obtain ⟨u, v, huv, h1, h2⟩ := hy
      obtain ⟨rfl, rfl⟩ := List.append_eq_nil_iff.1 huv.symm
      exact ⟨⟨h1.1, h2.1⟩, h1.2⟩
  | cons l w ih =>
    intro x hx
    constructor
    · intro hy
      obtain ⟨⟨hn, hp⟩, hw⟩ := hy
      rcases (next_sequence_of_left disjoint hx).1 hn with ⟨-, hn⟩ | ⟨hend, hn⟩
      · obtain ⟨u, v, rfl, hu, hv⟩ := (ih (has_of_last_read (has_of_next_right hn))).1 hw
        exact ⟨l :: u, v, rfl, ⟨⟨hn, hp⟩, hu⟩, hv⟩
      · have hl := has_of_next_right hn
        have hne : x.last ≠ some l := fun h => disjoint l (hx l h) hl
        rw [Point.permits_some_iff hne] at hp
        rw [Point.read_of_ne hne, accepts_sequence_right disjoint ⟨l, rfl, hl⟩] at hw
        exact ⟨[], l :: w, rfl, ⟨hend, hp⟩, ⟨hn, Point.permits_start⟩, hw⟩
    · intro hy
      obtain ⟨u, v, huv, hu, hv⟩ := hy
      cases u with
      | nil =>
        obtain rfl : l :: w = v := huv
        have hl := has_of_next_right hv.1.1
        have hne : x.last ≠ some l := fun h => disjoint l (hx l h) hl
        refine ⟨⟨(next_sequence_of_left disjoint hx).2 (.inr ⟨hu.1, hv.1.1⟩),
          (Point.permits_some_iff hne).2 hu.2⟩, ?_⟩
        rw [Point.read_of_ne hne, accepts_sequence_right disjoint ⟨l, rfl, hl⟩]
        exact hv.2
      | cons l' u =>
        obtain ⟨rfl, rfl⟩ := List.cons_eq_cons.1 huv
        refine ⟨⟨(next_sequence_of_left disjoint hx).2 (.inl ⟨by simp, hu.1.1⟩), hu.1.2⟩, ?_⟩
        exact (ih (has_of_last_read (has_of_next_right hu.1.1))).2 ⟨u, v, rfl, hu.2, hv⟩

end Sequence

/-! ## Closures -/

theorem mem_mul_iff {α : Type} {L M : Language α} {w : List α} :
    w ∈ L * M ↔ ∃ u v, w = u ++ v ∧ u ∈ L ∧ v ∈ M := by
  rw [Language.mem_mul]
  exact ⟨fun ⟨u, hu, v, hv, h⟩ => ⟨u, v, h.symm, hu, hv⟩,
    fun ⟨u, v, h, hu, hv⟩ => ⟨u, hu, v, hv, h.symm⟩⟩

theorem mem_kstar_iff {α : Type} {L : Language α} {w : List α} :
    w ∈ L∗ ↔ w = [] ∨ w ∈ L * L∗ := by
  conv_lhs => rw [← Language.one_add_self_mul_kstar_eq_kstar]
  exact Iff.rfl

theorem cons_mem_kstar {α : Type} {L : Language α} {q : α} {w : List α} :
    q :: w ∈ L∗ ↔ ∃ u v, w = u ++ v ∧ q :: u ∈ L ∧ v ∈ L∗ := by
  constructor
  · intro h
    obtain ⟨S, hS, hL⟩ := Language.mem_kstar_iff_exists_nonempty.1 h
    cases S with
    | nil => simp at hS
    | cons s S =>
      simp only [List.mem_cons, forall_eq_or_imp] at hL
      cases s with
      | nil => exact absurd rfl hL.1.2
      | cons p u =>
        simp only [List.flatten_cons, List.cons_append, List.cons.injEq] at hS
        obtain ⟨rfl, rfl⟩ := hS
        exact ⟨u, _, rfl, hL.1.1, Language.join_mem_kstar fun y hy => (hL.2 y hy).1⟩
  · intro hx
    obtain ⟨u, v, rfl, hu, hv⟩ := hx
    rw [← Language.one_add_self_mul_kstar_eq_kstar]
    exact .inr (Language.append_mem_mul hu hv)

/-- Where the empty word is added and nothing else, it is all that can be read besides. -/
theorem accepts_or_nil (h : ∀ x y, next x y ↔ next' x y ∨ (x = none ∧ y = none)) {w : List Leaf} :
    Accepts next range .start w ↔ w = [] ∨ Accepts next' range .start w := by
  cases w with
  | nil => simp [Accepts, Allows, h]
  | cons l w =>
    simp only [reduceCtorEq, false_or]
    refine accepts_cons_congr (S := fun _ => True) (fun p _ y => ?_) (fun _ _ _ _ => trivial) ?_
      fun _ => trivial
    · simp [h]
    · simp [h]

section Closure

variable {t : Tree}

/-- An optional part is left out or read like the part itself. -/
theorem accepts_optional {w : List Leaf} : Accepts (closure .optional t).Next range .start w ↔
    w = [] ∨ Accepts t.Next range .start w :=
  accepts_or_nil fun x y => by simp [Next]

/-- A part that may be repeated any number of times is left out or read at least once. -/
theorem accepts_star {w : List Leaf} : Accepts (closure .star t).Next range .start w ↔
    w = [] ∨ Accepts (closure .plus t).Next range .start w :=
  accepts_or_nil fun x y => by simp [Next, or_assoc, or_comm (a := x = none ∧ y = none)]

/-- In a loop, more of this round comes next, or the beginning of the next one. -/
theorem next_plus {x y : Option Leaf} :
    (closure .plus t).Next x y ↔ t.Next x y ∨ (t.Next x none ∧ t.Next none y) := by
  simp [Next]

variable (uncounted : ∀ l, t.Has l → range l = none)

include uncounted

/-- It does not matter how often the leaf was read before. -/
theorem accepts_read {l : Leaf} {w : List Leaf} {x y : Point} (hl : t.Has l)
    (h : Accepts t.Next range (x.read l) w) : Accepts t.Next range (y.read l) w :=
  accepts_of_uncounted (x := x.read l) uncounted (fun _ _ _ hq => has_of_next_right hq) rfl
    (has_of_last_read hl) h

/-- Going round a loop, the rest of this round is read and then any number of further rounds. -/
theorem accepts_plus {w : List Leaf} : ∀ {x : Point}, (∀ p, x.last = some p → t.Has p) →
    (Accepts (closure .plus t).Next range x w ↔
      ∃ u v, w = u ++ v ∧ Accepts t.Next range x u ∧ v ∈ (accepted t.Next range)∗) := by
  have hpermits : ∀ {x : Point} {y : Option Leaf}, (∀ p, x.last = some p → t.Has p) →
      x.Permits range y := fun hx => Point.permits_of_uncounted fun p hp => uncounted p (hx p hp)
  induction w with
  | nil =>
    intro x hx
    simp only [Accepts, Allows, next_plus, hpermits hx, and_true]
    constructor
    · intro h
      refine ⟨[], [], rfl, ⟨h.elim id And.left, hpermits hx⟩, Language.nil_mem_kstar _⟩
    · intro hy
      obtain ⟨u, v, huv, h, -⟩ := hy
      obtain ⟨rfl, rfl⟩ := List.append_eq_nil_iff.1 huv.symm
      exact .inl h.1
  | cons l w ih =>
    intro x hx
    simp only [Accepts, Allows, next_plus, hpermits hx, and_true]
    constructor
    · intro hy
      obtain ⟨hl, hw⟩ := hy
      have hhas : t.Has l := hl.elim has_of_next_right fun h => has_of_next_right h.2
      obtain ⟨u, v, rfl, hu, hv⟩ := (ih (has_of_last_read hhas)).1 hw
      rcases hl with hl | ⟨hend, hl⟩
      · exact ⟨l :: u, v, rfl, ⟨⟨hl, hpermits hx⟩, hu⟩, hv⟩
      · refine ⟨[], l :: (u ++ v), rfl, ⟨hend, hpermits hx⟩, cons_mem_kstar.2 ⟨u, v, rfl, ?_, hv⟩⟩
        exact ⟨⟨hl, Point.permits_start⟩, accepts_read uncounted hhas hu⟩
    · intro hy
      obtain ⟨u, v, huv, hu, hv⟩ := hy
      cases u with
      | nil =>
        obtain rfl : l :: w = v := huv
        obtain ⟨u, v, rfl, hl, hv⟩ := cons_mem_kstar.1 hv
        have hhas : t.Has l := has_of_next_right hl.1.1
        refine ⟨.inr ⟨hu.1, hl.1.1⟩, (ih (has_of_last_read hhas)).2 ⟨u, v, rfl, ?_, hv⟩⟩
        exact accepts_read uncounted hhas hl.2
      | cons l' u =>
        obtain ⟨rfl, rfl⟩ := List.cons_eq_cons.1 huv
        have hhas : t.Has l := has_of_next_right hu.1.1
        exact ⟨.inl hu.1.1, (ih (has_of_last_read hhas)).2 ⟨u, v, rfl, hu.2, hv⟩⟩

end Closure

/-! ## Counted leaves -/

theorem mem_singleton_pow {α : Type} {l : α} {k : Nat} {w : List α} :
    w ∈ ({[l]} : Language α) ^ k ↔ w = List.replicate k l := by
  induction k generalizing w with
  | zero => simp
  | succ k ih =>
    rw [pow_succ', Language.mem_mul]
    constructor
    · intro h
      obtain ⟨_, rfl, v, hv, rfl⟩ := h
      rw [ih.1 hv, List.replicate_succ]
      rfl
    · intro h
      subst h
      exact ⟨[l], rfl, List.replicate k l, ih.2 rfl, rfl⟩

section Counted

variable {l : Leaf} {m : Multiplicity} (counts : range l = some m)

include counts

/-- A counted leaf is read once more exactly when that does not exceed its range. -/
theorem allows_counted {c : Nat} (hpos : 0 < c) {q : Leaf} :
    Allows (counted l m).Next range ⟨some l, c⟩ (some q) ↔
      q = l ∧ ∀ max, m.max = some max → c < max.toNat := by
  simp only [Allows, Next, reduceCtorEq, false_and, and_false, or_false, false_or, true_and,
    Point.Permits, Option.bind_some, counts, Option.some.injEq, forall_eq']
  constructor
  · intro hx
    obtain ⟨⟨-, rfl⟩, h⟩ := hx
    exact ⟨rfl, by simpa using h⟩
  · intro hx
    obtain ⟨rfl, h⟩ := hx
    refine ⟨⟨fun h1 => ?_, rfl⟩, by simpa using h⟩
    have hlt := h 1 h1
    rw [UInt32.toNat_one] at hlt
    omega

/-- Having read a counted leaf some times, it is read until the count is within its range. -/
theorem accepts_counted {w : List Leaf} : ∀ {c : Nat}, 0 < c →
    (∀ max, m.max = some max → c ≤ max.toNat) →
    (Accepts (counted l m).Next range ⟨some l, c⟩ w ↔
      ∃ k, w = List.replicate k l ∧ m.Admits (c + k)) := by
  induction w with
  | nil =>
    intro c hpos hc
    have hend : Accepts (counted l m).Next range ⟨some l, c⟩ [] ↔ m.min.toNat ≤ c := by
      simp [Accepts, Allows, Next, Point.Permits, counts]
    rw [hend]
    constructor
    · exact fun h => ⟨0, rfl, h, hc⟩
    · intro hx
      obtain ⟨k, hk, h⟩ := hx
      obtain rfl : k = 0 := by simpa using hk.symm
      exact h.1
  | cons q w ih =>
    intro c hpos hc
    have hread : (⟨some l, c⟩ : Point).read l = ⟨some l, c + 1⟩ := by simp [Point.read]
    unfold Accepts
    rw [allows_counted counts hpos]
    constructor
    · intro hx
      obtain ⟨⟨rfl, hlt⟩, hw⟩ := hx
      rw [hread] at hw
      obtain ⟨k, rfl, hk⟩ := (ih (Nat.succ_pos c) hlt).1 hw
      exact ⟨k + 1, rfl, by rwa [show c + (k + 1) = c + 1 + k by omega]⟩
    · intro hx
      obtain ⟨k, hk, hadmits⟩ := hx
      cases k with
      | zero => simp at hk
      | succ k =>
        obtain ⟨rfl, rfl⟩ := List.cons_eq_cons.1 hk
        have hlt : ∀ max, m.max = some max → c < max.toNat := fun max hmax => by
          have := hadmits.2 max hmax
          omega
        refine ⟨⟨rfl, hlt⟩, ?_⟩
        rw [hread]
        exact (ih (Nat.succ_pos c) hlt).2 ⟨k, rfl, by rwa [show c + 1 + k = c + (k + 1) by omega]⟩

theorem accepts_counted_start (hn : m.isNever = false) {w : List Leaf} :
    Accepts (counted l m).Next range .start w ↔ w ∈ m.powers {[l]} := by
  have hmax : ∀ max, m.max = some max → 1 ≤ max.toNat := fun max => Multiplicity.pos_of_max hn
  simp only [Multiplicity.mem_powers, mem_singleton_pow]
  cases w with
  | nil =>
    have hend : Accepts (counted l m).Next range .start [] ↔ m.min = 0 := by
      simp [Accepts, Allows, Next]
    rw [hend]
    constructor
    · exact fun h => ⟨0, ⟨by simp [h], fun _ _ => Nat.zero_le _⟩, rfl⟩
    · intro hx
      obtain ⟨k, hk, hw⟩ := hx
      obtain rfl : k = 0 := by simpa using hw.symm
      exact UInt32.toNat_inj.1 (Nat.le_zero.1 hk.1)
  | cons q w =>
    have hnext : Allows (counted l m).Next range .start (some q) ↔ q = l := by
      simp [Allows, Next]
    unfold Accepts
    rw [hnext]
    constructor
    · intro hx
      obtain ⟨rfl, hw⟩ := hx
      obtain ⟨k, rfl, hk⟩ := (accepts_counted counts Nat.one_pos hmax).1 hw
      exact ⟨1 + k, hk, by rw [Nat.add_comm]; rfl⟩
    · intro hx
      obtain ⟨k, hk, hw⟩ := hx
      cases k with
      | zero => simp at hw
      | succ k =>
        obtain ⟨rfl, rfl⟩ := List.cons_eq_cons.1 hw
        exact ⟨rfl, (accepts_counted counts Nat.one_pos hmax).2 ⟨k, rfl, by rwa [Nat.add_comm]⟩⟩

end Counted

/-! ## Whole trees -/

/-- Each leaf stands in the tree once, and `range` gives what it is counted in. -/
structure Indexes (range : Leaf → Option Multiplicity) (t : Tree) : Prop where
  nodup : (t.leaves.map (·.1)).Nodup
  range_eq : ∀ x ∈ t.leaves, range x.1 = x.2

namespace Indexes

variable {op : Connective} {a b : Tree}

theorem left (h : Indexes range (joined op a b)) : Indexes range a :=
  ⟨(List.nodup_append.1 (by simpa [leaves] using h.nodup)).1,
    fun x hx => h.range_eq x (List.mem_append_left _ hx)⟩

theorem right (h : Indexes range (joined op a b)) : Indexes range b :=
  ⟨(List.nodup_append.1 (by simpa [leaves] using h.nodup)).2.1,
    fun x hx => h.range_eq x (List.mem_append_right _ hx)⟩

theorem disjoint (h : Indexes range (joined op a b)) : ∀ l, a.Has l → ¬ b.Has l := fun l ha hb =>
  (List.nodup_append.1 (by simpa [leaves] using h.nodup)).2.2 l ha l hb rfl

theorem uncounted {t : Tree} (h : Indexes range t) (hp : t.IsPlain) :
    ∀ l, t.Has l → range l = none := by
  intro l hl
  obtain ⟨x, hx, rfl⟩ := List.mem_map.1 hl
  rw [h.range_eq x hx, hp.range_eq_none x hx]

end Indexes

/-- Reading accepts exactly the words of the tree. -/
theorem accepted_eq_words : ∀ {t : Tree}, t.IsRegular → Indexes range t →
    accepted t.Next range = t.words
  | epsilon, _, _ => by
    ext w
    cases w <;> simp [mem_accepted, Accepts, Allows, Next, words, language]
  | leaf l, _, hi => by
    ext w
    have hw : w ∈ (leaf l).words ↔ w = [l] := Iff.rfl
    have hl : range l = none := hi.range_eq (l, none) (by simp [leaves])
    rw [mem_accepted, hw]
    cases w with
    | nil => simp [Accepts, Allows, Next]
    | cons q w =>
      cases w with
      | nil => simpa [Accepts, Allows, Next, Point.Permits] using fun h => by simp [h, hl]
      | cons r w => simp [Accepts, Allows, Next]
  | counted l m, h, hi => by
    ext w
    exact accepts_counted_start (hi.range_eq (l, some m) (by simp [leaves])) h.2
  | closure .optional t, h, hi => by
    ext w
    rw [mem_accepted, accepts_optional, words, language, ← words,
      ← accepted_eq_words (t := t) (IsPlain.isRegular h) ⟨hi.nodup, hi.range_eq⟩]
    rfl
  | closure .star t, h, hi => by
    ext w
    rw [mem_accepted, accepts_star,
      accepts_plus (t := t) (Indexes.uncounted ⟨hi.nodup, hi.range_eq⟩ h) (by simp), words,
      language, ← words, ← accepted_eq_words (t := t) (IsPlain.isRegular h) ⟨hi.nodup, hi.range_eq⟩,
      mem_kstar_iff, mem_mul_iff]
    rfl
  | closure .plus t, h, hi => by
    ext w
    rw [mem_accepted,
      accepts_plus (t := t) (Indexes.uncounted ⟨hi.nodup, hi.range_eq⟩ h) (by simp), words,
      language, ← words, ← accepted_eq_words (t := t) (IsPlain.isRegular h) ⟨hi.nodup, hi.range_eq⟩,
      mem_mul_iff]
    rfl
  | joined .choice a b, h, hi => by
    ext w
    rw [mem_accepted, accepts_choice_start hi.disjoint, words, language, ← words, ← words,
      ← accepted_eq_words h.1 hi.left, ← accepted_eq_words h.2 hi.right]
    rfl
  | joined .sequence a b, h, hi => by
    ext w
    rw [mem_accepted, accepts_sequence hi.disjoint (by simp), words, language, ← words, ← words,
      ← accepted_eq_words h.1 hi.left, ← accepted_eq_words h.2 hi.right, mem_mul_iff]
    rfl

/-! ## Getting to the end -/

theorem IsRegular.isNever_eq_false : ∀ {t : Tree}, t.IsRegular → ∀ x ∈ t.leaves, ∀ m,
    x.2 = some m → m.isOrdered = true ∧ m.isNever = false
  | epsilon, _, x, hx, _, _ => by simp [leaves] at hx
  | leaf _, _, x, hx, m, hm => by
    simp only [leaves, List.mem_singleton] at hx
    simp [hx] at hm
  | counted _ _, h, x, hx, m, hm => by
    simp only [leaves, List.mem_singleton] at hx
    obtain rfl : _ = m := by simpa [hx] using hm
    exact h
  | closure _ t, h, x, hx, m, hm => by
    have h0 := IsPlain.range_eq_none (t := t) h x hx
    simp [h0] at hm
  | joined _ l r, h, x, hx, m, hm => by
    rcases List.mem_append.1 hx with hx | hx
    · exact h.1.isNever_eq_false x hx m hm
    · exact h.2.isNever_eq_false x hx m hm

/-- The count of the point does not go beyond the range of its leaf. -/
def Point.Within (range : Leaf → Option Multiplicity) (x : Point) : Prop :=
  ∀ p, x.last = some p → 0 < x.count ∧
    ∀ m, range p = some m → ∀ max, m.max = some max → x.count ≤ max.toNat

theorem Point.Within.read {t : Tree} {x : Point} {l : Leaf} (h : t.IsRegular)
    (hi : Indexes range t) (ha : Allows t.Next range x (some l)) : (x.read l).Within range := by
  intro p hy
  cases hy
  refine ⟨?_, fun m hm max hmax => ?_⟩
  · unfold Point.read
    split <;> simp
  · unfold Point.read
    split
    · rename_i e
      have hp := ha.2 m (by simpa [e] using hm)
      rw [if_pos e.symm] at hp
      exact hp max hmax
    · obtain ⟨x, hx, rfl⟩ := List.mem_map.1 (has_of_next_right ha.1)
      have hrange := (hi.range_eq x hx).symm.trans hm
      exact Multiplicity.pos_of_max (h.isNever_eq_false x hx m hrange).2 hmax

/-- An expression has a word. -/
theorem IsExpression.exists_mem_words : ∀ {t : Tree}, t.IsExpression → ∃ w, w ∈ t.words
  | epsilon, _ => ⟨[], rfl⟩
  | leaf l, _ => ⟨[l], rfl⟩
  | counted _ m, h => ⟨_, m.min.toNat, Multiplicity.admits_min h.1, mem_singleton_pow.2 rfl⟩
  | closure .optional _, _ => ⟨[], .inl rfl⟩
  | closure .star _, _ => ⟨[], Language.nil_mem_kstar _⟩
  | closure .plus t, h => by
    obtain ⟨w, hw⟩ := IsExpression.exists_mem_words (t := t) h
    exact ⟨w ++ [], Language.append_mem_mul hw (Language.nil_mem_kstar _)⟩
  | joined .choice _ _, h => by
    obtain ⟨w, hw⟩ := h.1.exists_mem_words
    exact ⟨w, .inl hw⟩
  | joined .sequence _ _, h => by
    obtain ⟨w, hw⟩ := h.1.exists_mem_words
    obtain ⟨v, hv⟩ := h.2.exists_mem_words
    exact ⟨w ++ v, Language.append_mem_mul hw hv⟩

/-- From any leaf on, reading can be completed. -/
theorem exists_accepts : ∀ {t : Tree}, t.IsRegular → Indexes range t → ∀ {x : Point},
    x.Within range → ∀ {p : Leaf}, x.last = some p → t.Has p → ∃ w, Accepts t.Next range x w
  | epsilon, _, _, _, _, _, _, hp => absurd hp not_has_epsilon
  | leaf l, _, hi, x, _, p, hl, hp => by
    obtain rfl := has_leaf.1 hp
    have hr : range p = none := hi.range_eq (p, none) (by simp [leaves])
    exact ⟨[], by simp [Next, hl], Point.permits_of_uncounted (by simp [hl, hr])⟩
  | counted l m, h, hi, ⟨last, c⟩, hx, p, hl, hp => by
    obtain rfl := has_counted.1 hp
    obtain rfl : last = some p := hl
    have hr : range p = some m := hi.range_eq (p, some m) (by simp [leaves])
    have hpos : 0 < c := (hx p rfl).1
    have hle : ∀ max, m.max = some max → c ≤ max.toNat := (hx p rfl).2 m hr
    refine ⟨List.replicate (m.min.toNat - c) p,
      (accepts_counted hr hpos hle).2 ⟨_, rfl, by omega, fun max hmax => ?_⟩⟩
    have h1 := (Multiplicity.admits_min h.1).2 max hmax
    have h2 := hle max hmax
    omega
  | closure op t, h, hi, x, hx, p, hl, hp => by
    have hi : Indexes range t := ⟨hi.nodup, hi.range_eq⟩
    obtain ⟨w, hw⟩ := exists_accepts (t := t) (IsPlain.isRegular h) hi hx hl hp
    exact ⟨w, hw.mono fun y z => .inl⟩
  | joined .choice a b, h, hi, x, hx, p, hl, hp => by
    rcases has_joined.1 hp with hp | hp
    · obtain ⟨w, hw⟩ := exists_accepts h.1 hi.left hx hl hp
      exact ⟨w, (accepts_choice_left hi.disjoint ⟨p, hl, hp⟩).2 hw⟩
    · obtain ⟨w, hw⟩ := exists_accepts h.2 hi.right hx hl hp
      exact ⟨w, (accepts_choice_right hi.disjoint ⟨p, hl, hp⟩).2 hw⟩
  | joined .sequence a b, h, hi, x, hx, p, hl, hp => by
    rcases has_joined.1 hp with hp | hp
    · obtain ⟨w, hw⟩ := exists_accepts h.1 hi.left hx hl hp
      obtain ⟨v, hv⟩ := h.2.isExpression.exists_mem_words
      rw [← accepted_eq_words h.2 hi.right, mem_accepted] at hv
      refine ⟨w ++ v, (accepts_sequence hi.disjoint fun q hq => ?_).2 ⟨w, v, rfl, hw, hv⟩⟩
      cases hl.symm.trans hq
      exact hp
    · obtain ⟨w, hw⟩ := exists_accepts h.2 hi.right hx hl hp
      exact ⟨w, (accepts_sequence_right hi.disjoint ⟨p, hl, hp⟩).2 hw⟩

/-! ## Beginnings of words -/

section Reads

variable (next : Option Leaf → Option Leaf → Prop) (range : Leaf → Option Multiplicity)

/-- A list of leaves can be read from the beginning on, and leads to a point. -/
inductive Reads : List Leaf → Point → Prop
  | start : Reads [] .start
  | read {w : List Leaf} {x : Point} {l : Leaf} (reads : Reads w x)
    (allows : Allows next range x (some l)) : Reads (w ++ [l]) (x.read l)

end Reads

theorem Reads.accepts_append {w v : List Leaf} {x : Point} (h : Reads next range w x) :
    Accepts next range .start (w ++ v) ↔ Accepts next range x v := by
  induction h generalizing v with
  | start => rfl
  | read _ ha ih =>
    rw [List.append_assoc, ih, List.singleton_append, Accepts, and_iff_right ha]

theorem exists_reads {w v : List Leaf} (h : Accepts next range .start (w ++ v)) :
    ∃ x, Reads next range w x := by
  induction w using List.reverseRecOn generalizing v with
  | nil => exact ⟨_, .start⟩
  | append_singleton w l ih =>
    rw [List.append_assoc] at h
    obtain ⟨x, hx⟩ := ih h
    exact ⟨_, .read hx (hx.accepts_append.1 h).1⟩

theorem Reads.count_le {w : List Leaf} {x : Point} (h : Reads next range w x) :
    x.count ≤ w.length := by
  induction h with
  | start => exact Nat.le_refl _
  | @read w x l _ _ ih =>
    rw [List.length_append, List.length_singleton, Point.read]
    split <;> simp only [] <;> omega

theorem Reads.has {t : Tree} {w : List Leaf} {x : Point} (hr : Reads t.Next range w x) {p : Leaf}
    (hp : x.last = some p) : t.Has p := by
  cases hr with
  | start => cases hp
  | read _ ha =>
    cases hp
    exact has_of_next_right ha.1

theorem Reads.mem_of_last {w : List Leaf} {x : Point} (hr : Reads next range w x) {p : Leaf}
    (hp : x.last = some p) : p ∈ w := by
  cases hr with
  | start => cases hp
  | read => simp [Option.some.inj hp]

theorem Reads.within {t : Tree} {w : List Leaf} {x : Point} (h : t.IsRegular) (hi : Indexes range t)
    (hr : Reads t.Next range w x) : x.Within range := by
  cases hr with
  | start => exact fun p hp => by cases hp
  | read _ ha => exact .read h hi ha

/-- What can be read are the beginnings of words. -/
theorem extends_iff {t : Tree} (h : t.IsRegular) (hi : Indexes range t) {w : List Leaf} :
    (∃ v, w ++ v ∈ t.words) ↔ ∃ x, Reads t.Next range w x := by
  constructor
  · intro hx
    obtain ⟨v, hv⟩ := hx
    rw [← accepted_eq_words h hi] at hv
    exact exists_reads hv
  · intro hx
    obtain ⟨x, hr⟩ := hx
    cases hl : x.last with
    | none =>
      cases hr with
      | start => exact h.isExpression.exists_mem_words
      | read => cases hl
    | some p =>
      obtain ⟨v, hv⟩ := exists_accepts h hi (hr.within h hi) hl (hr.has hl)
      rw [← accepted_eq_words h hi]
      exact ⟨v, hr.accepts_append.2 hv⟩

/-- What can be read is a word exactly when it may end there. -/
theorem mem_words_iff {t : Tree} (h : t.IsRegular) (hi : Indexes range t) {w : List Leaf} :
    w ∈ t.words ↔ ∃ x, Reads t.Next range w x ∧ Allows t.Next range x none := by
  rw [← accepted_eq_words h hi, mem_accepted]
  have hend : ∀ {x}, Reads t.Next range w x →
      (Accepts t.Next range .start w ↔ Allows t.Next range x none) := fun hx => by
    simpa [Accepts] using hx.accepts_append (v := [])
  constructor
  · intro ha
    obtain ⟨x, hx⟩ := exists_reads (v := []) (by simpa using ha)
    exact ⟨x, hx, (hend hx).1 ha⟩
  · intro hy
    obtain ⟨x, hx, he⟩ := hy
    exact (hend hx).2 he

/-! ## The numbers of the particles -/

theorem reads_append_iff {w : List Leaf} {l : Leaf} {x' : Point} :
    Reads next range (w ++ [l]) x' ↔
      ∃ x, Reads next range w x ∧ Allows next range x (some l) ∧ x' = x.read l := by
  constructor
  · intro h
    generalize hw : w ++ [l] = w' at h
    cases h with
    | start => simp at hw
    | read hr ha =>
      obtain ⟨rfl, rfl⟩ := List.append_singleton_inj.1 hw
      exact ⟨_, hr, ha, rfl⟩
  · intro hx
    obtain ⟨x, hr, ha, rfl⟩ := hx
    exact hr.read ha

/-- The particles of the leaves, in the order in which leaves stand in words. -/
def attributions (t : Tree) : Language Nat := t.language fun l => {[l.particle]}

theorem attributions_numbered (t : Tree) : t.numbered.attributions = t.attributions :=
  language_number (fun _ _ => rfl) t 0

/-- Leaves of the given particles can be read, and lead to the point. -/
def Reaches (t : Tree) (range : Leaf → Option Multiplicity) (u : List Nat) (x : Point) : Prop :=
  ∃ w, w.map (·.particle) = u ∧ Reads t.Next range w x

theorem mem_attributions_iff_words {t : Tree} {u : List Nat} :
    u ∈ t.attributions ↔ ∃ w ∈ t.words, w.map (·.particle) = u :=
  mem_language_label

theorem nil_mem_beginnings {t : Tree} (h : t.IsRegular) : [] ∈ beginnings t.attributions := by
  obtain ⟨w, hw⟩ := h.isExpression.exists_mem_words
  exact mem_beginnings.2 ⟨_, mem_attributions_iff_words.2 ⟨w, hw, rfl⟩⟩

section Reaches

variable {t : Tree} {u : List Nat}

theorem reaches_nil_iff {x : Point} : t.Reaches range [] x ↔ x = .start := by
  constructor
  · intro h
    obtain ⟨w, hw, hr⟩ := h
    obtain rfl := List.map_eq_nil_iff.1 hw
    generalize hn : ([] : List Leaf) = w at hr
    cases hr with
    | start => rfl
    | read => simp at hn
  · intro h
    subst h
    exact ⟨[], rfl, .start⟩

theorem reaches_append_iff {e : Nat} {x' : Point} :
    t.Reaches range (u ++ [e]) x' ↔ ∃ x k, t.Reaches range u x ∧
      Allows t.Next range x (some k) ∧ k.particle = e ∧ x' = x.read k := by
  constructor
  · intro h
    obtain ⟨w', hw', hr⟩ := h
    obtain ⟨w, v, rfl, hw, hv⟩ := List.map_eq_append_iff.1 hw'
    obtain ⟨k, rfl, hk⟩ := List.map_eq_singleton_iff.1 hv
    obtain ⟨x, hx, ha, rfl⟩ := reads_append_iff.1 hr
    exact ⟨x, k, ⟨w, hw, hx⟩, ha, hk, rfl⟩
  · intro h
    obtain ⟨x, k, ⟨w, rfl, hr⟩, ha, rfl, rfl⟩ := h
    exact ⟨w ++ [k], by simp, hr.read ha⟩

variable (h : t.IsRegular) (hi : Indexes range t)

include h hi

/-- The beginnings of words are what can be read. -/
theorem mem_beginnings_iff : u ∈ beginnings t.attributions ↔ ∃ x, t.Reaches range u x := by
  simp only [mem_beginnings, mem_attributions_iff_words]
  constructor
  · intro hy
    obtain ⟨v, w, hw, hwuv⟩ := hy
    obtain ⟨w₁, w₂, rfl, hw₁, -⟩ := List.map_eq_append_iff.1 hwuv
    obtain ⟨x, hx⟩ := (extends_iff h hi).1 ⟨w₂, hw⟩
    exact ⟨x, w₁, hw₁, hx⟩
  · intro hy
    obtain ⟨x, w, rfl, hx⟩ := hy
    obtain ⟨v, hv⟩ := (extends_iff h hi).2 ⟨x, hx⟩
    exact ⟨_, _, hv, List.map_append⟩

/-- Words are what can be read and may end there. -/
theorem mem_attributions_iff :
    u ∈ t.attributions ↔ ∃ x, t.Reaches range u x ∧ Allows t.Next range x none := by
  simp only [mem_attributions_iff_words, mem_words_iff h hi]
  constructor
  · intro hy
    obtain ⟨w, ⟨x, hx, ha⟩, hw⟩ := hy
    exact ⟨x, ⟨w, hw, hx⟩, ha⟩
  · intro hy
    obtain ⟨x, ⟨w, hw, hx⟩, ha⟩ := hy
    exact ⟨w, ⟨x, hx, ha⟩, hw⟩

/-- What may come next, in terms of points. -/
theorem append_mem_beginnings_iff {e : Nat} :
    u ++ [e] ∈ beginnings t.attributions ↔ ∃ x k, t.Reaches range u x ∧
      Allows t.Next range x (some k) ∧ k.particle = e := by
  rw [mem_beginnings_iff h hi]
  simp only [reaches_append_iff]
  constructor
  · intro hy
    obtain ⟨_, x, k, hx, ha, hk, -⟩ := hy
    exact ⟨x, k, hx, ha, hk⟩
  · intro hy
    obtain ⟨x, k, hx, ha, hk⟩ := hy
    exact ⟨_, x, k, hx, ha, hk, rfl⟩

end Reaches

end ContentAutomata.Tree
