import ContentAutomata.Automaton.Basic
import ContentAutomata.Proofs.Tree.Shape

/-!
# What may come next in a word of a tree

`t.Next x y` says that `y` may come directly after `x` in a word of the tree `t`, where `none` is
the beginning of the word as `x` and its end as `y`. This one relation holds what is otherwise kept
in four tables: whether the empty word is in the language, where words begin, where they end, and
which leaf follows which. In a sequence the end of the left part is the beginning of the right one,
and going round a loop leads from the end back to the beginning.

Results:
* `has_of_next_left`, `has_of_next_right`: only leaves of the tree follow each other;
* `next_sequence_of_left`, `next_sequence_across`: how the parts of a sequence are joined;
* `isNullable_iff`, `mem_first`, `mem_last`, `mem_after_follow`: the tables hold this relation;
* `mem_initial`, `mem_followWithEnd`: so do those that the automaton is built from.
-/
namespace ContentAutomata.Tree

/-- Holds no `all` node. -/
def IsAllFree : Tree → Prop
  | epsilon => True
  | leaf _ => True
  | counted _ _ => True
  | closure _ t => t.IsAllFree
  | joined _ l r => l.IsAllFree ∧ r.IsAllFree
  | all _ _ => False

theorem IsExpression.isAllFree : ∀ {t : Tree}, t.IsExpression → t.IsAllFree
  | epsilon, _ => trivial
  | leaf _, _ => trivial
  | counted _ _, _ => trivial
  | closure _ t, h => IsExpression.isAllFree (t := t) h
  | joined _ _ _, h => ⟨h.1.isAllFree, h.2.isAllFree⟩

theorem IsRegular.isAllFree {t : Tree} (h : t.IsRegular) : t.IsAllFree := h.isExpression.isAllFree

theorem IsPlain.isAllFree {t : Tree} (h : t.IsPlain) : t.IsAllFree := h.isRegular.isAllFree

/-- The leaf `y` may come directly after `x` in a word of the tree; `none` stands for the beginning
of the word as `x` and for its end as `y`. An `all` node is not read this way. -/
def Next : Tree → (x y : Option Leaf) → Prop
  | epsilon, x, y => x = none ∧ y = none
  | leaf l, x, y => (x = none ∧ y = some l) ∨ (x = some l ∧ y = none)
  | counted l m, x, y =>
    (x = none ∧ y = some l) ∨ (x = some l ∧ y = none) ∨
      (m.max ≠ some 1 ∧ x = some l ∧ y = some l) ∨ (m.min = 0 ∧ x = none ∧ y = none)
  | closure op t, x, y =>
    t.Next x y ∨ (op ≠ .plus ∧ x = none ∧ y = none) ∨
      (op ≠ .optional ∧ t.Next x none ∧ t.Next none y)
  | joined .choice l r, x, y => l.Next x y ∨ r.Next x y
  | joined .sequence l r, x, y =>
    (y ≠ none ∧ l.Next x y) ∨ (x ≠ none ∧ r.Next x y) ∨ (l.Next x none ∧ r.Next none y)
  | all _ _, _, _ => False

/-- The leaf stands in the tree. -/
def Has (t : Tree) (l : Leaf) : Prop := l ∈ t.leaves.map (·.1)

section Has

variable {l : Leaf} {t a b : Tree} {op : Connective} {cl : Closure} {m : Multiplicity} {k : Leaf}

@[simp] theorem not_has_epsilon : ¬ epsilon.Has l := by simp [Has, leaves]

@[simp] theorem has_leaf : (leaf k).Has l ↔ l = k := by simp [Has, leaves]

@[simp] theorem has_counted : (counted k m).Has l ↔ l = k := by simp [Has, leaves]

@[simp] theorem has_closure : (closure cl t).Has l ↔ t.Has l := Iff.rfl

@[simp] theorem has_joined : (joined op a b).Has l ↔ a.Has l ∨ b.Has l := by
  simp only [Has, leaves, List.map_append, List.mem_append]

end Has

theorem has_of_next_left : ∀ {t : Tree} {p : Leaf} {y : Option Leaf}, t.Next (some p) y → t.Has p
  | epsilon, p, y, h => by simp [Next] at h
  | leaf l, p, y, h => by simp_all [Next]
  | counted l m, p, y, h => by
    simp only [Next, reduceCtorEq, false_and, false_or, and_false, or_false, Option.some.injEq] at h
    simpa using h.elim And.left fun h => h.2.1
  | closure op t, p, y, h => by
    simp only [Next, reduceCtorEq, false_and, and_false, false_or] at h
    exact h.elim has_of_next_left fun h => has_of_next_left (t := t) h.2.1
  | joined .choice l r, p, y, h => has_joined.2 (h.imp has_of_next_left has_of_next_left)
  | joined .sequence l r, p, y, h => by
    rcases h with ⟨-, h⟩ | ⟨-, h⟩ | ⟨h, -⟩
    · exact has_joined.2 (.inl (has_of_next_left h))
    · exact has_joined.2 (.inr (has_of_next_left h))
    · exact has_joined.2 (.inl (has_of_next_left h))

theorem has_of_next_right : ∀ {t : Tree} {x : Option Leaf} {q : Leaf}, t.Next x (some q) → t.Has q
  | epsilon, x, q, h => by simp [Next] at h
  | leaf l, x, q, h => by simp_all [Next]
  | counted l m, x, q, h => by
    simp only [Next, reduceCtorEq, false_or, and_false, or_false, Option.some.injEq] at h
    simpa using h.elim And.right fun h => h.2.2
  | closure op t, x, q, h => by
    simp only [Next, reduceCtorEq, and_false, false_or] at h
    exact h.elim has_of_next_right fun h => has_of_next_right (t := t) h.2.2
  | joined .choice l r, x, q, h => has_joined.2 (h.imp has_of_next_right has_of_next_right)
  | joined .sequence l r, x, q, h => by
    rcases h with ⟨-, h⟩ | ⟨-, h⟩ | ⟨-, h⟩
    · exact has_joined.2 (.inl (has_of_next_right h))
    · exact has_joined.2 (.inr (has_of_next_right h))
    · exact has_joined.2 (.inr (has_of_next_right h))

/-! ## Within sequences and choices -/

section Joined

variable {a b : Tree} (disjoint : ∀ l, a.Has l → ¬ b.Has l)

include disjoint

theorem not_next_of_has_left {p : Leaf} (hp : a.Has p) (y : Option Leaf) : ¬ b.Next (some p) y :=
  fun h => disjoint p hp (has_of_next_left h)

theorem not_next_of_has_right {p : Leaf} (hp : b.Has p) (y : Option Leaf) : ¬ a.Next (some p) y :=
  fun h => disjoint p (has_of_next_left h) hp

theorem next_choice_left {p : Leaf} (hp : a.Has p) {y : Option Leaf} :
    (joined .choice a b).Next (some p) y ↔ a.Next (some p) y := by
  simp [Next, not_next_of_has_left disjoint hp]

theorem next_choice_right {p : Leaf} (hp : b.Has p) {y : Option Leaf} :
    (joined .choice a b).Next (some p) y ↔ b.Next (some p) y := by
  simp [Next, not_next_of_has_right disjoint hp]

theorem next_sequence_left {x : Option Leaf} {q : Leaf} (hq : a.Has q) :
    (joined .sequence a b).Next x (some q) ↔ a.Next x (some q) := by
  have hb : ∀ y, ¬ b.Next y (some q) := fun y h => disjoint q hq (has_of_next_right h)
  simp [Next, hb]

theorem next_sequence_right {p : Leaf} (hp : b.Has p) {y : Option Leaf} :
    (joined .sequence a b).Next (some p) y ↔ b.Next (some p) y := by
  simp [Next, not_next_of_has_right disjoint hp]

/-- After the left part of a sequence comes more of it, or the beginning of the right one. -/
theorem next_sequence_of_left {x y : Option Leaf} (hx : ∀ p, x = some p → a.Has p) :
    (joined .sequence a b).Next x y ↔
      (y ≠ none ∧ a.Next x y) ∨ (a.Next x none ∧ b.Next none y) := by
  rw [Next]
  refine or_congr Iff.rfl ⟨fun h => h.elim (fun h => ?_) id, .inr⟩
  obtain ⟨p, rfl⟩ := Option.ne_none_iff_exists'.1 h.1
  exact absurd h.2 (not_next_of_has_left disjoint (hx p rfl) y)

/-- What comes after the left part of a sequence is the beginning of the right one. -/
theorem next_sequence_across {x y : Option Leaf} (hx : ∀ p, x = some p → a.Has p)
    (hy : ∀ q, y = some q → b.Has q) :
    (joined .sequence a b).Next x y ↔ a.Next x none ∧ b.Next none y := by
  rw [next_sequence_of_left disjoint hx]
  apply or_iff_right
  intro h
  obtain ⟨q, rfl⟩ := Option.ne_none_iff_exists'.1 h.1
  exact disjoint q (has_of_next_right h.2) (hy q rfl)

end Joined

/-! ## The tables of a tree -/

theorem isNullable_iff : ∀ {t : Tree}, t.IsAllFree → (t.isNullable = true ↔ t.Next none none)
  | epsilon, _ => by simp [isNullable, Next]
  | leaf _, _ => by simp [isNullable, Next]
  | counted _ _, _ => by simp [isNullable, Next]
  | closure .optional t, _ => by simp [isNullable, Next]
  | closure .star t, _ => by simp [isNullable, Next]
  | closure .plus t, h => by
    have ih := isNullable_iff (t := t) h
    simp [isNullable, Next, ih]
  | joined .choice l r, h => by
    simp [isNullable, Next, isNullable_iff h.1, isNullable_iff h.2]
  | joined .sequence l r, h => by
    simp [isNullable, Next, isNullable_iff h.1, isNullable_iff h.2]

/-- All positions of the tree are below `n`. -/
def Fits (t : Tree) (n : Nat) : Prop := ∀ l, t.Has l → l.position < n

theorem Fits.left {op : Connective} {l r : Tree} {n : Nat} (h : (joined op l r).Fits n) :
    l.Fits n := fun x hx => h x (has_joined.2 (.inl hx))

theorem Fits.right {op : Connective} {l r : Tree} {n : Nat} (h : (joined op l r).Fits n) :
    r.Fits n := fun x hx => h x (has_joined.2 (.inr hx))

/-- Leaves that are numbered from 0 have their positions below their number. -/
theorem fits_of_positions {t : Tree} {n : Nat}
    (h : t.leaves.map (·.1.position) = List.range' 0 n) : t.Fits n := by
  intro l hl
  obtain ⟨x, hx, rfl⟩ := List.mem_map.1 hl
  have hmem := List.mem_map_of_mem (f := (·.1.position)) hx
  rw [h, List.mem_range'_1] at hmem
  omega

/-- Some leaf at position `p` satisfies `f`. -/
def AtPosition (p : Nat) (f : Leaf → Prop) : Prop := ∃ l, l.position = p ∧ f l

theorem atPosition_or {p : Nat} {f g : Leaf → Prop} :
    AtPosition p (fun l => f l ∨ g l) ↔ AtPosition p f ∨ AtPosition p g := by
  simp only [AtPosition, and_or_left, exists_or]

theorem mem_first {n p : Nat} : ∀ {t : Tree}, t.IsAllFree → t.Fits n →
    (p ∈ t.first n ↔ AtPosition p fun l => t.Next none (some l))
  | epsilon, _, _ => by simp [first, Next, AtPosition]
  | leaf l, _, hf => by
    simp [first, Next, AtPosition, PositionSet.mem_singleton (hf l (by simp)), eq_comm]
  | counted l m, _, hf => by
    simp [first, Next, AtPosition, PositionSet.mem_singleton (hf l (by simp)), eq_comm]
  | closure op t, h, hf => by
    unfold first
    rw [mem_first (t := t) h hf]
    refine exists_congr fun l => and_congr Iff.rfl ?_
    simp only [Next, reduceCtorEq, and_false, false_or]
    exact ⟨.inl, fun h => h.elim id fun h => h.2.2⟩
  | joined .choice l r, h, hf => by
    unfold first
    rw [PositionSet.mem_union, mem_first h.1 hf.left, mem_first h.2 hf.right]
    exact atPosition_or.symm
  | joined .sequence l r, h, hf => by
    have e : (p ∈ (joined .sequence l r).first n ↔
        p ∈ l.first n ∨ (l.Next none none ∧ p ∈ r.first n)) := by
      rw [first, ← isNullable_iff h.1]
      split <;> simp [*]
    rw [e, mem_first h.1 hf.left, mem_first h.2 hf.right]
    simp only [Next, ne_eq, reduceCtorEq, not_false_eq_true, true_and, not_true_eq_false,
      false_and, false_or, atPosition_or]
    simp only [AtPosition, ← exists_and_left, and_left_comm]

theorem mem_last {n p : Nat} : ∀ {t : Tree}, t.IsAllFree → t.Fits n →
    (p ∈ t.last n ↔ AtPosition p fun l => t.Next (some l) none)
  | epsilon, _, _ => by simp [last, Next, AtPosition]
  | leaf l, _, hf => by
    simp [last, Next, AtPosition, PositionSet.mem_singleton (hf l (by simp)), eq_comm]
  | counted l m, _, hf => by
    simp [last, Next, AtPosition, PositionSet.mem_singleton (hf l (by simp)), eq_comm]
  | closure op t, h, hf => by
    unfold last
    rw [mem_last (t := t) h hf]
    refine exists_congr fun l => and_congr Iff.rfl ?_
    simp only [Next, reduceCtorEq, false_and, and_false, false_or]
    exact ⟨.inl, fun h => h.elim id fun h => h.2.1⟩
  | joined .choice l r, h, hf => by
    unfold last
    rw [PositionSet.mem_union, mem_last h.1 hf.left, mem_last h.2 hf.right]
    exact atPosition_or.symm
  | joined .sequence l r, h, hf => by
    have e : (p ∈ (joined .sequence l r).last n ↔
        p ∈ r.last n ∨ (p ∈ l.last n ∧ r.Next none none)) := by
      rw [last, ← isNullable_iff h.2]
      split <;> simp [*, or_comm]
    rw [e, mem_last h.1 hf.left, mem_last h.2 hf.right]
    simp only [Next, ne_eq, reduceCtorEq, not_false_eq_true, true_and, not_true_eq_false,
      false_and, false_or, atPosition_or]
    simp only [AtPosition, ← and_assoc, exists_and_right]

namespace FollowTable

variable {n : Nat} {table : FollowTable n} {ends next : PositionSet n}

theorem mem_after_iff {p q : Nat} : q ∈ table.after p ↔ ∃ s, table[p]? = some s ∧ q ∈ s := by
  unfold after
  cases table[p]? <;> simp

theorem foldl_add (ps : List Nat) (table : FollowTable n) (next : PositionSet n)
    (h : ∀ p ∈ ps, p < table.size) :
    (ps.foldl (fun table p => table.add p next) table).size = table.size ∧
      ∀ p q, q ∈ (ps.foldl (fun table p => table.add p next) table).after p ↔
        q ∈ table.after p ∨ (p ∈ ps ∧ q ∈ next) := by
  induction ps generalizing table with
  | nil => simp
  | cons r rs ih =>
    simp only [List.mem_cons, forall_eq_or_imp] at h
    obtain ⟨hsize, hmem⟩ := ih (table.add r next) (by simpa using h.2)
    refine ⟨by rw [List.foldl_cons, hsize, size_add], fun p q => ?_⟩
    rw [List.foldl_cons, hmem, after_add h.1, List.mem_cons]
    split
    · rename_i e
      subst e
      simp only [PositionSet.mem_union, true_or, true_and, or_assoc]
      exact or_congr Iff.rfl ⟨fun h => h.elim id And.right, .inl⟩
    · rename_i hne
      simp [Ne.symm hne]

@[simp] theorem size_addAll (h : table.size = n) : (table.addAll ends next).size = n := by
  refine (foldl_add _ _ _ fun p hp => ?_).1.trans h
  rw [h]
  exact PositionSet.lt_of_mem (PositionSet.mem_members.1 hp)

theorem mem_after_addAll (h : table.size = n) {p q : Nat} :
    q ∈ (table.addAll ends next).after p ↔ q ∈ table.after p ∨ (p ∈ ends ∧ q ∈ next) := by
  unfold addAll
  rw [(foldl_add _ _ _ fun p hp => ?_).2, PositionSet.mem_members]
  rw [h]
  exact PositionSet.lt_of_mem (PositionSet.mem_members.1 hp)

end FollowTable

mutual
@[simp] theorem size_follow {n : Nat} : ∀ {t : Tree} {table : FollowTable n}, table.size = n →
    (t.follow table).size = n
  | epsilon, table, hs => hs
  | leaf _, table, hs => hs
  | counted l m, table, hs => by
    unfold follow
    split
    · exact hs
    · rw [FollowTable.size_add, hs]
  | closure .optional t, table, hs => size_follow (t := t) hs
  | closure .star t, table, hs => FollowTable.size_addAll (size_follow (t := t) hs)
  | closure .plus t, table, hs => FollowTable.size_addAll (size_follow (t := t) hs)
  | joined .choice l r, table, hs => size_follow (t := r) (size_follow (t := l) hs)
  | joined .sequence l r, table, hs =>
    FollowTable.size_addAll (size_follow (t := r) (size_follow (t := l) hs))
  | all ts _, table, hs => size_followMembers ts hs
theorem size_followMembers {n : Nat} {starts : PositionSet n} : ∀ (ts : List Tree)
    {table : FollowTable n}, table.size = n → (followMembers starts ts table).size = n
  | [], _, hs => hs
  | t :: ts, _, hs => size_followMembers ts (FollowTable.size_addAll (size_follow (t := t) hs))
end

/-- A leaf at position `q` may come directly after one at position `p`. -/
def FollowsAt (t : Tree) (p q : Nat) : Prop :=
  AtPosition p fun k => AtPosition q fun l => t.Next (some k) (some l)

theorem mem_addAll_last_first {n p q : Nat} {a b : Tree} {table : FollowTable n}
    (ha : a.IsAllFree) (hb : b.IsAllFree) (hfa : a.Fits n) (hfb : b.Fits n) (hs : table.size = n) :
    q ∈ (table.addAll (a.last n) (b.first n)).after p ↔ q ∈ table.after p ∨
      AtPosition p fun k => AtPosition q fun l => a.Next (some k) none ∧ b.Next none (some l) := by
  rw [FollowTable.mem_after_addAll hs, mem_last ha hfa, mem_first hb hfb]
  refine or_congr Iff.rfl ⟨?_, ?_⟩
  · intro h
    obtain ⟨⟨k, hk, hl⟩, l, hq, hf⟩ := h
    exact ⟨k, hk, l, hq, hl, hf⟩
  · intro h
    obtain ⟨k, hk, l, hq, hl, hf⟩ := h
    exact ⟨⟨k, hk, hl⟩, l, hq, hf⟩

theorem mem_after_follow {n p q : Nat} : ∀ {t : Tree} {table : FollowTable n}, t.IsAllFree →
    t.Fits n → table.size = n →
    (q ∈ (t.follow table).after p ↔ q ∈ table.after p ∨ t.FollowsAt p q)
  | epsilon, table, _, _, _ => by simp [follow, FollowsAt, AtPosition, Next]
  | leaf _, table, _, _, _ => by simp [follow, FollowsAt, AtPosition, Next]
  | counted l m, table, _, hf, hs => by
    have hl := hf l (by simp)
    unfold follow
    split
    · rename_i h1
      simp [FollowsAt, AtPosition, Next, h1]
    · rename_i h1
      rw [FollowTable.after_add (by omega)]
      split
      · rename_i e
        subst e
        simp [FollowsAt, AtPosition, Next, h1, PositionSet.mem_singleton hl, eq_comm]
      · rename_i hne
        refine ⟨.inl, fun h => h.elim id ?_⟩
        intro hx
        obtain ⟨k, rfl, l', -, h⟩ := hx
        simp only [Next, reduceCtorEq, false_and, and_false, false_or, or_false,
          Option.some.injEq] at h
        exact absurd (congrArg Leaf.position h.2.1.symm) hne
  | closure .optional t, table, h, hf, hs => by
    unfold follow
    rw [mem_after_follow (t := t) h hf hs]
    simp [FollowsAt, Next]
  | closure .star t, table, h, hf, hs => by
    rw [follow, mem_addAll_last_first (a := t) (b := t) h h hf hf (size_follow hs),
      mem_after_follow (t := t) h hf hs]
    simp only [FollowsAt, Next, ne_eq, reduceCtorEq, not_false_eq_true, and_false, false_or,
      true_and, atPosition_or, or_assoc]
  | closure .plus t, table, h, hf, hs => by
    rw [follow, mem_addAll_last_first (a := t) (b := t) h h hf hf (size_follow hs),
      mem_after_follow (t := t) h hf hs]
    simp only [FollowsAt, Next, ne_eq, reduceCtorEq, not_false_eq_true, and_false, false_or,
      true_and, atPosition_or, or_assoc]
  | joined .choice l r, table, h, hf, hs => by
    rw [follow, mem_after_follow h.2 hf.right (size_follow hs),
      mem_after_follow h.1 hf.left hs, or_assoc]
    simp only [FollowsAt, Next, atPosition_or]
  | joined .sequence l r, table, h, hf, hs => by
    rw [follow, mem_addAll_last_first h.1 h.2 hf.left hf.right
        (size_follow (size_follow hs)),
      mem_after_follow h.2 hf.right (size_follow hs), mem_after_follow h.1 hf.left hs]
    simp only [FollowsAt, Next, ne_eq, reduceCtorEq, not_false_eq_true, true_and, atPosition_or,
      or_assoc]

theorem size_followTable (t : Tree) (n : Nat) : (t.followTable n).size = n :=
  size_follow (Array.size_replicate)

theorem FollowTable.not_mem_after_replicate {n p q : Nat} :
    q ∉ FollowTable.after (Array.replicate n (∅ : PositionSet n)) p := by
  simp [FollowTable.mem_after_iff, Array.getElem?_replicate]

theorem mem_followTable {t : Tree} {n p q : Nat} (h : t.IsAllFree) (hf : t.Fits n) :
    q ∈ (t.followTable n).after p ↔ t.FollowsAt p q := by
  rw [followTable, mem_after_follow h hf Array.size_replicate]
  exact or_iff_right FollowTable.not_mem_after_replicate

/-! ## The tables of an automaton -/

/-- The number that stands for a leaf or for the end of the content, in a tree with `leafCount`
leaves. -/
def code (leafCount : Nat) : Option Leaf → Nat
  | none => leafCount
  | some l => l.position

/-- The positions of what may come after `x`, the end of the content among them. -/
def CodesAfter (t : Tree) (leafCount : Nat) (x : Option Leaf) (q : Nat) : Prop :=
  ∃ y, code leafCount y = q ∧ t.Next x y

theorem codesAfter_iff {t : Tree} {leafCount q : Nat} {x : Option Leaf} :
    t.CodesAfter leafCount x q ↔
      (q = leafCount ∧ t.Next x none) ∨ AtPosition q fun l => t.Next x (some l) := by
  constructor
  · intro hx
    obtain ⟨_ | l, rfl, h⟩ := hx
    · exact .inl ⟨rfl, h⟩
    · exact .inr ⟨l, rfl, h⟩
  · intro hx
    rcases hx with ⟨rfl, h⟩ | ⟨l, rfl, h⟩
    · exact ⟨none, rfl, h⟩
    · exact ⟨some l, rfl, h⟩

theorem mem_initial {t : Tree} {leafCount q : Nat} (h : t.IsAllFree) (hf : t.Fits leafCount) :
    q ∈ Automaton.initial t leafCount ↔ t.CodesAfter leafCount none q := by
  have hf' : t.Fits (leafCount + 1) := fun l hl => Nat.lt_succ_of_lt (hf l hl)
  unfold Automaton.initial
  rw [codesAfter_iff, ← isNullable_iff h]
  split
  · rename_i hn
    rw [PositionSet.mem_insert (Nat.lt_succ_self _), mem_first h hf']
    simp [hn]
  · rename_i hn
    rw [mem_first h hf']
    simp [hn]

theorem mem_followWithEnd {t : Tree} {leafCount p q : Nat} (h : t.IsAllFree)
    (hf : t.Fits leafCount) :
    q ∈ (Automaton.followWithEnd t leafCount).after p ↔
      AtPosition p fun l => t.CodesAfter leafCount (some l) q := by
  have hf' : t.Fits (leafCount + 1) := fun l hl => Nat.lt_succ_of_lt (hf l hl)
  rw [Automaton.followWithEnd, FollowTable.mem_after_addAll (size_followTable t _),
    mem_followTable h hf', mem_last h hf', PositionSet.mem_singleton (Nat.lt_succ_self _)]
  simp only [codesAfter_iff, atPosition_or, FollowsAt]
  rw [or_comm]
  refine or_congr ⟨?_, ?_⟩ Iff.rfl
  · intro hx
    obtain ⟨⟨l, hp, hl⟩, hq⟩ := hx
    exact ⟨l, hp, hq, hl⟩
  · intro hx
    obtain ⟨l, hp, hq, hl⟩ := hx
    exact ⟨⟨l, hp, hl⟩, hq⟩

end ContentAutomata.Tree
