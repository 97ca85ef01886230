import ContentAutomata.Tree.Basic

/-!
# Repeating a subtree

A multiplicity is spelled out by copies: `t{2,3}` is `t , t , t?` and `t{2,}` is `t , t+`. The
copies are joined by halves, so the height of the result grows with the logarithm of their number.

`Multiplicity.squeezed` and `repeatedOnce` are the approximations made when only ambiguity is asked
for: a bound above two is as good as two there, and a single leaf may be repeated freely.

Results:
* `size_copies`, `size_repeated`: how many nodes a repetition has;
* `copies_of_le`: a single copy is the subtree itself;
* `size_repeatedFreely_le`: repeating a leaf freely costs one node at most.
-/
namespace ContentAutomata

/-- The multiplicity that stands in for `m` when only ambiguity is asked for: exact repetition
becomes two copies, any other becomes at least once and at most twice. Mirrors how
`build_syntax_tree` changes a range. -/
def Multiplicity.squeezed (m : Multiplicity) : Multiplicity :=
  let m := if 1 < m.min then
      if m.max = some m.min then ⟨2, some 2⟩ else ⟨1, m.max⟩
    else m
  if m.max.any (1 < ·) then ⟨m.min, some 2⟩ else m

namespace Tree

/-- `count` copies of a tree in sequence, joined by halves; at least one. Mirrors `multi_nodes`. -/
def copies (t : Tree) (count : Nat) : Tree :=
  if count ≤ 1 then t
  else joined .sequence (copies t (count / 2)) (copies t (count - count / 2))
termination_by count

/-- The tree repeated as often as the multiplicity says. Mirrors `expand_content_model`. -/
def repeated (t : Tree) (m : Multiplicity) : Tree :=
  if m = .once then t
  else if m = .optional then closure .optional t
  else match m.max with
    | none =>
      if m.min = 0 then closure .star t
      else if m.min = 1 then closure .plus t
      else joined .sequence (copies t (m.min.toNat - 1)) (closure .plus t)
    | some max =>
      if m.min = 0 then copies (closure .optional t) max.toNat
      else if m.min = max then copies t max.toNat
      else joined .sequence (copies t m.min.toNat)
        (copies (closure .optional t) (max.toNat - m.min.toNat))

/-- The tree of a single term repeated as often as the multiplicity says, where every repetition
beyond "at most once" may go on for ever. Mirrors `expand_content_model` where a leaf is
approximated. -/
def repeatedFreely (t : Tree) (m : Multiplicity) : Tree :=
  if m = .once then t
  else if m = .optional then closure .optional t
  else if m.min = 0 then closure .star t
  else closure .plus t

/-! ## The nodes of a repetition -/

/-- The number of nodes of `count` copies of a tree of `size` nodes. -/
def copiesSize (size count : Nat) : Nat := if count ≤ 1 then size else count * (size + 1) - 1

/-- The number of nodes of a repeated tree of `size` nodes. -/
def repeatedSize (size : Nat) (m : Multiplicity) : Nat :=
  if m = .once then size
  else if m = .optional then size + 1
  else match m.max with
    | none =>
      if m.min = 0 then size + 1
      else if m.min = 1 then size + 1
      else copiesSize size (m.min.toNat - 1) + (size + 1) + 1
    | some max =>
      if m.min = 0 then copiesSize (size + 1) max.toNat
      else if m.min = max then copiesSize size max.toNat
      else copiesSize size m.min.toNat + copiesSize (size + 1) (max.toNat - m.min.toNat) + 1

theorem copies_of_le {t : Tree} {count : Nat} (h : count ≤ 1) : copies t count = t := by
  rw [copies, if_pos h]

theorem copiesSize_add (size : Nat) {a b : Nat} (ha : 0 < a) (hb : 0 < b) :
    copiesSize size (a + b) = copiesSize size a + copiesSize size b + 1 := by
  have key : ∀ c, 0 < c → copiesSize size c + 1 = c * (size + 1) := by
    intro c hc
    rw [copiesSize]
    split
    · have : c = 1 := by omega
      subst this
      simp
    · have : 0 < c * (size + 1) := Nat.mul_pos hc (by omega)
      omega
  have h1 := key a ha
  have h2 := key b hb
  have h3 := key (a + b) (by omega)
  rw [Nat.add_mul] at h3
  omega

theorem size_copies (t : Tree) (count : Nat) : (copies t count).size = copiesSize t.size count := by
  induction count using Nat.strongRecOn with
  | ind count ih =>
    rw [copies]
    split
    · rename_i h; simp [copiesSize, h]
    · have e : count = count / 2 + (count - count / 2) := by omega
      rw [size, ih (count / 2) (by omega), ih (count - count / 2) (by omega),
        ← copiesSize_add t.size (by omega) (by omega), ← e]

theorem size_repeated (t : Tree) (m : Multiplicity) :
    (t.repeated m).size = repeatedSize t.size m := by
  simp only [repeated, repeatedSize]
  split
  · rfl
  split
  · rfl
  split
  · split
    · rfl
    split
    · rfl
    · simp [size, size_copies]
  · split
    · simp [size, size_copies]
    split
    · simp [size_copies]
    · simp [size, size_copies]

theorem size_repeatedFreely_le (t : Tree) (m : Multiplicity) :
    (t.repeatedFreely m).size ≤ t.size + 1 := by
  unfold repeatedFreely
  split
  · omega
  split
  · exact Nat.le_refl _
  split <;> exact Nat.le_refl _

end Tree

end ContentAutomata
