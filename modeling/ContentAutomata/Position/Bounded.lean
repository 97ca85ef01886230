import ContentAutomata.Position.Set
import ContentAutomata.Position.Words

/-!
# Position sets that carry their capacity

Where the number of positions is known only at run time, a set is kept in words and carries its
capacity with it. Every operation checks what it is given: a position has to be below the capacity,
and two sets that are combined have to have the same one. A refused operation changes nothing.

A `WordSet n` is a set of positions below `n`. It holds the proofs that its words are as many as `n`
positions need and that no bit at or above `n` is set, so that two sets with the same members are
the same words.

Results:
* `WordSet.ext`: a set is determined by its members;
* `WordSet.mem_insert`, `WordSet.mem_union`, `WordSet.mem_inter`, `WordSet.overwrite_eq`: the
  operations, through membership;
* `WordSet.isEmpty_iff`, `WordSet.meets_iff`, `WordSet.contains_eq`: the tests;
* `WordSet.mem_members`, `WordSet.members_pairwise`, `WordSet.count_eq`: the list of members.
-/
namespace ContentAutomata

/-- A set of positions below `n`, kept in words. -/
structure WordSet (n : Nat) where
  words : Words
  /-- There are as many words as the positions need. -/
  hasShape : words.HasShape n
  /-- No position at or above `n` is a member. -/
  lt_of_testBit : ∀ p, words.testBit p = true → p < n
  deriving DecidableEq

namespace WordSet

variable {n : Nat}

instance : Membership Nat (WordSet n) := ⟨fun s p => s.words.testBit p = true⟩

theorem mem_def {s : WordSet n} {p : Nat} : p ∈ s ↔ s.words.testBit p = true := Iff.rfl

instance (p : Nat) (s : WordSet n) : Decidable (p ∈ s) :=
  inferInstanceAs (Decidable (s.words.testBit p = true))

theorem lt_of_mem {s : WordSet n} {p : Nat} (h : p ∈ s) : p < n := s.lt_of_testBit p h

theorem ext {s t : WordSet n} (h : ∀ p, p ∈ s ↔ p ∈ t) : s = t := by
  have hwords : s.words = t.words := by
    refine Words.ext s.hasShape t.hasShape fun k => Word.ext fun j hj => ?_
    have hp := Bool.eq_iff_iff.2 (h (k * 64 + j))
    unfold Words.testBit at hp
    rwa [show (k * 64 + j) / 64 = k by omega, show (k * 64 + j) % 64 = j by omega] at hp
  cases s
  cases t
  cases hwords
  rfl

/-! ## Building sets -/

/-- The set without members. -/
def empty (n : Nat) : WordSet n where
  words := .zero n
  hasShape := Words.hasShape_zero n
  lt_of_testBit p h := by
    rw [Words.testBit, Words.word_zero, UInt64.toNat_zero, Nat.zero_testBit] at h
    cases h

theorem not_mem_empty (p : Nat) : p ∉ empty n := by
  rw [mem_def, Words.testBit, empty, Words.word_zero, UInt64.toNat_zero, Nat.zero_testBit]
  exact Bool.noConfusion

theorem testBit_modify_or {s : WordSet n} {p : Nat} (hp : p < n) (q : Nat) :
    (s.words.modify (p / 64) (· ||| Word.single (p % 64))).testBit q =
      (s.words.testBit q || decide (q = p)) := by
  unfold Words.testBit
  rw [Words.word_modify (s.hasShape.lt_size hp)]
  split
  · rename_i he
    rw [UInt64.toNat_or, Nat.testBit_or, Word.testBit_single (Nat.mod_lt _ (by decide)), he,
      decide_eq_decide.2 (show q % 64 = p % 64 ↔ q = p by omega)]
  · rename_i hne
    rw [decide_eq_false (fun he => hne (congrArg (· / 64) he)), Bool.or_false]

/-- The set with `p` added. -/
def insert (s : WordSet n) (p : Nat) (h : p < n) : WordSet n where
  words := s.words.modify (p / 64) (· ||| Word.single (p % 64))
  hasShape := s.hasShape.modify _ _
  lt_of_testBit q hq := by
    rw [testBit_modify_or h, Bool.or_eq_true, decide_eq_true_eq] at hq
    rcases hq with hq | rfl
    · exact s.lt_of_testBit q hq
    · exact h

theorem mem_insert {s : WordSet n} {p q : Nat} (h : p < n) : q ∈ s.insert p h ↔ q = p ∨ q ∈ s := by
  rw [mem_def, insert, testBit_modify_or h, Bool.or_eq_true, decide_eq_true_eq, or_comm]
  exact Iff.rfl

/-- The set without its members. -/
def clear (s : WordSet n) : WordSet n where
  words := s.words.clear
  hasShape := s.hasShape.clear
  lt_of_testBit p h := by
    rw [Words.testBit, Words.word_clear, UInt64.toNat_zero, Nat.zero_testBit] at h
    cases h

theorem clear_eq (s : WordSet n) : s.clear = empty n := by
  refine ext fun p => iff_of_false ?_ (not_mem_empty p)
  rw [mem_def, Words.testBit, clear, Words.word_clear, UInt64.toNat_zero, Nat.zero_testBit]
  exact Bool.noConfusion

/-- What combines the words of two sets: it sets only bits that are set in one of the two words. -/
structure IsCombiner (f : UInt64 → UInt64 → UInt64) : Prop where
  zero : f 0 0 = 0
  of_testBit : ∀ {w v : UInt64} {j : Nat}, (f w v).toNat.testBit j = true →
    w.toNat.testBit j = true ∨ v.toNat.testBit j = true

/-- Combines the words of two sets one by one. -/
def zipWith {f : UInt64 → UInt64 → UInt64} (hf : IsCombiner f) (s t : WordSet n) : WordSet n where
  words := s.words.zipWith f t.words
  hasShape := s.hasShape.zipWith t.hasShape f
  lt_of_testBit p h := by
    rw [Words.testBit, Words.word_zipWith s.hasShape t.hasShape hf.zero] at h
    exact (hf.of_testBit h).elim (s.lt_of_testBit p) (t.lt_of_testBit p)

theorem mem_zipWith {f : UInt64 → UInt64 → UInt64} (hf : IsCombiner f) {s t : WordSet n} {p : Nat} :
    p ∈ zipWith hf s t ↔
      (f (s.words.word (p / 64)) (t.words.word (p / 64))).toNat.testBit (p % 64) = true := by
  rw [mem_def, Words.testBit, zipWith, Words.word_zipWith s.hasShape t.hasShape hf.zero]

theorem isCombiner_or : IsCombiner (· ||| ·) :=
  ⟨rfl, fun h => by rwa [UInt64.toNat_or, Nat.testBit_or, Bool.or_eq_true] at h⟩

theorem isCombiner_and : IsCombiner (· &&& ·) := by
  refine ⟨rfl, fun h => ?_⟩
  rw [UInt64.toNat_and, Nat.testBit_and, Bool.and_eq_true] at h
  exact .inl h.1

theorem isCombiner_snd : IsCombiner fun _ v => v := ⟨rfl, .inr⟩

/-- The positions in either set. -/
def union (s t : WordSet n) : WordSet n := zipWith isCombiner_or s t

/-- The positions in both sets. -/
def inter (s t : WordSet n) : WordSet n := zipWith isCombiner_and s t

/-- The members of the second set, written over those of the first. -/
def overwrite (s t : WordSet n) : WordSet n := zipWith isCombiner_snd s t

theorem mem_union {s t : WordSet n} {p : Nat} : p ∈ s.union t ↔ p ∈ s ∨ p ∈ t := by
  rw [union, mem_zipWith, UInt64.toNat_or, Nat.testBit_or, Bool.or_eq_true]
  exact Iff.rfl

theorem mem_inter {s t : WordSet n} {p : Nat} : p ∈ s.inter t ↔ p ∈ s ∧ p ∈ t := by
  rw [inter, mem_zipWith, UInt64.toNat_and, Nat.testBit_and, Bool.and_eq_true]
  exact Iff.rfl

theorem overwrite_eq (s t : WordSet n) : s.overwrite t = t := by
  refine ext fun p => ?_
  rw [overwrite, mem_zipWith]
  exact Iff.rfl

/-! ## Tests -/

/-- Whether a position is a member. -/
def contains (s : WordSet n) (p : Nat) : Bool :=
  s.words.word (p / 64) &&& Word.single (p % 64) != 0

/-- Whether the set has no members. -/
def isEmpty (s : WordSet n) : Bool := s.words.slice.all (· == 0)

/-- Whether two sets have a member in common. -/
def meets (s t : WordSet n) : Bool :=
  (s.words.slice.zip t.words.slice).any fun (w, v) => w &&& v != 0

theorem contains_eq (s : WordSet n) (p : Nat) : s.contains p = decide (p ∈ s) := by
  rw [contains, Word.and_single_ne_zero (Nat.mod_lt _ (by decide))]
  simp [mem_def, Words.testBit]

theorem mem_word_iff {s : WordSet n} {k j : Nat} (hj : j < 64) :
    k * 64 + j ∈ s ↔ (s.words.word k).toNat.testBit j = true := by
  rw [mem_def, Words.testBit, show (k * 64 + j) / 64 = k by omega,
    show (k * 64 + j) % 64 = j by omega]

theorem isEmpty_iff {s : WordSet n} : s.isEmpty = true ↔ ∀ p, p ∉ s := by
  have hwords : s.isEmpty = true ↔ ∀ k, s.words.word k = 0 := by
    rw [isEmpty, Array.all_eq_true]
    constructor
    · intro h k
      by_cases hk : k < s.words.slice.size
      · rw [Words.word_of_lt hk]
        exact eq_of_beq (h k hk)
      · exact Words.word_of_size_le (Nat.not_lt.1 hk)
    · intro h k hk
      rw [← Words.word_of_lt hk, h k]
      rfl
  rw [hwords]
  constructor
  · intro h p
    rw [mem_def, Words.testBit, h, UInt64.toNat_zero, Nat.zero_testBit]
    exact Bool.noConfusion
  · intro h k
    refine Word.eq_zero_iff.2 fun j => Bool.eq_false_iff.2 fun hb => ?_
    exact h _ ((mem_word_iff (Word.lt_of_testBit hb)).2 hb)

theorem meets_iff {s t : WordSet n} : s.meets t = true ↔ ∃ p, p ∈ s ∧ p ∈ t := by
  have hwords : s.meets t = true ↔ ∃ k, s.words.word k &&& t.words.word k ≠ 0 := by
    rw [meets, Array.any_eq_true]
    simp only [Array.size_zip, Array.getElem_zip, bne_iff_ne]
    constructor
    · rintro ⟨k, hk, hne⟩
      refine ⟨k, ?_⟩
      rwa [Words.word_of_lt (by omega), Words.word_of_lt (by omega)]
    · rintro ⟨k, hne⟩
      have hk : k < s.words.slice.size := by
        apply Nat.not_le.1
        intro hle
        simp [Words.word_of_size_le hle] at hne
      have hk' : k < t.words.slice.size := by
        apply Nat.not_le.1
        intro hle
        simp [Words.word_of_size_le hle] at hne
      refine ⟨k, by omega, ?_⟩
      rwa [Words.word_of_lt hk, Words.word_of_lt hk'] at hne
  rw [hwords]
  constructor
  · rintro ⟨k, hne⟩
    rw [Ne, Word.eq_zero_iff, Classical.not_forall] at hne
    obtain ⟨j, hj⟩ := hne
    rw [UInt64.toNat_and, Nat.testBit_and, Bool.not_eq_false, Bool.and_eq_true] at hj
    have hlt := Word.lt_of_testBit hj.1
    exact ⟨k * 64 + j, (mem_word_iff hlt).2 hj.1, (mem_word_iff hlt).2 hj.2⟩
  · rintro ⟨p, hs, ht⟩
    refine ⟨p / 64, fun h0 => ?_⟩
    have hbit := Word.eq_zero_iff.1 h0 (p % 64)
    rw [UInt64.toNat_and, Nat.testBit_and] at hbit
    rw [mem_def, Words.testBit] at hs ht
    rw [hs, ht] at hbit
    cases hbit

/-! ## Members -/

/-- The members in ascending order. -/
def members (s : WordSet n) : List Nat := (Cursor.start s.words.slice).toList

/-- The number of members. -/
def count (s : WordSet n) : Nat := s.words.slice.foldl (fun sum word => sum + Word.ones word) 0

/-- How a set is written. -/
def text (s : WordSet n) : String := writePositions s.members

@[simp] theorem mem_members {s : WordSet n} {p : Nat} : p ∈ s.members ↔ p ∈ s := by
  rw [members, Cursor.mem_toList, Cursor.has_start]
  exact Iff.rfl

theorem members_pairwise (s : WordSet n) : s.members.Pairwise (· < ·) :=
  Cursor.toList_pairwise _

/-- Adding up the set bits of the words counts the positions of all words. -/
theorem foldl_ones_eq (s : WordSet n) (k : Nat) :
    (List.range k).foldl (fun sum i => sum + Word.ones (s.words.word i)) 0 =
      (List.range (k * 64)).countP fun p => decide (p ∈ s) := by
  induction k with
  | zero => rfl
  | succ k ih =>
    have hlast : (List.range 64).countP (fun j => (s.words.word k).toNat.testBit j) =
        (List.range 64).countP fun j => decide (k * 64 + j ∈ s) := by
      refine List.countP_congr fun j hj => ?_
      rw [decide_eq_true_eq, mem_word_iff (List.mem_range.1 hj)]
    rw [List.range_succ, List.foldl_append, ih, List.foldl_cons, List.foldl_nil, Word.ones_eq,
      hlast, Nat.add_mul, Nat.one_mul, List.range_add, List.countP_append, List.countP_map]
    rfl

theorem members_nodup (s : WordSet n) : s.members.Nodup :=
  s.members_pairwise.imp Nat.ne_of_lt

theorem count_eq (s : WordSet n) : s.count = s.members.length := by
  have hslice : s.words.slice.toList = (List.range s.words.slice.size).map s.words.word := by
    refine List.ext_getElem (by simp) fun i hi _ => ?_
    simp [Words.word_of_lt hi]
  have hlt : ∀ p, p ∈ s → p < s.words.slice.size * 64 := by
    intro p hp
    have := s.hasShape.lt_size (lt_of_mem hp)
    omega
  have hperm : s.members.Perm
      ((List.range (s.words.slice.size * 64)).filter fun p => decide (p ∈ s)) := by
    refine (List.perm_ext_iff_of_nodup s.members_nodup (List.nodup_range.filter _)).2 fun p => ?_
    rw [mem_members, List.mem_filter, List.mem_range, decide_eq_true_eq]
    exact ⟨fun hp => ⟨hlt p hp, hp⟩, And.right⟩
  rw [count, ← Array.foldl_toList, hslice, List.foldl_map, foldl_ones_eq,
    List.countP_eq_length_filter, hperm.length_eq]

end WordSet

/-! ## Sets with a capacity -/

/-- A reason to refuse an operation on position sets. -/
inductive SetFault where
  | outOfRange (position capacity : Nat)
  | capacityMismatch
  deriving DecidableEq, Repr

/-- The wording of a refusal. -/
def SetFault.message : SetFault → String
  | outOfRange position capacity =>
    "bit index " ++ toString position ++ " out of range for capacity " ++ toString capacity
  | capacityMismatch => "bit set capacity mismatch"

/-- A position set together with its capacity. Mirrors `BitSet`. -/
structure BoundedSet where
  capacity : Nat
  set : WordSet capacity
  deriving DecidableEq

namespace BoundedSet

/-- The set without members of the given capacity. -/
def empty (capacity : Nat) : BoundedSet := ⟨capacity, .empty capacity⟩

/-- The set with a position added. Mirrors `BitSet.set`. -/
def insert (s : BoundedSet) (p : Nat) : Except SetFault BoundedSet :=
  if h : p < s.capacity then .ok ⟨s.capacity, s.set.insert p h⟩
  else .error (.outOfRange p s.capacity)

/-- Whether a position is a member. Mirrors `BitSet.get`. -/
def contains (s : BoundedSet) (p : Nat) : Except SetFault Bool :=
  if p < s.capacity then .ok (s.set.contains p) else .error (.outOfRange p s.capacity)

/-- The set without its members. Mirrors `clear_all`. -/
def clear (s : BoundedSet) : BoundedSet := ⟨s.capacity, s.set.clear⟩

/-- Replaces the members by those that `f` computes from the members of both sets. -/
def combine (f : {n : Nat} → WordSet n → WordSet n → WordSet n) (s t : BoundedSet) :
    Except SetFault BoundedSet :=
  if h : t.capacity = s.capacity then .ok ⟨s.capacity, f s.set (h ▸ t.set)⟩
  else .error .capacityMismatch

/-- The positions in either set. Mirrors `union_with`. -/
def union (s t : BoundedSet) : Except SetFault BoundedSet := combine WordSet.union s t

/-- The positions in both sets. Mirrors `intersect_with`. -/
def inter (s t : BoundedSet) : Except SetFault BoundedSet := combine WordSet.inter s t

/-- The members of the second set, in place of those of the first. Mirrors `set_to`. -/
def assign (s t : BoundedSet) : Except SetFault BoundedSet := combine WordSet.overwrite s t

/-- Whether two sets have a member in common; sets of different capacities never do. Mirrors
`intersects`. -/
def meets (s t : BoundedSet) : Bool :=
  if h : t.capacity = s.capacity then s.set.meets (h ▸ t.set) else false

/-- How a set is written. -/
def text (s : BoundedSet) : String := s.set.text

/-- How a set is written together with its capacity. -/
def describe (s : BoundedSet) : String := "BitSet(" ++ toString s.capacity ++ ")" ++ s.text

/-! ## Operations that may fail -/

/-- The set with a position added, if there is room for it. -/
def insert? (s : BoundedSet) (p : Nat) : Option BoundedSet := (s.insert p).toOption

/-- Whether a position is a member, if there is room for it. -/
def contains? (s : BoundedSet) (p : Nat) : Option Bool := (s.contains p).toOption

/-- The positions in either set, if their capacities agree. -/
def union? (s t : BoundedSet) : Option BoundedSet := (s.union t).toOption

/-- The members of the second set in place of those of the first, if their capacities agree. -/
def assign? (s t : BoundedSet) : Option BoundedSet := (s.assign t).toOption

end BoundedSet

end ContentAutomata
