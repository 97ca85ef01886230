/-!
# Sets of positions

A set of positions below `n` is kept as a number whose bit `p` says whether `p` is a member, so that
union and intersection work on whole words and two sets with the same members are the same value.

Membership is the view: every operation below is described by what it does to `∈`.

Results:
* `ext`, `lt_of_mem`: a set is determined by its members, all of them below `n`;
* `mem_insert`, `mem_union`, `mem_inter`: the operations, through membership;
* `mem_members`, `members_pairwise`: the list of members, in ascending order;
* `isEmpty_iff`: the test for members.
-/
namespace ContentAutomata

/-- How the positions of a set are written: each after a blank, all of them between braces. -/
def writePositions (positions : List Nat) : String :=
  "\x7b" ++ String.join (positions.map fun p => " " ++ toString p) ++ " \x7d"

/-- A set of positions below `n`. -/
structure PositionSet (n : Nat) where
  /-- Bit `p` is set when `p` is a member. -/
  bits : Nat
  /-- No position at or above `n` is a member. -/
  lt_of_testBit : ∀ p, bits.testBit p = true → p < n
  deriving DecidableEq, Repr

namespace PositionSet

variable {n : Nat}

instance : Membership Nat (PositionSet n) := ⟨fun s p => s.bits.testBit p = true⟩

theorem mem_def {s : PositionSet n} {p : Nat} : p ∈ s ↔ s.bits.testBit p = true := Iff.rfl

instance (p : Nat) (s : PositionSet n) : Decidable (p ∈ s) :=
  inferInstanceAs (Decidable (s.bits.testBit p = true))

theorem ext {s t : PositionSet n} (h : ∀ p, p ∈ s ↔ p ∈ t) : s = t := by
  cases s with
  | mk a ha =>
    cases t with
    | mk b hb =>
      have e : a = b := Nat.eq_of_testBit_eq fun p => Bool.eq_iff_iff.2 (h p)
      subst e
      rfl

theorem lt_of_mem {s : PositionSet n} {p : Nat} (h : p ∈ s) : p < n := s.lt_of_testBit p h

/-! ## Building sets -/

/-- The set without members. -/
def empty : PositionSet n := ⟨0, fun p h => by simp at h⟩

instance : EmptyCollection (PositionSet n) := ⟨empty⟩

instance : Inhabited (PositionSet n) := ⟨empty⟩

@[simp] theorem not_mem_empty (p : Nat) : p ∉ (∅ : PositionSet n) := by
  intro h
  have h' : (0 : Nat).testBit p = true := h
  simp at h'

theorem testBit_one_shiftLeft (p q : Nat) : (1 <<< q).testBit p = decide (p = q) := by
  rw [Nat.one_shiftLeft, Nat.testBit_two_pow]
  exact decide_eq_decide.2 eq_comm

/-- The set with `p` added; positions at or above `n` are left out. -/
def insert (s : PositionSet n) (p : Nat) : PositionSet n :=
  if h : p < n then
    { bits := s.bits ||| (1 <<< p)
      lt_of_testBit := fun q hq => by
        rw [Nat.testBit_or, testBit_one_shiftLeft, Bool.or_eq_true, decide_eq_true_eq] at hq
        rcases hq with hq | rfl
        · exact s.lt_of_testBit q hq
        · exact h }
  else s

theorem mem_insert {s : PositionSet n} {p q : Nat} (hq : q < n) :
    p ∈ s.insert q ↔ p = q ∨ p ∈ s := by
  simp only [insert, hq, dif_pos, mem_def, Nat.testBit_or, testBit_one_shiftLeft, Bool.or_eq_true,
    decide_eq_true_eq]
  exact or_comm

/-- The set with one member, if it is below `n`. -/
def singleton (p : Nat) : PositionSet n := (∅ : PositionSet n).insert p

theorem mem_singleton {p q : Nat} (hq : q < n) : p ∈ (singleton q : PositionSet n) ↔ p = q := by
  simp [singleton, mem_insert hq]

/-- The positions in either set. -/
def union (s t : PositionSet n) : PositionSet n :=
  { bits := s.bits ||| t.bits
    lt_of_testBit := fun p h => by
      rw [Nat.testBit_or, Bool.or_eq_true] at h
      exact h.elim (s.lt_of_testBit p) (t.lt_of_testBit p) }

instance : Union (PositionSet n) := ⟨union⟩

@[simp] theorem mem_union {s t : PositionSet n} {p : Nat} : p ∈ s ∪ t ↔ p ∈ s ∨ p ∈ t := by
  have e : (s ∪ t).bits = s.bits ||| t.bits := rfl
  rw [mem_def, e, Nat.testBit_or, Bool.or_eq_true]
  exact Iff.rfl

/-- The positions in both sets. -/
def inter (s t : PositionSet n) : PositionSet n :=
  { bits := s.bits &&& t.bits
    lt_of_testBit := fun p h => by
      rw [Nat.testBit_and, Bool.and_eq_true] at h
      exact s.lt_of_testBit p h.1 }

instance : Inter (PositionSet n) := ⟨inter⟩

@[simp] theorem mem_inter {s t : PositionSet n} {p : Nat} : p ∈ s ∩ t ↔ p ∈ s ∧ p ∈ t := by
  have e : (s ∩ t).bits = s.bits &&& t.bits := rfl
  rw [mem_def, e, Nat.testBit_and, Bool.and_eq_true]
  exact Iff.rfl

/-! ## Tests -/

/-- Whether the set has no members. -/
def isEmpty (s : PositionSet n) : Bool := s.bits == 0

theorem isEmpty_iff {s : PositionSet n} : s.isEmpty = true ↔ ∀ p, p ∉ s := by
  simp only [isEmpty, beq_iff_eq]
  constructor
  · intro h p hp
    rw [mem_def, h] at hp
    simp at hp
  · intro h
    refine Nat.eq_of_testBit_eq fun p => ?_
    simpa [mem_def] using h p

/-! ## Members -/

/-- The set bits among the lowest `1 <<< level` ones of a number, in ascending order and moved up by
`base`, in front of `rest`. A half without set bits is passed over at once. -/
def collect : (level : Nat) → (bits base : Nat) → (rest : List Nat) → List Nat
  | 0, bits, base, rest => if bits = 0 then rest else base :: rest
  | level + 1, bits, base, rest =>
    if bits = 0 then rest
    else
      let half := 1 <<< level
      collect level (bits % (1 <<< half)) base (collect level (bits >>> half) (base + half) rest)

theorem one_shiftLeft_pos (level : Nat) : 0 < 1 <<< level := by
  rw [Nat.one_shiftLeft]
  exact Nat.two_pow_pos level

theorem one_shiftLeft_succ (level : Nat) : 1 <<< (level + 1) = 1 <<< level + 1 <<< level := by
  rw [Nat.one_shiftLeft, Nat.one_shiftLeft, Nat.pow_succ]
  omega

/-- Only bits below `width` are set. -/
def FitsIn (bits width : Nat) : Prop := ∀ p, bits.testBit p = true → p < width

theorem testBit_mod_shiftLeft (bits width p : Nat) :
    (bits % (1 <<< width)).testBit p = (decide (p < width) && bits.testBit p) := by
  rw [Nat.one_shiftLeft, Nat.testBit_mod_two_pow]

theorem fitsIn_mod (bits width : Nat) : FitsIn (bits % (1 <<< width)) width := by
  intro p h
  rw [testBit_mod_shiftLeft, Bool.and_eq_true, decide_eq_true_eq] at h
  exact h.1

theorem fitsIn_shiftRight {bits level : Nat} (h : FitsIn bits (1 <<< (level + 1))) :
    FitsIn (bits >>> (1 <<< level)) (1 <<< level) := by
  intro p hp
  rw [Nat.testBit_shiftRight] at hp
  have hlt := h _ hp
  have hsucc := one_shiftLeft_succ level
  omega

theorem eq_zero_or_one_of_fitsIn {bits : Nat} (h : FitsIn bits 1) : bits = 0 ∨ bits = 1 := by
  have e : bits = bits % 2 := by
    refine Nat.eq_of_testBit_eq fun p => ?_
    rw [← Nat.pow_one 2, Nat.testBit_mod_two_pow]
    cases hp : bits.testBit p with
    | false => simp
    | true => simp [h p hp]
  omega

theorem mem_collect {level bits base : Nat} {rest : List Nat} (h : FitsIn bits (1 <<< level))
    (p : Nat) :
    p ∈ collect level bits base rest ↔
      (base ≤ p ∧ bits.testBit (p - base) = true) ∨ p ∈ rest := by
  induction level generalizing bits base rest with
  | zero =>
    rcases eq_zero_or_one_of_fitsIn h with rfl | rfl
    · simp [collect]
    · have e : (1 : Nat).testBit (p - base) = decide (p - base = 0) :=
        testBit_one_shiftLeft (p - base) 0
      simp only [collect, Nat.one_ne_zero, if_false, List.mem_cons, e, decide_eq_true_eq]
      refine or_congr ⟨?_, ?_⟩ Iff.rfl
      · rintro rfl; omega
      · rintro ⟨h1, h2⟩; omega
  | succ level ih =>
    rw [collect]
    split
    · rename_i h0; simp [h0]
    · have hpos := one_shiftLeft_pos level
      rw [ih (fitsIn_mod _ _), ih (fitsIn_shiftRight h), ← or_assoc]
      refine or_congr ?_ Iff.rfl
      rw [testBit_mod_shiftLeft, Nat.testBit_shiftRight, Bool.and_eq_true, decide_eq_true_eq]
      constructor
      · rintro (⟨h1, -, h2⟩ | ⟨h1, h2⟩)
        · exact ⟨h1, h2⟩
        · have e : 1 <<< level + (p - (base + 1 <<< level)) = p - base := by omega
          rw [e] at h2
          exact ⟨by omega, h2⟩
      · rintro ⟨h1, h2⟩
        rcases Nat.lt_or_ge (p - base) (1 <<< level) with hlt | hge
        · exact .inl ⟨h1, hlt, h2⟩
        · have e : 1 <<< level + (p - (base + 1 <<< level)) = p - base := by omega
          exact .inr ⟨by omega, by rw [e]; exact h2⟩

theorem pairwise_collect {level bits base : Nat} {rest : List Nat}
    (h : FitsIn bits (1 <<< level)) (hr : rest.Pairwise (· < ·))
    (hb : ∀ q ∈ rest, base + 1 <<< level ≤ q) :
    (collect level bits base rest).Pairwise (· < ·) := by
  induction level generalizing bits base rest with
  | zero =>
    rw [collect]
    split
    · exact hr
    · refine List.pairwise_cons.2 ⟨fun q hq => ?_, hr⟩
      have hle := hb q hq
      have hpos := one_shiftLeft_pos 0
      omega
  | succ level ih =>
    rw [collect]
    split
    · exact hr
    · have hsucc := one_shiftLeft_succ level
      have hhi : (collect level (bits >>> (1 <<< level)) (base + 1 <<< level) rest).Pairwise
          (· < ·) := by
        refine ih (fitsIn_shiftRight h) hr fun q hq => ?_
        have hle := hb q hq
        omega
      refine ih (fitsIn_mod _ _) hhi fun q hq => ?_
      rcases (mem_collect (fitsIn_shiftRight h) q).1 hq with ⟨h1, -⟩ | h1
      · exact h1
      · have hle := hb q h1
        have hpos := one_shiftLeft_pos level
        omega

/-- A number of halvings after which a range of `n` positions is split into single ones. -/
def levels (n : Nat) : Nat := n.log2 + 1

theorem lt_one_shiftLeft_levels (n : Nat) : n < 1 <<< levels n := by
  rw [Nat.one_shiftLeft]
  exact Nat.lt_log2_self

/-- The members of the set, in ascending order. -/
def members (s : PositionSet n) : List Nat := collect (levels n) s.bits 0 []

theorem fitsIn_levels (s : PositionSet n) : FitsIn s.bits (1 <<< levels n) := fun p h =>
  Nat.lt_trans (s.lt_of_testBit p h) (lt_one_shiftLeft_levels n)

@[simp] theorem mem_members {s : PositionSet n} {p : Nat} : p ∈ s.members ↔ p ∈ s := by
  rw [members, mem_collect s.fitsIn_levels]
  simp [mem_def]

theorem members_pairwise (s : PositionSet n) : s.members.Pairwise (· < ·) :=
  pairwise_collect s.fitsIn_levels .nil (by simp)

/-- How a set is written. -/
def text (s : PositionSet n) : String := writePositions s.members

end PositionSet

end ContentAutomata
