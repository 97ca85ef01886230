/-!
# Position sets in machine words

Where the number of positions is known only at run time, a set of them is kept in 64-bit words:
position `p` is a member if bit `p % 64` of word `p / 64` is set. Up to 64 positions fit into one
word, which is kept in place; more of them need an array of words.

Members are listed by a cursor that takes the lowest set bit of a word, clears it, and goes on to
the next word when none is left.

Results:
* `Word.ext`, `Word.testBit_single`, `Word.testBit_dropLowest`, `Word.ones_eq`: one word, through
  its bits;
* `Words.ext`: words of the same shape are the same if each of them is;
* `Words.word_modify`, `Words.word_clear`, `Words.word_zipWith`: the operations, word by word;
* `Cursor.yields_next`: a step takes the least position that is left;
* `Cursor.mem_toList`, `Cursor.toList_pairwise`: the steps list all positions in ascending order.
-/
namespace ContentAutomata

/-! ## One word -/

namespace Word

/-- The word whose only set bit is bit `i`. -/
def single (i : Nat) : UInt64 := 1 <<< UInt64.ofNat i

/-- The lowest set bit, 64 if no bit is set. -/
def lowest (w : UInt64) : Nat := w.toBitVec.ctz.toNat

/-- The word without its lowest set bit. -/
def dropLowest (w : UInt64) : UInt64 := w &&& (w - 1)

/-- The number of set bits. -/
def ones (w : UInt64) : Nat := w.toBitVec.cpop.toNat

variable {w v : UInt64} {i j : Nat}

theorem lt_of_testBit (h : w.toNat.testBit j = true) : j < 64 := by
  rw [← UInt64.toNat_toBitVec, BitVec.testBit_toNat] at h
  exact BitVec.lt_of_getLsbD h

theorem ext (h : ∀ j, j < 64 → w.toNat.testBit j = v.toNat.testBit j) : w = v := by
  refine UInt64.toNat_inj.1 (Nat.eq_of_testBit_eq fun j => ?_)
  by_cases hj : j < 64
  · exact h j hj
  · rw [Bool.eq_false_iff.2 (mt lt_of_testBit hj), Bool.eq_false_iff.2 (mt lt_of_testBit hj)]

theorem eq_zero_iff : w = 0 ↔ ∀ j, w.toNat.testBit j = false := by
  constructor
  · intro h j
    rw [h, UInt64.toNat_zero, Nat.zero_testBit]
  · intro h
    refine ext fun j _ => ?_
    rw [h j, UInt64.toNat_zero, Nat.zero_testBit]

theorem testBit_single (hi : i < 64) : (single i).toNat.testBit j = decide (j = i) := by
  have hone : (1 : UInt64).toNat = 1 := rfl
  have hshift : (UInt64.ofNat i).toNat % 64 = i := by
    rw [UInt64.toNat_ofNat_of_lt' (Nat.lt_trans hi (by decide)), Nat.mod_eq_of_lt hi]
  rw [single, UInt64.toNat_shiftLeft, hshift, hone, Nat.testBit_mod_two_pow, Nat.one_shiftLeft,
    Nat.testBit_two_pow]
  by_cases hj : j = i
  · simp [hj, hi]
  · simp [hj, Ne.symm hj]

/-- Reading a bit by masking out the others. -/
theorem and_single_ne_zero (hi : i < 64) :
    (w &&& single i != 0) = w.toNat.testBit i := by
  have hbit : ∀ j, (w &&& single i).toNat.testBit j = (w.toNat.testBit j && decide (j = i)) := by
    intro j
    rw [UInt64.toNat_and, Nat.testBit_and, testBit_single hi]
  cases h : w.toNat.testBit i with
  | true =>
    rw [bne_iff_ne]
    intro h0
    simpa [h] using (hbit i).symm.trans (eq_zero_iff.1 h0 i)
  | false =>
    rw [bne_eq_false_iff_eq, eq_zero_iff]
    intro j
    rw [hbit]
    by_cases hj : j = i
    · rw [hj, h, Bool.false_and]
    · simp [hj]

/-! ### The lowest bit -/

theorem testBit_lowest (h : w ≠ 0) : w.toNat.testBit (lowest w) = true := by
  rw [← UInt64.toNat_toBitVec, BitVec.testBit_toNat]
  refine BitVec.getLsbD_true_ctz_of_ne_zero fun h0 => h ?_
  exact UInt64.toBitVec_inj.1 h0

theorem testBit_of_lt_lowest (h : j < lowest w) : w.toNat.testBit j = false := by
  rw [← UInt64.toNat_toBitVec, BitVec.testBit_toNat]
  exact BitVec.getLsbD_false_of_lt_ctz h

/-- Subtracting one from a number changes its lowest set bit and the bits below it. -/
theorem testBit_and_sub_one {x k : Nat} (hk : x.testBit k = true)
    (hlow : ∀ j, j < k → x.testBit j = false) (j : Nat) :
    (x &&& (x - 1)).testBit j = (x.testBit j && decide (j ≠ k)) := by
  induction k generalizing x j with
  | zero =>
    rw [Nat.testBit_zero, decide_eq_true_eq] at hk
    cases j with
    | zero =>
      have hlast : (x - 1) % 2 ≠ 1 := by omega
      rw [Nat.testBit_and, Nat.testBit_zero, Nat.testBit_zero, decide_eq_false hlast]
      simp
    | succ j =>
      have hhalf : (x - 1) / 2 = x / 2 := by omega
      rw [Nat.testBit_and, Nat.testBit_succ, Nat.testBit_succ, hhalf]
      simp
  | succ k ih =>
    have heven := hlow 0 (Nat.succ_pos k)
    rw [Nat.testBit_succ] at hk
    cases j with
    | zero => rw [Nat.testBit_and, heven, Bool.false_and, Bool.false_and]
    | succ j =>
      have hpos : x / 2 ≠ 0 := by
        intro h0
        rw [h0, Nat.zero_testBit] at hk
        cases hk
      rw [Nat.testBit_zero, decide_eq_false_iff_not] at heven
      have hhalf : (x - 1) / 2 = x / 2 - 1 := by omega
      have hrest := ih hk (fun j hj => by
        rw [← Nat.testBit_succ]
        exact hlow (j + 1) (Nat.succ_lt_succ hj)) j
      rw [Nat.testBit_and] at hrest
      rw [Nat.testBit_and, Nat.testBit_succ, Nat.testBit_succ, hhalf, hrest]
      simp

theorem testBit_dropLowest (h : w ≠ 0) :
    (dropLowest w).toNat.testBit j = (w.toNat.testBit j && decide (j ≠ lowest w)) := by
  have hpos : 1 ≤ w.toNat := by
    apply Nat.one_le_iff_ne_zero.2
    exact fun h0 => h (UInt64.toNat_inj.1 h0)
  have hle : (1 : UInt64) ≤ w := UInt64.le_iff_toNat_le.2 hpos
  rw [dropLowest, UInt64.toNat_and, UInt64.toNat_sub_of_le _ _ hle]
  exact testBit_and_sub_one (testBit_lowest h) (fun _ => testBit_of_lt_lowest) j

theorem dropLowest_lt (h : w ≠ 0) : (dropLowest w).toNat < w.toNat := by
  have hpos : w.toNat ≠ 0 := fun h0 => h (UInt64.toNat_inj.1 h0)
  have hle : (1 : UInt64) ≤ w := UInt64.le_iff_toNat_le.2 (Nat.one_le_iff_ne_zero.2 hpos)
  rw [dropLowest, UInt64.toNat_and, UInt64.toNat_sub_of_le _ _ hle, UInt64.toNat_one]
  exact Nat.lt_of_le_of_lt Nat.and_le_right (Nat.sub_one_lt hpos)

theorem ones_eq (w : UInt64) : ones w = (List.range 64).countP fun j => w.toNat.testBit j := by
  have hrec : ∀ n, w.toBitVec.cpopNatRec n 0 =
      (List.range n).countP fun j => w.toNat.testBit j := by
    intro n
    induction n with
    | zero => rfl
    | succ n ih =>
      rw [BitVec.cpopNatRec_succ, Nat.zero_add, BitVec.cpopNatRec_eq, ih, List.range_succ,
        List.countP_append, List.countP_singleton, ← BitVec.testBit_toNat, UInt64.toNat_toBitVec]
      cases w.toNat.testBit n <;> rfl
  have hle : w.toBitVec.cpopNatRec 64 0 ≤ 0 + 64 := BitVec.cpopNatRec_le 64
  rw [ones, BitVec.cpop, BitVec.toNat_ofNat, Nat.mod_eq_of_lt (by omega), hrec]

end Word

/-! ## Several words -/

/-- The words that a set is kept in. -/
inductive Words where
  /-- One word, kept in place. -/
  | inline (word : UInt64)
  | heap (words : Array UInt64)
  deriving DecidableEq, Repr

namespace Words

/-- The words of a set of positions below `n` without members. -/
def zero (n : Nat) : Words :=
  if n ≤ 64 then inline 0 else heap (Array.replicate ((n + 63) / 64) 0)

/-- All words in order. -/
def slice : Words → Array UInt64
  | inline w => #[w]
  | heap ws => ws

/-- Changes word `i`. -/
def modify (ws : Words) (i : Nat) (f : UInt64 → UInt64) : Words :=
  match ws with
  | inline w => if i = 0 then inline (f w) else inline w
  | heap ws => heap (ws.modify i f)

/-- Sets all words to zero. -/
def clear : Words → Words
  | inline _ => inline 0
  | heap ws => heap (ws.map fun _ => 0)

/-- Combines each word with the word in the same place. -/
def zipWith (f : UInt64 → UInt64 → UInt64) : Words → Words → Words
  | inline w, inline v => inline (f w v)
  | heap ws, heap vs => heap (ws.zipWith f vs)
  | ws, _ => ws

/-- Word `i`. -/
def word (ws : Words) (i : Nat) : UInt64 := ws.slice[i]?.getD 0

/-- Whether position `p` is a member. -/
def testBit (ws : Words) (p : Nat) : Bool := (ws.word (p / 64)).toNat.testBit (p % 64)

/-- The words are as many as `n` positions need. -/
def HasShape (n : Nat) : Words → Prop
  | inline _ => n ≤ 64
  | heap ws => 64 < n ∧ ws.size = (n + 63) / 64

variable {n i k : Nat} {ws vs : Words} {f : UInt64 → UInt64 → UInt64}

theorem word_of_lt (h : k < ws.slice.size) : ws.word k = ws.slice[k] := by
  rw [word, Array.getElem?_eq_getElem h, Option.getD_some]

theorem word_of_size_le (h : ws.slice.size ≤ k) : ws.word k = 0 := by
  rw [word, Array.getElem?_eq_none h, Option.getD_none]

theorem HasShape.lt_size (h : ws.HasShape n) {p : Nat} (hp : p < n) : p / 64 < ws.slice.size := by
  cases ws with
  | inline w =>
    have hn : n ≤ 64 := h
    simp only [slice, List.size_toArray, List.length_singleton]
    omega
  | heap ws =>
    have hsize := h.2
    simp only [slice]
    omega

theorem hasShape_zero (n : Nat) : (zero n).HasShape n := by
  unfold zero
  split
  · rename_i h
    exact h
  · rename_i h
    exact ⟨Nat.lt_of_not_le h, Array.size_replicate⟩

theorem HasShape.modify (h : ws.HasShape n) (i : Nat) (g : UInt64 → UInt64) :
    (ws.modify i g).HasShape n := by
  cases ws with
  | inline w =>
    change HasShape n (if i = 0 then inline (g w) else inline w)
    split <;> exact h
  | heap ws => exact ⟨h.1, Array.size_modify.trans h.2⟩

theorem HasShape.clear (h : ws.HasShape n) : ws.clear.HasShape n := by
  cases ws with
  | inline w => exact h
  | heap ws => exact ⟨h.1, Array.size_map.trans h.2⟩

theorem HasShape.zipWith (h : ws.HasShape n) (h' : vs.HasShape n)
    (f : UInt64 → UInt64 → UInt64) : (ws.zipWith f vs).HasShape n := by
  cases ws with
  | inline w =>
    cases vs with
    | inline v => exact h
    | heap vs => exact h
  | heap ws =>
    cases vs with
    | inline v => exact h
    | heap vs => exact ⟨h.1, by rw [Array.size_zipWith, h.2, h'.2, Nat.min_self]⟩

theorem word_modify (hi : i < ws.slice.size) (g : UInt64 → UInt64) :
    (ws.modify i g).word k = if k = i then g (ws.word i) else ws.word k := by
  cases ws with
  | inline w =>
    obtain rfl : i = 0 := by simpa [slice] using hi
    cases k <;> simp [Words.modify, word, slice]
  | heap ws =>
    simp only [Words.modify, word, slice, Array.getElem?_modify]
    split
    · rename_i he
      subst he
      rw [if_pos rfl]
      have hget : ws[i]? = some ws[i] := Array.getElem?_eq_getElem hi
      simp [hget]
    · rename_i hne
      rw [if_neg (Ne.symm hne)]

theorem word_zero : (zero n).word k = 0 := by
  unfold zero word
  split
  · cases k <;> simp [slice]
  · rw [slice, Array.getElem?_replicate]
    split <;> rfl

theorem word_clear : ws.clear.word k = 0 := by
  cases ws with
  | inline w => cases k <;> simp [clear, word, slice]
  | heap ws =>
    rw [clear, word, slice, Array.getElem?_map]
    cases ws[k]? <;> rfl

theorem word_zipWith (h : ws.HasShape n) (h' : vs.HasShape n) (hf : f 0 0 = 0) :
    (ws.zipWith f vs).word k = f (ws.word k) (vs.word k) := by
  cases ws with
  | inline w =>
    cases vs with
    | inline v => cases k <;> simp [Words.zipWith, word, slice, hf]
    | heap vs => exact absurd h (Nat.not_le.2 h'.1)
  | heap ws =>
    cases vs with
    | inline v => exact absurd h' (Nat.not_le.2 h.1)
    | heap vs =>
      have hsize : ws.size = vs.size := h.2.trans h'.2.symm
      simp only [Words.zipWith, word, slice, Array.getElem?_zipWith]
      by_cases hk : k < ws.size
      · rw [Array.getElem?_eq_getElem hk, Array.getElem?_eq_getElem (hsize ▸ hk)]
        rfl
      · rw [Array.getElem?_eq_none (Nat.not_lt.1 hk),
          Array.getElem?_eq_none (hsize ▸ Nat.not_lt.1 hk)]
        exact hf.symm

/-- Words of the same shape are the same if each of them is. -/
theorem ext (h : ws.HasShape n) (h' : vs.HasShape n) (he : ∀ k, ws.word k = vs.word k) :
    ws = vs := by
  cases ws with
  | inline w =>
    cases vs with
    | inline v => exact congrArg inline (he 0)
    | heap vs => exact absurd h (Nat.not_le.2 h'.1)
  | heap ws =>
    cases vs with
    | inline v => exact absurd h' (Nat.not_le.2 h.1)
    | heap vs =>
      refine congrArg heap (Array.ext (h.2.trans h'.2.symm) fun k hk hk' => ?_)
      have hword := he k
      simpa [word, slice, Array.getElem?_eq_getElem hk, Array.getElem?_eq_getElem hk'] using hword

end Words

/-! ## Going through the members -/

/-- A point in going through the set bits of words in ascending order. Mirrors `Iter`. -/
structure Cursor where
  words : Array UInt64
  /-- The number of the current word. -/
  index : Nat
  /-- What is left of the current word. -/
  current : UInt64

namespace Cursor

/-- Before all set bits. -/
def start (words : Array UInt64) : Cursor := ⟨words, 0, words[0]?.getD 0⟩

/-- The next set bit and the point after it: the lowest one that is left of the current word, or of
the next word that has one. Mirrors `Iter.next`. -/
def next (c : Cursor) : Option (Nat × Cursor) :=
  if c.current = 0 then
    if h : c.index + 1 < c.words.size then
      next { c with index := c.index + 1, current := c.words[c.index + 1] }
    else none
  else
    some (c.index * 64 + Word.lowest c.current,
      { c with current := Word.dropLowest c.current })
termination_by c.words.size - c.index

/-- Position `p` is yet to come. -/
def Has (c : Cursor) (p : Nat) : Prop :=
  (p / 64 = c.index ∧ c.current.toNat.testBit (p % 64) = true) ∨
    (c.index < p / 64 ∧ (c.words[p / 64]?.getD 0).toNat.testBit (p % 64) = true)

theorem has_start {words : Array UInt64} {p : Nat} :
    (start words).Has p ↔ (words[p / 64]?.getD 0).toNat.testBit (p % 64) = true := by
  unfold Has start
  rcases Nat.eq_zero_or_pos (p / 64) with h | h
  · simp [h]
  · simp [h, Nat.ne_of_gt h]

/-- What is left when the current word is used up. -/
theorem has_of_current_eq_zero {c : Cursor} (h : c.current = 0) {p : Nat} :
    c.Has p ↔ c.index < p / 64 ∧ (c.words[p / 64]?.getD 0).toNat.testBit (p % 64) = true := by
  unfold Has
  rw [h, UInt64.toNat_zero, Nat.zero_testBit]
  simp

theorem has_advance {c : Cursor} (h : c.current = 0) (hlt : c.index + 1 < c.words.size) {p : Nat} :
    Has { c with index := c.index + 1, current := c.words[c.index + 1] } p ↔ c.Has p := by
  rw [has_of_current_eq_zero h]
  unfold Has
  simp only
  constructor
  · rintro (⟨he, hb⟩ | ⟨hlt', hb⟩)
    · rw [he, Array.getElem?_eq_getElem hlt]
      exact ⟨Nat.lt_succ_self _, hb⟩
    · exact ⟨Nat.lt_of_succ_lt hlt', hb⟩
  · rintro ⟨hlt', hb⟩
    rcases Nat.eq_or_lt_of_le hlt' with he | hlt'
    · rw [← he, Nat.succ_eq_add_one, Array.getElem?_eq_getElem hlt] at hb
      exact .inl ⟨he.symm, hb⟩
    · exact .inr ⟨hlt', hb⟩

/-- What a step comes to: the least position that is left, and all others after it. -/
inductive Yields (c : Cursor) : Option (Nat × Cursor) → Prop
  | none (last : ∀ p, ¬ c.Has p) : Yields c none
  | some {p : Nat} {c' : Cursor} (has : c.Has p) (least : ∀ q, c.Has q → p ≤ q)
    (rest : ∀ q, c'.Has q ↔ c.Has q ∧ q ≠ p) : Yields c (some (p, c'))

theorem yields_current {c : Cursor} (h : c.current ≠ 0) :
    c.Yields (some (c.index * 64 + Word.lowest c.current,
      { c with current := Word.dropLowest c.current })) := by
  have hbit := Word.testBit_lowest h
  have hlt := Word.lt_of_testBit hbit
  have hdiv : (c.index * 64 + Word.lowest c.current) / 64 = c.index := by omega
  have hmod : (c.index * 64 + Word.lowest c.current) % 64 = Word.lowest c.current := by omega
  refine .some (.inl ⟨hdiv, by rwa [hmod]⟩) (fun q hq => ?_) fun q => ?_
  · rcases hq with ⟨he, hb⟩ | ⟨hlt', -⟩
    · have hle : Word.lowest c.current ≤ q % 64 := by
        apply Nat.not_lt.1
        intro hlow
        rw [Word.testBit_of_lt_lowest hlow] at hb
        cases hb
      omega
    · omega
  · have hne : q / 64 = c.index → (q ≠ c.index * 64 + Word.lowest c.current ↔
        q % 64 ≠ Word.lowest c.current) := by omega
    unfold Has
    simp only [Word.testBit_dropLowest h, Bool.and_eq_true, decide_eq_true_eq]
    constructor
    · rintro (⟨he, hb, hq⟩ | ⟨hlt', hb⟩)
      · exact ⟨.inl ⟨he, hb⟩, (hne he).2 hq⟩
      · exact ⟨.inr ⟨hlt', hb⟩, by omega⟩
    · rintro ⟨⟨he, hb⟩ | ⟨hlt', hb⟩, hq⟩
      · exact .inl ⟨he, hb, (hne he).1 hq⟩
      · exact .inr ⟨hlt', hb⟩

theorem yields_next (c : Cursor) : c.Yields c.next := by
  induction c using next.induct with
  | case1 c h0 hlt ih =>
    unfold next
    rw [if_pos h0, dif_pos hlt]
    generalize next _ = r at ih
    cases ih with
    | none last => exact .none fun p => mt (has_advance h0 hlt).2 (last p)
    | some has least rest =>
      refine .some ((has_advance h0 hlt).1 has) (fun q hq => ?_) fun q => ?_
      · exact least q ((has_advance h0 hlt).2 hq)
      · rw [rest, has_advance h0 hlt]
  | case2 c h0 hlt =>
    unfold next
    rw [if_pos h0, dif_neg hlt]
    refine .none fun p hp => ?_
    obtain ⟨hlt', hb⟩ := (has_of_current_eq_zero h0).1 hp
    rw [Array.getElem?_eq_none (by omega)] at hb
    simp at hb
  | case3 c h0 =>
    unfold next
    rw [if_neg h0]
    exact yields_current h0

/-- A step leaves fewer words, or less of the current one. -/
theorem next_lt {c c' : Cursor} {p : Nat} (h : c.next = some (p, c')) :
    c'.words.size - c'.index < c.words.size - c.index ∨
      c'.words.size - c'.index = c.words.size - c.index ∧ c'.current.toNat < c.current.toNat := by
  induction c using next.induct with
  | case1 c h0 hlt ih =>
    unfold next at h
    rw [if_pos h0, dif_pos hlt] at h
    rcases ih h with hless | ⟨hsame, -⟩
    · simp only at hless
      exact .inl (by omega)
    · simp only at hsame
      exact .inl (by omega)
  | case2 c h0 hlt =>
    unfold next at h
    rw [if_pos h0, dif_neg hlt] at h
    cases h
  | case3 c h0 =>
    unfold next at h
    rw [if_neg h0] at h
    cases h
    exact .inr ⟨rfl, Word.dropLowest_lt h0⟩

/-- All positions that are yet to come. -/
def toList (c : Cursor) : List Nat :=
  match _h : c.next with
  | none => []
  | some (p, c') => p :: c'.toList
termination_by (c.words.size - c.index, c.current.toNat)
decreasing_by
  rcases next_lt _h with hless | ⟨hsame, hless⟩
  · exact .left _ _ hless
  · rw [hsame]
    exact .right _ hless

theorem toList_eq_nil {c : Cursor} (h : c.next = none) : c.toList = [] := by
  unfold toList
  split
  · rfl
  · rename_i h'
    cases h.symm.trans h'

theorem toList_eq_cons {c c' : Cursor} {p : Nat} (h : c.next = some (p, c')) :
    c.toList = p :: c'.toList := by
  rw [toList]
  split
  · rename_i h'
    cases h.symm.trans h'
  · rename_i h'
    cases h.symm.trans h'
    rfl

theorem mem_toList {c : Cursor} {p : Nat} : p ∈ c.toList ↔ c.Has p := by
  induction c using toList.induct with
  | case1 c h =>
    have hyields := c.yields_next
    rw [h] at hyields
    cases hyields with
    | none last => simp [toList_eq_nil h, last p]
  | case2 c q c' h ih =>
    have hyields := c.yields_next
    rw [h] at hyields
    cases hyields with
    | some has _ rest =>
      rw [toList_eq_cons h, List.mem_cons, ih, rest]
      constructor
      · rintro (rfl | hp)
        · exact has
        · exact hp.1
      · intro hp
        by_cases he : p = q
        · exact .inl he
        · exact .inr ⟨hp, he⟩

theorem toList_pairwise (c : Cursor) : c.toList.Pairwise (· < ·) := by
  induction c using toList.induct with
  | case1 c h =>
    rw [toList_eq_nil h]
    exact .nil
  | case2 c p c' h ih =>
    have hyields := c.yields_next
    rw [h] at hyields
    cases hyields with
    | some _ least rest =>
      rw [toList_eq_cons h]
      refine List.pairwise_cons.2 ⟨fun q hq => ?_, ih⟩
      obtain ⟨hhas, hne⟩ := (rest q).1 (mem_toList.1 hq)
      exact Nat.lt_of_le_of_ne (least q hhas) hne.symm

end Cursor

end ContentAutomata
