import ContentAutomata.Proofs.Language.Tame

/-!
# Languages that show the same conflicts

A language *covers* another one if it shows all that matters about conflicts: whether the empty word
belongs to it, which letters come first, which may come after a word, and which are in conflict,
also in copies of it. If the parts of a language are covered, so is the whole, and ranges of
repetition need not agree for that: where copies may follow each other at all, two of them show all
conflicts that there are in tame languages (`Multiplicity.CoveredBy`), and only an exact number of
copies asks for more.

An exact number of copies may hide a conflict, since no word of it ends early. It does not if some
word can be divided into different numbers of copies. That the covering language does not hide it
either is the last part of `CoveredBy`, which is kept up only where it is asked for (`strict`).
Where it fails, letters of these copies may no longer come after a word, so that conflicts with
letters outside are lost, and only these. So covering is stated for pairs of letters of some
relation `C`, which is to relate no such letter of the copies and one outside in that case.

Results:
* `CoveredBy.mul`, `CoveredBy.add`, `CoveredBy.powers`, `coveredBy_one`, `coveredBy_single`:
  covering goes by parts.
-/
namespace ContentAutomata

section General

variable {α : Type} {A : α → Prop} {L M L' M' : Language α} {u : List α} {i j : α}

/-! ## Parts of products and sums -/

theorem beginning_of_mul (h : [i] ∈ beginnings (L * M)) :
    [i] ∈ beginnings L ∨ [] ∈ L ∧ [i] ∈ beginnings M := by
  obtain ⟨z, hz⟩ := mem_beginnings.1 h
  obtain ⟨l, hl, m, hm, e⟩ := Language.mem_mul.1 hz
  cases l with
  | nil => exact .inr ⟨hl, mem_beginnings.2 ⟨z, by rwa [← e]⟩⟩
  | cons b l =>
    obtain ⟨rfl, -⟩ : b = i ∧ l ++ m = z := by simpa using e
    exact .inl (mem_beginnings.2 ⟨l, hl⟩)

theorem letter_of_beginning (hL : Over A L) (h : [i] ∈ beginnings L) : A i :=
  (Over.of_append_mem_beginnings (y := []) hL h).2

theorem eq_nil_of_not {t : List α} (h : ∀ a ∈ t, A a) (h' : ∀ a ∈ t, ¬ A a) : t = [] := by
  cases t with
  | nil => rfl
  | cons a t => exact absurd (h a List.mem_cons_self) (h' a List.mem_cons_self)

/-- Where the letters of the first factor end and those of the second begin is unique. -/
theorem append_injective {l l' m m' : List α} (hl : ∀ a ∈ l, A a) (hl' : ∀ a ∈ l', A a)
    (hm : ∀ a ∈ m, ¬ A a) (hm' : ∀ a ∈ m', ¬ A a) (e : l ++ m = l' ++ m') : l = l' ∧ m = m' := by
  rcases List.append_eq_append_iff.1 e with ⟨t, rfl, rfl⟩ | ⟨t, rfl, rfl⟩
  · obtain rfl := eq_nil_of_not (fun a ha => hl' a (List.mem_append_right _ ha))
      fun a ha => hm a (List.mem_append_left _ ha)
    simp
  · obtain rfl := eq_nil_of_not (fun a ha => hl a (List.mem_append_right _ ha))
      fun a ha => hm' a (List.mem_append_left _ ha)
    simp

section Disjoint

variable (hL : Over A L) (hM : Over (fun a => ¬ A a) M)
include hL hM

theorem extends_of_mul (h : Extends (L * M) i) : Extends L i ∧ [] ∈ M ∨ Extends M i := by
  obtain ⟨u, hu, hi⟩ := h
  obtain ⟨l, hl, m, hm, rfl⟩ := Language.mem_mul.1 hu
  by_cases hA : A i
  · have hi' := mem_beginnings_of_mul_left hM hi hA
    have hwithin := (hL.of_append_mem_beginnings hi').1
    obtain rfl := eq_nil_of_not (fun a ha => hwithin a (List.mem_append_right _ ha)) (hM m hm)
    rw [List.append_nil] at hi'
    exact .inl ⟨⟨l, hl, hi'⟩, hm⟩
  · obtain ⟨l', hl', m', e, hm'⟩ := mem_beginnings_of_mul_right hL hi hA
    obtain ⟨rfl, rfl⟩ := append_injective (hL l hl) (hL l' hl') (hM m hm)
      (hM.of_append_mem_beginnings hm').1 e
    exact .inr ⟨m, hm, hm'⟩

/-- In a product, a letter of the first factor against one of the second. -/
theorem conflict_of_mul_across (hi : A i) (hj : ¬ A j) (h : Conflict (L * M) i j) :
    Extends L i ∧ [j] ∈ beginnings M := by
  obtain ⟨u, hui, huj⟩ := h
  have hui' := mem_beginnings_of_mul_left hM hui hi
  obtain ⟨l, hl, m, rfl, hm⟩ := mem_beginnings_of_mul_right hL huj hj
  have hwithin := (hL.of_append_mem_beginnings hui').1
  obtain rfl := eq_nil_of_not (fun a ha => hwithin a (List.mem_append_right _ ha))
    (hM.of_append_mem_beginnings hm).1
  rw [List.append_nil] at hui'
  exact ⟨⟨l, hl, hui'⟩, hm⟩

theorem conflict_of_mul (h : Conflict (L * M) i j) :
    Conflict L i j ∨ Conflict M i j ∨ Extends L i ∧ [j] ∈ beginnings M ∨
      Extends L j ∧ [i] ∈ beginnings M := by
  by_cases hi : A i <;> by_cases hj : A j
  · obtain ⟨u, hui, huj⟩ := h
    exact .inl ⟨u, mem_beginnings_of_mul_left hM hui hi, mem_beginnings_of_mul_left hM huj hj⟩
  · exact .inr (.inr (.inl (conflict_of_mul_across hL hM hi hj h)))
  · exact .inr (.inr (.inr (conflict_of_mul_across hL hM hj hi h.symm)))
  · obtain ⟨u, hui, huj⟩ := h
    obtain ⟨l, hl, m, rfl, hm⟩ := mem_beginnings_of_mul_right hL hui hi
    obtain ⟨l', hl', m', e, hm'⟩ := mem_beginnings_of_mul_right hL huj hj
    obtain ⟨rfl, rfl⟩ := append_injective (hL l hl) (hL l' hl')
      (hM.of_append_mem_beginnings hm).1 (hM.of_append_mem_beginnings hm').1 e
    exact .inr (.inl ⟨m, hm, hm'⟩)

/-- In a sum, a letter of the first summand. -/
theorem extends_of_add_left (hi : A i) (h : Extends (L + M) i) :
    Extends L i ∨ [] ∈ M ∧ [i] ∈ beginnings L := by
  obtain ⟨u, hu, hui⟩ := h
  have hui' := mem_beginnings_of_add hM hui hi
  rcases (Language.mem_add _ _ _).1 hu with hu | hu
  · exact .inl ⟨u, hu, hui'⟩
  · obtain rfl := eq_nil_of_not (hL.of_append_mem_beginnings hui').1 (hM u hu)
    exact .inr ⟨hu, hui'⟩

theorem extends_of_add (h : Extends (L + M) i) :
    Extends L i ∨ Extends M i ∨ [] ∈ L + M ∧ [i] ∈ beginnings (L + M) := by
  by_cases hi : A i
  · rcases extends_of_add_left hL hM hi h with h | ⟨hnil, hi⟩
    · exact .inl h
    · exact .inr (.inr ⟨.inr hnil, beginnings_mono le_self_add hi⟩)
  · rw [add_comm] at h
    rcases extends_of_add_left hM hL.not_not hi h with h | ⟨hnil, hi⟩
    · exact .inr (.inl h)
    · exact .inr (.inr ⟨.inl hnil, beginnings_mono le_add_self hi⟩)

theorem conflict_of_add (h : Conflict (L + M) i j) :
    Conflict L i j ∨ Conflict M i j ∨ [i] ∈ beginnings (L + M) ∧ [j] ∈ beginnings (L + M) := by
  obtain ⟨u, hui, huj⟩ := h
  have hfirst : u = [] → [i] ∈ beginnings (L + M) ∧ [j] ∈ beginnings (L + M) := by
    rintro rfl
    exact ⟨hui, huj⟩
  have hui' := hui
  have huj' := huj
  rw [beginnings_add, Language.mem_add] at hui' huj'
  rcases hui' with hi | hi <;> rcases huj' with hj | hj
  · exact .inl ⟨u, hi, hj⟩
  · exact .inr (.inr (hfirst (eq_nil_of_not (hL.of_append_mem_beginnings hi).1
      (hM.of_append_mem_beginnings hj).1)))
  · exact .inr (.inr (hfirst (eq_nil_of_not (hL.of_append_mem_beginnings hj).1
      (hM.of_append_mem_beginnings hi).1)))
  · exact .inr (.inl ⟨u, hi, hj⟩)

end Disjoint

/-! ## Covering -/

/-- Of the pairs of letters of `C`, the second language shows all conflicts that the first one
shows, whose letters are in `A`, in copies of it as well. -/
structure Covers (C : α → α → Prop) (A : α → Prop) (L L' : Language α) : Prop where
  nil : [] ∈ L → [] ∈ L'
  beginning : ∀ {i}, [i] ∈ beginnings L → [i] ∈ beginnings L'
  extend : ∀ {i j}, ¬ A j → C i j → Extends L i → Extends L' i
  copies : ∀ {i j}, C i j → CopiesConflict L i j → CopiesConflict L' i j
  conflict : ∀ {i j}, C i j → Conflict L i j → Conflict L' i j

/-- Some word of the language also consists of two words of it. -/
def OnceAndTwice (L : Language α) : Prop := ∃ u ∈ L, u ∈ L * L

theorem onceAndTwice_of_nil (h : [] ∈ L) : OnceAndTwice L :=
  ⟨[], h, Language.append_mem_mul h h⟩

theorem OnceAndTwice.mono (hle : L ≤ M) (h : OnceAndTwice L) : OnceAndTwice M := by
  obtain ⟨u, hu, hu'⟩ := h
  exact ⟨u, hle hu, mul_le_mul' hle hle hu'⟩

/-- Words that may be counted once or twice fill any number of copies, and one copy less. -/
theorem OnceAndTwice.extends_pow {c : Nat} (hc : 2 ≤ c) (h : OnceAndTwice L)
    (hi : [i] ∈ beginnings L) : Extends (L ^ c) i := by
  obtain ⟨u, hu, hu'⟩ := h
  obtain ⟨w, hw⟩ := exists_mem_pow ⟨u, hu⟩ (c - 2)
  obtain ⟨c, rfl⟩ : ∃ d, c = d + 2 := ⟨c - 2, by omega⟩
  have hfull : w ++ u ∈ L ^ (c + 2) := by
    rw [pow_add, pow_two]
    exact Language.append_mem_mul hw hu'
  refine ⟨w ++ u, hfull, ?_⟩
  rw [pow_succ]
  exact beginnings_mul_right (append_mem_pow_succ hw hu) hi

theorem OnceAndTwice.pow {c : Nat} (h : OnceAndTwice L) : OnceAndTwice (L ^ c) := by
  obtain ⟨u, hu, hu'⟩ := h
  have hcopies : ∀ K : Language α, u ∈ K → (List.replicate c u).flatten ∈ K ^ c := fun K hK =>
    Language.mem_pow.2 ⟨List.replicate c u, rfl, by simp, by simpa using fun _ => hK⟩
  refine ⟨_, hcopies L hu, ?_⟩
  rw [← pow_two, ← pow_mul, mul_comm, pow_mul, pow_two]
  exact hcopies (L * L) hu'

/-! ## Covering products and sums -/

section Disjoint

variable {C : α → α → Prop} {B D : α → Prop}
  (hC : ∀ {i j}, C i j → C j i) (hL : Over A L) (hM : Over B M) (hAB : ∀ {a}, A a → ¬ B a)
  (hA : ∀ {a}, A a → D a) (hB : ∀ {a}, B a → D a)
  (coversL : Covers C A L L') (coversM : Covers C B M M')

include hM hAB in
theorem over_not : Over (fun a => ¬ A a) M := fun u hu a ha h => hAB h (hM u hu a ha)

include hC hL hM hAB coversL coversM

theorem conflict_mul_of_covers (hL' : ∃ w, w ∈ L') (hM' : ∃ w, w ∈ M') (hij : C i j)
    (h : Conflict (L * M) i j) : Conflict (L' * M') i j := by
  rcases conflict_of_mul hL (over_not hM hAB) h with h | h | ⟨h, hbegin⟩ | ⟨h, hbegin⟩
  · exact (coversL.conflict hij h).mul_left hM'
  · exact (coversM.conflict hij h).mul_right hL'
  · have hj : ¬ A j := fun hA => hAB hA (letter_of_beginning hM hbegin)
    exact conflict_mul_across (coversL.extend hj hij h) (coversM.beginning hbegin)
  · have hi : ¬ A i := fun hA => hAB hA (letter_of_beginning hM hbegin)
    exact (conflict_mul_across (coversL.extend hi (hC hij) h) (coversM.beginning hbegin)).symm

omit hL hM hAB hC in
theorem beginning_mul_of_covers (hM' : ∃ w, w ∈ M') (h : [i] ∈ beginnings (L * M)) :
    [i] ∈ beginnings (L' * M') := by
  rcases beginning_of_mul h with h | ⟨hnil, h⟩
  · exact beginnings_mul_left hM' (coversL.beginning h)
  · exact beginnings_mono (le_mul_of_nil_left (coversL.nil hnil)) (coversM.beginning h)

/-- A first letter of a product against one that may come after a word of it. -/
theorem copiesConflict_mul_of_covers (hL' : ∃ w, w ∈ L') (hM' : ∃ w, w ∈ M') (hij : C i j)
    (hi : [i] ∈ beginnings (L * M)) (hj : Extends (L * M) j) :
    CopiesConflict (L' * M') i j := by
  have hbegin := beginning_mul_of_covers coversL coversM hM' hi
  rcases extends_of_mul hL (over_not hM hAB) hj with ⟨hj, hnil⟩ | hj
  · have hle := le_mul_of_nil_right (L := L') (coversM.nil hnil)
    rcases beginning_of_mul hi with hi | ⟨-, hi⟩
    · exact (coversL.copies hij (.inr (.inl ⟨hi, hj⟩))).mono hle
    · have hi' : ¬ A i := fun hA => hAB hA (letter_of_beginning hM hi)
      exact .inr (.inl ⟨hbegin, (coversL.extend hi' (hC hij) hj).mono hle⟩)
  · rcases beginning_of_mul hi with hi | ⟨hnil, hi⟩
    · have hi' : ¬ B i := hAB (letter_of_beginning hL hi)
      exact .inr (.inl ⟨hbegin, (coversM.extend hi' (hC hij) hj).mul_right hL'⟩)
    · exact (coversM.copies hij (.inr (.inl ⟨hi, hj⟩))).mono
        (le_mul_of_nil_left (coversL.nil hnil))

include hA hB in
theorem Covers.mul (hL' : ∃ w, w ∈ L') (hM' : ∃ w, w ∈ M') : Covers C D (L * M) (L' * M') where
  nil h := by
    obtain ⟨hl, hm⟩ := nil_mem_of_nil_mem_mul h
    exact Language.append_mem_mul (coversL.nil hl) (coversM.nil hm)
  beginning := beginning_mul_of_covers coversL coversM hM'
  extend {i j} hj hij h := by
    rcases extends_of_mul hL (over_not hM hAB) h with ⟨h, hnil⟩ | h
    · exact (coversL.extend (mt hA hj) hij h).mono (le_mul_of_nil_right (coversM.nil hnil))
    · exact (coversM.extend (mt hB hj) hij h).mul_right hL'
  copies {i j} hij h := by
    rcases h with h | ⟨hi, hj⟩ | ⟨hj, hi⟩
    · exact .inl (conflict_mul_of_covers hC hL hM hAB coversL coversM hL' hM' hij h)
    · exact copiesConflict_mul_of_covers hC hL hM hAB coversL coversM hL' hM' hij hi hj
    · exact (copiesConflict_mul_of_covers hC hL hM hAB coversL coversM hL' hM' (hC hij) hj hi).symm
  conflict := conflict_mul_of_covers hC hL hM hAB coversL coversM hL' hM'

omit hL hM hAB hC in
theorem beginning_add_of_covers (h : [i] ∈ beginnings (L + M)) : [i] ∈ beginnings (L' + M') := by
  rw [beginnings_add] at h ⊢
  rcases h with h | h
  · exact .inl (coversL.beginning h)
  · exact .inr (coversM.beginning h)

omit hL hM hAB hC in
theorem nil_add_of_covers (h : [] ∈ L + M) : [] ∈ L' + M' := by
  rcases h with h | h
  · exact .inl (coversL.nil h)
  · exact .inr (coversM.nil h)

omit hC in
theorem conflict_add_of_covers (hij : C i j) (h : Conflict (L + M) i j) :
    Conflict (L' + M') i j := by
  rcases conflict_of_add hL (over_not hM hAB) h with h | h | ⟨hi, hj⟩
  · exact (coversL.conflict hij h).mono le_self_add
  · exact (coversM.conflict hij h).mono le_add_self
  · exact ⟨[], beginning_add_of_covers coversL coversM hi,
      beginning_add_of_covers coversL coversM hj⟩

/-- A first letter of a sum against one that may come after a word of it. -/
theorem copiesConflict_add_of_covers (hij : C i j) (hi : [i] ∈ beginnings (L + M))
    (hj : Extends (L + M) j) : CopiesConflict (L' + M') i j := by
  have hbegin := beginning_add_of_covers coversL coversM hi
  rw [beginnings_add] at hi
  rcases extends_of_add hL (over_not hM hAB) hj with hj | hj | ⟨-, hj⟩
  · rcases hi with hi | hi
    · exact (coversL.copies hij (.inr (.inl ⟨hi, hj⟩))).mono le_self_add
    · have hi' : ¬ A i := fun hA => hAB hA (letter_of_beginning hM hi)
      exact .inr (.inl ⟨hbegin, (coversL.extend hi' (hC hij) hj).mono le_self_add⟩)
  · rcases hi with hi | hi
    · have hi' : ¬ B i := hAB (letter_of_beginning hL hi)
      exact .inr (.inl ⟨hbegin, (coversM.extend hi' (hC hij) hj).mono le_add_self⟩)
    · exact (coversM.copies hij (.inr (.inl ⟨hi, hj⟩))).mono le_add_self
  · exact .inl ⟨[], hbegin, beginning_add_of_covers coversL coversM hj⟩

include hA hB in
theorem Covers.add : Covers C D (L + M) (L' + M') where
  nil := nil_add_of_covers coversL coversM
  beginning := beginning_add_of_covers coversL coversM
  extend {i j} hj hij h := by
    rcases extends_of_add hL (over_not hM hAB) h with h | h | ⟨h, hbegin⟩
    · exact (coversL.extend (mt hA hj) hij h).mono le_self_add
    · exact (coversM.extend (mt hB hj) hij h).mono le_add_self
    · exact ⟨[], nil_add_of_covers coversL coversM h,
        beginning_add_of_covers coversL coversM hbegin⟩
  copies {i j} hij h := by
    rcases h with h | ⟨hi, hj⟩ | ⟨hj, hi⟩
    · exact .inl (conflict_add_of_covers hL hM hAB coversL coversM hij h)
    · exact copiesConflict_add_of_covers hC hL hM hAB coversL coversM hij hi hj
    · exact (copiesConflict_add_of_covers hC hL hM hAB coversL coversM (hC hij) hj hi).symm
  conflict := conflict_add_of_covers hL hM hAB coversL coversM

omit hC in
/-- Where the number of copies of a product varies, one copy of the covering product may be two. -/
theorem onceAndTwice_mul
    (variesL : CountVaries L → OnceAndTwice L') (variesM : CountVaries M → OnceAndTwice M')
    (h : CountVaries (L * M)) : OnceAndTwice (L' * M') :=
  countVaries_of_mul hL (over_not hM hAB)
    (fun hl hm =>
      onceAndTwice_of_nil (Language.append_mem_mul (coversL.nil hl) (coversM.nil hm)))
    (fun hm h => (variesL h).mono (le_mul_of_nil_right (coversM.nil hm)))
    (fun hl h => (variesM h).mono (le_mul_of_nil_left (coversL.nil hl))) h

omit hC in
theorem onceAndTwice_add
    (variesL : CountVaries L → OnceAndTwice L') (variesM : CountVaries M → OnceAndTwice M')
    (h : CountVaries (L + M)) : OnceAndTwice (L' + M') :=
  countVaries_of_add hL (over_not hM hAB)
    (fun hnil => onceAndTwice_of_nil (nil_add_of_covers coversL coversM hnil))
    (fun h => (variesL h).mono le_self_add) (fun h => (variesM h).mono le_add_self) h

end Disjoint

/-! ## Covering ranges of repetition -/

/-- Two numbers of copies cover one: what may be left out and what may follow itself may do so in
the second as well. -/
structure Multiplicity.CoveredBy (m m' : Multiplicity) : Prop where
  absent : m.min = 0 → m'.min = 0
  plural : ∀ {k}, 2 ≤ k → m.Admits k → ∃ k', 2 ≤ k' ∧ m'.Admits k'

/-- Whether twice the least number of copies is admitted. -/
def Multiplicity.doubles (m : Multiplicity) : Bool :=
  m.max.all fun max => 2 * m.min.toNat ≤ max.toNat

theorem Multiplicity.admits_double {m : Multiplicity} (h : m.doubles = true) :
    m.Admits (2 * m.min.toNat) := by
  refine ⟨Nat.le_mul_of_pos_left _ Nat.two_pos, fun max hmax => ?_⟩
  simpa [doubles, hmax] using h

section Powers

variable {m m' : Multiplicity} (ho : m.isOrdered = true) (hn : m.isNever = false)
  (ho' : m'.isOrdered = true) (hn' : m'.isNever = false) (hm : m.CoveredBy m')
  (hL' : ∃ w, w ∈ L')

theorem nil_mem_pow (h : [] ∈ L) (n : Nat) : [] ∈ L ^ n := by
  induction n with
  | zero => rfl
  | succ n ih => exact append_mem_pow_succ ih h

variable {C : α → α → Prop} (tame : Tame L) (covers : Covers C A L L')

include ho' hm covers in
theorem nil_mem_powers_of_coveredBy (h : [] ∈ m.powers L) : [] ∈ m'.powers L' := by
  obtain ⟨k, hk, hmem⟩ := h
  refine ⟨m'.min.toNat, Multiplicity.admits_min ho', ?_⟩
  by_cases hk0 : k = 0
  · have hmin : m.min = 0 := by
      have hle := hk.1
      exact UInt32.toNat_inj.1 (by rw [UInt32.toNat_zero]; omega)
    rw [hm.absent hmin]
    rfl
  · exact nil_mem_pow (covers.nil (nil_mem_of_nil_mem_pow hk0 hmem)) _

theorem beginning_of_powers (h : [i] ∈ beginnings (m.powers L)) : [i] ∈ beginnings L := by
  obtain ⟨w, ⟨c, -, hw⟩, hp⟩ := h
  obtain ⟨k, -, hk⟩ := exists_continues (y := []) ⟨w, hw, hp⟩
  exact hk.of_nil

include hn ho' hn' hm hL' tame covers in
/-- Where the covering number of copies is exact, so has to be the covered one, unless it is known
otherwise that the letter may come after a word. -/
theorem extends_powers_of_coveredBy (hj : ¬ A j) (hij : C i j)
    (hexact : m'.IsExact → m.IsExact ∧ (2 ≤ m.min.toNat → CountVaries L → OnceAndTwice L') ∨
      Extends (m'.powers L') i)
    (h : Extends (m.powers L) i) : Extends (m'.powers L') i := by
  obtain ⟨u, ⟨k, hk, hu⟩, w, ⟨c, hc, hw⟩, hp⟩ := h
  obtain ⟨l, hl, hui⟩ := exists_continues ⟨w, hw, hp⟩
  have hext : Extends L i → Extends (m'.powers L') i := fun h =>
    Multiplicity.extends_powers ho' hn' hL' (covers.extend hj hij h)
  rcases tame.goesOn hu hui with h | ⟨hbegin, hvaries⟩
  · exact hext h
  · by_cases hexact' : m'.IsExact
    · rcases hexact hexact' with ⟨he, varies⟩ | h
      · obtain rfl : k = m.min.toNat := Nat.le_antisymm (hk.2 _ he) hk.1
        obtain rfl : c = m.min.toNat := Nat.le_antisymm (hc.2 _ he) hc.1
        by_cases hone : m.min.toNat < 2
        · have hone : m.min.toNat = 1 := by
            have hne := Multiplicity.min_ne_zero_of_isExact he hn
            omega
          obtain rfl : l = 0 := by omega
          rw [hone, pow_one] at hu
          exact hext ⟨u, hu, continues_zero.1 hui⟩
        · -- some word that makes up all copies makes up fewer as well
          obtain ⟨k', hk', hadmits⟩ := hm.plural (by omega) hk
          have hle := hadmits.2 _ hexact'
          rw [Multiplicity.powers_of_isExact hexact']
          exact (varies (by omega) (hvaries hl)).extends_pow (by omega) (covers.beginning hbegin)
      · exact h
    · exact Multiplicity.extends_powers_of_not_isExact ho' hL' hexact' (covers.beginning hbegin)

include ho' hn' hm hL' tame covers

theorem conflict_powers_of_coveredBy (hij : C i j) (h : Conflict (m.powers L) i j) :
    Conflict (m'.powers L') i j := by
  obtain ⟨u, ⟨w, ⟨c, hc, hw⟩, hp⟩, w', ⟨d, hd, hw'⟩, hp'⟩ := h
  obtain ⟨k, hk, hui⟩ := exists_continues ⟨w, hw, hp⟩
  obtain ⟨l, hl, huj⟩ := exists_continues ⟨w', hw', hp'⟩
  by_cases hone : c < 2 ∧ d < 2
  · obtain rfl : k = 0 := by omega
    obtain rfl : l = 0 := by omega
    have hL : Conflict L i j := ⟨u, continues_zero.1 hui, continues_zero.1 huj⟩
    exact Multiplicity.conflict_powers ho' hn' hL' (covers.conflict hij hL)
  · -- two copies may follow each other
    obtain ⟨k', hk', hadmits⟩ : ∃ k', 2 ≤ k' ∧ m'.Admits k' := by
      by_cases hc2 : 2 ≤ c
      · exact hm.plural hc2 hc
      · exact hm.plural (by omega) hd
    have hacross : ∀ {i j}, [i] ∈ beginnings L' → Extends L' j → Conflict (m'.powers L') j i := by
      intro i j hi hj
      obtain ⟨k', rfl⟩ : ∃ n, k' = n + 1 := ⟨k' - 1, by omega⟩
      refine Conflict.mono (Multiplicity.pow_le_powers hadmits L') ?_
      rw [pow_succ']
      exact conflict_mul_across hj (beginnings_pow hL' (by omega) hi)
    rcases covers.copies hij (tame.conflict hui huj) with h | ⟨hi, hj⟩ | ⟨hj, hi⟩
    · exact Multiplicity.conflict_powers ho' hn' hL' h
    · exact (hacross hi hj).symm
    · exact hacross hj hi

omit hm in
/-- A first letter of some copies against one that may come after a word of them. -/
theorem copiesConflict_powers_of_coveredBy (hij : C i j) (hi : [i] ∈ beginnings (m.powers L))
    (hj : Extends (m.powers L) j) : CopiesConflict (m'.powers L') i j := by
  have hi' := beginning_of_powers hi
  obtain ⟨u, ⟨k, -, hu⟩, w, ⟨c, -, hw⟩, hp⟩ := hj
  obtain ⟨l, -, huj⟩ := exists_continues ⟨w, hw, hp⟩
  have hbegin : ∀ {i}, [i] ∈ beginnings L → [i] ∈ beginnings (m'.powers L') := fun h =>
    Multiplicity.beginnings_powers ho' hn' hL' (covers.beginning h)
  rcases tame.goesOn hu huj with hj | ⟨hj, -⟩
  · exact Multiplicity.copiesConflict_powers ho' hn' hL' (covers.copies hij (.inr (.inl ⟨hi', hj⟩)))
  · exact .inl ⟨[], hbegin hi', hbegin hj⟩

include hn in
theorem Covers.powers (hC : ∀ {i j}, C i j → C j i)
    (hexact : ∀ i j, Extends (m.powers L) i → ¬ A j → C i j → m'.IsExact →
      m.IsExact ∧ (2 ≤ m.min.toNat → CountVaries L → OnceAndTwice L') ∨
        Extends (m'.powers L') i) :
    Covers C A (m.powers L) (m'.powers L') where
  nil := nil_mem_powers_of_coveredBy ho' hm covers
  beginning h := Multiplicity.beginnings_powers ho' hn' hL' (covers.beginning (beginning_of_powers h))
  extend {i j} hj hij h := extends_powers_of_coveredBy hn ho' hn' hm hL' tame covers hj hij
    (hexact i j h hj hij) h
  copies {i j} hij h := by
    rcases h with h | ⟨hi, hj⟩ | ⟨hj, hi⟩
    · exact .inl (conflict_powers_of_coveredBy ho' hn' hm hL' tame covers hij h)
    · exact copiesConflict_powers_of_coveredBy ho' hn' hL' tame covers hij hi hj
    · exact (copiesConflict_powers_of_coveredBy ho' hn' hL' tame covers (hC hij) hj hi).symm
  conflict := conflict_powers_of_coveredBy ho' hn' hm hL' tame covers

omit hn' hm tame covers in
include hn ho' hL' in
/-- Where the number of copies of a power varies, one copy of the covering power may be two, if it
is exact or admits twice its least number of copies. -/
theorem onceAndTwice_powers (varies : CountVaries L → OnceAndTwice L')
    (hexact : m'.IsExact → m.IsExact) (hm' : m'.IsExact ∨ m'.doubles = true)
    (h : CountVaries (m.powers L)) : OnceAndTwice (m'.powers L') := by
  rcases hm' with he | hdoubles
  · rw [Multiplicity.powers_of_isExact he]
    exact (varies (countVaries_of_powers (hexact he) hn h)).pow
  · obtain ⟨w, hw⟩ := exists_mem_pow hL' m'.min.toNat
    have hleast := Multiplicity.pow_le_powers (Multiplicity.admits_min ho') L' hw
    have htwice := Multiplicity.pow_le_powers (Multiplicity.admits_double hdoubles) L'
    rw [Nat.two_mul, pow_add] at htwice
    exact ⟨w ++ w, htwice (Language.append_mem_mul hw hw), Language.append_mem_mul hleast hleast⟩

end Powers

end General

/-! ## Covering by parts -/

/-- All letters of the language lie between the bounds. -/
def Between (lo hi : Nat) (L : Language Nat) : Prop := Over (fun a => lo ≤ a ∧ a < hi) L

theorem Between.mul {lo mid hi : Nat} {L M : Language Nat} (hL : Between lo mid L)
    (hM : Between mid hi M) (hlo : lo ≤ mid) (hhi : mid ≤ hi) : Between lo hi (L * M) := by
  intro u hu a ha
  obtain ⟨l, hl, m, hm, rfl⟩ := Language.mem_mul.1 hu
  rcases List.mem_append.1 ha with ha | ha
  · have h := hL l hl a ha
    omega
  · have h := hM m hm a ha
    omega

theorem Between.add {lo mid hi : Nat} {L M : Language Nat} (hL : Between lo mid L)
    (hM : Between mid hi M) (hlo : lo ≤ mid) (hhi : mid ≤ hi) : Between lo hi (L + M) := by
  intro u hu a ha
  rcases (Language.mem_add _ _ _).1 hu with hu | hu
  · have h := hL u hu a ha
    omega
  · have h := hM u hu a ha
    omega

theorem Between.powers {lo hi : Nat} {L : Language Nat} (hL : Between lo hi L)
    (m : Multiplicity) : Between lo hi (m.powers L) := by
  intro u hu a ha
  obtain ⟨v, hv, hav⟩ := Multiplicity.exists_mem_of_mem_powers hu ha
  exact hL v hv a hav

/-- The first language is tame, and the second one covers it for the pairs of letters of `C`; if
that is to hold strictly, also where the number of copies of the first one varies. -/
structure CoveredBy (C : Nat → Nat → Prop) (strict : Prop) (lo hi : Nat) (L L' : Language Nat) :
    Prop where
  le : lo ≤ hi
  between : Between lo hi L
  between' : Between lo hi L'
  nonempty : ∃ w, w ∈ L
  nonempty' : ∃ w, w ∈ L'
  tame : Tame L
  covers : Covers C (fun a => lo ≤ a ∧ a < hi) L L'
  varies : strict → CountVaries L → OnceAndTwice L'

section Parts

variable {C : Nat → Nat → Prop} {strict strict' : Prop} {lo mid hi : Nat}
  {L L' M M' : Language Nat}

theorem CoveredBy.weaken {hi' : Nat} (h : CoveredBy C strict lo hi L L') (hs : strict' → strict)
    (hhi : hi ≤ hi') : CoveredBy C strict' lo hi' L L' where
  le := h.le.trans hhi
  between u hu a ha := ⟨(h.between u hu a ha).1, (h.between u hu a ha).2.trans_le hhi⟩
  between' u hu a ha := ⟨(h.between' u hu a ha).1, (h.between' u hu a ha).2.trans_le hhi⟩
  nonempty := h.nonempty
  nonempty' := h.nonempty'
  tame := h.tame
  covers := by
    refine ⟨h.covers.nil, h.covers.beginning, fun {i j} hj hij hext => ?_, h.covers.copies,
      h.covers.conflict⟩
    exact h.covers.extend (fun hj' => hj ⟨hj'.1, hj'.2.trans_le hhi⟩) hij hext
  varies hs' := h.varies (hs hs')

theorem CoveredBy.below (h : CoveredBy C strict lo hi L L') : Over (· < hi) L :=
  fun w hw a ha => (h.between w hw a ha).2

theorem CoveredBy.above (h : CoveredBy C strict lo hi L L') : Over (fun a => ¬ a < lo) L :=
  fun w hw a ha => Nat.not_lt.2 (h.between w hw a ha).1

theorem CoveredBy.mul (hC : ∀ {i j}, C i j → C j i) (hL : CoveredBy C strict lo mid L L')
    (hM : CoveredBy C strict mid hi M M') : CoveredBy C strict lo hi (L * M) (L' * M') := by
  have hapart : ∀ {a}, lo ≤ a ∧ a < mid → ¬ (mid ≤ a ∧ a < hi) := fun h h' => by omega
  refine ⟨hL.le.trans hM.le, hL.between.mul hM.between hL.le hM.le,
    hL.between'.mul hM.between' hL.le hM.le, ?_, ?_,
    .mul hL.below hM.above hL.nonempty hM.nonempty hL.tame hM.tame,
    .mul hC hL.between hM.between hapart (fun h => ⟨h.1, h.2.trans_le hM.le⟩)
      (fun h => ⟨hL.le.trans h.1, h.2⟩) hL.covers hM.covers hL.nonempty' hM.nonempty',
    fun h => onceAndTwice_mul hL.between hM.between hapart hL.covers hM.covers (hL.varies h)
      (hM.varies h)⟩
  · obtain ⟨l, hl⟩ := hL.nonempty
    obtain ⟨m, hm⟩ := hM.nonempty
    exact ⟨l ++ m, Language.append_mem_mul hl hm⟩
  · obtain ⟨l, hl⟩ := hL.nonempty'
    obtain ⟨m, hm⟩ := hM.nonempty'
    exact ⟨l ++ m, Language.append_mem_mul hl hm⟩

theorem CoveredBy.add (hC : ∀ {i j}, C i j → C j i) (hL : CoveredBy C strict lo mid L L')
    (hM : CoveredBy C strict mid hi M M') : CoveredBy C strict lo hi (L + M) (L' + M') := by
  have hapart : ∀ {a}, lo ≤ a ∧ a < mid → ¬ (mid ≤ a ∧ a < hi) := fun h h' => by omega
  refine ⟨hL.le.trans hM.le, hL.between.add hM.between hL.le hM.le,
    hL.between'.add hM.between' hL.le hM.le, ?_, ?_, .add hL.below hM.above hL.tame hM.tame,
    .add hC hL.between hM.between hapart (fun h => ⟨h.1, h.2.trans_le hM.le⟩)
      (fun h => ⟨hL.le.trans h.1, h.2⟩) hL.covers hM.covers,
    fun h => onceAndTwice_add hL.between hM.between hapart hL.covers hM.covers (hL.varies h)
      (hM.varies h)⟩
  · obtain ⟨l, hl⟩ := hL.nonempty
    exact ⟨l, .inl hl⟩
  · obtain ⟨l, hl⟩ := hL.nonempty'
    exact ⟨l, .inl hl⟩

/-- A range that covers another one may take its place. If it is exact, then so has to be the other
one, with strict covering inside; or no letter may come after a word only before, if `C` relates it
to one outside. Covering is strict where the range is exact or admits twice its least number. -/
theorem CoveredBy.powers {m m' : Multiplicity} (hC : ∀ {i j}, C i j → C j i) (ho : m.isOrdered = true)
    (hn : m.isNever = false) (ho' : m'.isOrdered = true) (hn' : m'.isNever = false)
    (hm : m.CoveredBy m')
    (hexact : ∀ i j, Extends (m.powers L) i → ¬ (lo ≤ j ∧ j < hi) → C i j → m'.IsExact →
      m.IsExact ∧ (2 ≤ m.min.toNat → strict) ∨ Extends (m'.powers L') i)
    (hstrict : strict' → strict ∧ (m'.IsExact → m.IsExact) ∧ (m'.IsExact ∨ m'.doubles = true))
    (hL : CoveredBy C strict lo hi L L') :
    CoveredBy C strict' lo hi (m.powers L) (m'.powers L') where
  le := hL.le
  between := hL.between.powers m
  between' := hL.between'.powers m'
  nonempty := Multiplicity.exists_mem_powers ho hL.nonempty
  nonempty' := Multiplicity.exists_mem_powers ho' hL.nonempty'
  tame := hL.tame.powers ho hn hL.nonempty
  covers := .powers hn ho' hn' hm hL.nonempty' hL.tame hL.covers hC fun i j hi hj hij he =>
    (hexact i j hi hj hij he).imp_left fun h => ⟨h.1, fun hmin => hL.varies (h.2 hmin)⟩
  varies h := onceAndTwice_powers hn ho' hL.nonempty' (hL.varies (hstrict h).1) (hstrict h).2.1
    (hstrict h).2.2

theorem covers_refl (C : Nat → Nat → Prop) (A : Nat → Prop) (L : Language Nat) :
    Covers C A L L :=
  ⟨id, id, fun _ _ => id, fun _ => id, fun _ => id⟩

theorem coveredBy_one (C : Nat → Nat → Prop) (strict : Prop) (h : lo ≤ hi) :
    CoveredBy C strict lo hi 1 1 where
  le := h
  between := by
    rintro _ rfl a ha
    cases ha
  between' := by
    rintro _ rfl a ha
    cases ha
  nonempty := ⟨[], rfl⟩
  nonempty' := ⟨[], rfl⟩
  tame := tame_one
  covers := covers_refl C _ 1
  varies _ _ := onceAndTwice_of_nil rfl

theorem coveredBy_single (C : Nat → Nat → Prop) (strict : Prop) (i : Nat) :
    CoveredBy C strict i (i + 1) {[i]} {[i]} where
  le := Nat.le_succ i
  between := by
    rintro _ rfl a ha
    rw [List.mem_singleton.1 ha]
    omega
  between' := by
    rintro _ rfl a ha
    rw [List.mem_singleton.1 ha]
    omega
  nonempty := ⟨[i], rfl⟩
  nonempty' := ⟨[i], rfl⟩
  tame := tame_single i
  covers := covers_refl C _ _
  varies _ h := absurd h (not_countVaries_single i)

end Parts

end ContentAutomata
