import ContentAutomata.Proofs.Language.Runs
import Mathlib.Algebra.Order.Monoid.Unbundled.Pow
import Mathlib.Order.CompletePartialOrder

/-!
# What copies of a language add to its conflicts

Two letters are in conflict in a language if either of them may come next after some word. When
words of the language stand one after the other, new conflicts arise: where a word may end or go on,
the first letters of the next word compete with those that it may go on with. In a language whose
letters each stand in one place these are the only new ones, however many copies there are and
however much earlier copies leave open where they end. Such a language is `Tame`.

A conflict of that kind needs a second copy. If the number of copies is fixed, it also matters
whether a word that makes up all of them could be read as fewer (`CountVaries`).

Results:
* `tame_one`, `tame_single`, `Tame.mul`, `Tame.add`, `Tame.powers`: languages built from parts
  without common letters are tame;
* `countVaries_of_mul`, `countVaries_of_add`, `countVaries_of_powers`: where the number of copies
  may vary in such a language.
-/
namespace ContentAutomata

variable {α : Type} {A : α → Prop} {L M K : Language α} {u v w : List α} {i j : α} {m n : Nat}

/-- After some word, either of the two may come next. -/
def Conflict (L : Language α) (i j : α) : Prop :=
  ∃ u, u ++ [i] ∈ beginnings L ∧ u ++ [j] ∈ beginnings L

/-- Some word of the language may go on with the letter. -/
def Extends (L : Language α) (i : α) : Prop := ∃ u ∈ L, u ++ [i] ∈ beginnings L

/-- Either of the two may come next after some word, in the language or where a word of it ends and
another one begins. -/
def CopiesConflict (L : Language α) (i j : α) : Prop :=
  Conflict L i j ∨ [i] ∈ beginnings L ∧ Extends L j ∨ [j] ∈ beginnings L ∧ Extends L i

/-- Some word consists of one number of words of the language, and also of another number. -/
def CountVaries (L : Language α) : Prop := ∃ m n u, m ≠ n ∧ u ∈ L ^ m ∧ u ∈ L ^ n

/-- However copies of the language are put together, the only conflicts are those of one copy and of
the end of one copy with the beginning of the next. -/
structure Tame (L : Language α) : Prop where
  conflict : ∀ {m n u i j}, Continues L m u i → Continues L n u j → CopiesConflict L i j
  goesOn : ∀ {m n u i}, u ∈ L ^ m → Continues L n u i →
    Extends L i ∨ [i] ∈ beginnings L ∧ (n < m → CountVaries L)

/-! ## Larger languages -/

section Mono

theorem Conflict.symm (h : Conflict L i j) : Conflict L j i := by
  obtain ⟨u, hi, hj⟩ := h
  exact ⟨u, hj, hi⟩

theorem CopiesConflict.symm (h : CopiesConflict L i j) : CopiesConflict L j i := by
  rcases h with h | h | h
  · exact .inl h.symm
  · exact .inr (.inr h)
  · exact .inr (.inl h)

variable (hle : L ≤ K)
include hle

theorem beginnings_mono : beginnings L ≤ beginnings K := by
  intro u hu
  obtain ⟨w, hw, hp⟩ := hu
  exact ⟨w, hle hw, hp⟩

theorem Conflict.mono (h : Conflict L i j) : Conflict K i j := by
  obtain ⟨u, hi, hj⟩ := h
  exact ⟨u, beginnings_mono hle hi, beginnings_mono hle hj⟩

theorem Extends.mono (h : Extends L i) : Extends K i := by
  obtain ⟨u, hu, hi⟩ := h
  exact ⟨u, hle hu, beginnings_mono hle hi⟩

theorem CopiesConflict.mono (h : CopiesConflict L i j) : CopiesConflict K i j := by
  rcases h with h | ⟨hi, hj⟩ | ⟨hj, hi⟩
  · exact .inl (h.mono hle)
  · exact .inr (.inl ⟨beginnings_mono hle hi, hj.mono hle⟩)
  · exact .inr (.inr ⟨beginnings_mono hle hj, hi.mono hle⟩)

theorem CountVaries.mono (h : CountVaries L) : CountVaries K := by
  obtain ⟨m, n, u, hne, hm, hn⟩ := h
  have hpow : ∀ k, L ^ k ≤ K ^ k := fun k => pow_le_pow_left' hle k
  exact ⟨m, n, u, hne, hpow m hm, hpow n hn⟩

end Mono

/-! ## Products -/

theorem of_ne_of_eq_zero_or {p : Prop} {a b : Nat} (hne : a ≠ b) (ha : a = 0 ∨ p)
    (hb : b = 0 ∨ p) : p := by
  rcases ha with rfl | h
  · exact hb.resolve_left (Ne.symm hne)
  · exact h

theorem nil_mem_of_nil_mem_mul (h : [] ∈ L * M) : [] ∈ L ∧ [] ∈ M := by
  obtain ⟨l, hl, m, hm, e⟩ := Language.mem_mul.1 h
  obtain ⟨rfl, rfl⟩ := List.append_eq_nil_iff.1 e
  exact ⟨hl, hm⟩

theorem nil_mem_of_nil_mem_pow (hn : n ≠ 0) (h : [] ∈ L ^ n) : [] ∈ L := by
  obtain ⟨n, rfl⟩ := Nat.exists_eq_succ_of_ne_zero hn
  rw [pow_succ] at h
  exact (nil_mem_of_nil_mem_mul h).2

theorem le_mul_of_nil_right (h : [] ∈ M) : L ≤ L * M := by
  intro u hu
  exact List.append_nil u ▸ Language.append_mem_mul hu h

theorem le_mul_of_nil_left (h : [] ∈ L) : M ≤ L * M := by
  intro u hu
  exact List.nil_append u ▸ Language.append_mem_mul h hu

theorem beginnings_mul_left (hM : ∃ w, w ∈ M) (h : u ∈ beginnings L) : u ∈ beginnings (L * M) := by
  obtain ⟨w, hw⟩ := hM
  obtain ⟨z, hz⟩ := mem_beginnings.1 h
  exact mem_beginnings.2 ⟨z ++ w, List.append_assoc u z w ▸ Language.append_mem_mul hz hw⟩

theorem beginnings_mul_right (hv : v ∈ L) (h : u ∈ beginnings M) :
    v ++ u ∈ beginnings (L * M) := by
  obtain ⟨z, hz⟩ := mem_beginnings.1 h
  exact mem_beginnings.2 ⟨z, (List.append_assoc v u z).symm ▸ Language.append_mem_mul hv hz⟩

theorem Extends.mul_right (hL : ∃ w, w ∈ L) (h : Extends M i) : Extends (L * M) i := by
  obtain ⟨w, hw⟩ := hL
  obtain ⟨u, hu, hi⟩ := h
  refine ⟨w ++ u, Language.append_mem_mul hw hu, ?_⟩
  rw [List.append_assoc]
  exact beginnings_mul_right hw hi

/-- A word of the first factor may go on with the second, if that may also be left out. -/
theorem extends_mul_across (hL : ∃ w, w ∈ L) (hM : [] ∈ M) (h : [i] ∈ beginnings M) :
    Extends (L * M) i := by
  obtain ⟨w, hw⟩ := hL
  exact ⟨w, le_mul_of_nil_right hM hw, beginnings_mul_right hw h⟩

theorem Conflict.mul_left (hM : ∃ w, w ∈ M) (h : Conflict L i j) : Conflict (L * M) i j := by
  obtain ⟨u, hi, hj⟩ := h
  exact ⟨u, beginnings_mul_left hM hi, beginnings_mul_left hM hj⟩

theorem Conflict.mul_right (hL : ∃ w, w ∈ L) (h : Conflict M i j) : Conflict (L * M) i j := by
  obtain ⟨w, hw⟩ := hL
  obtain ⟨u, hi, hj⟩ := h
  refine ⟨w ++ u, ?_, ?_⟩
  · rw [List.append_assoc]
    exact beginnings_mul_right hw hi
  · rw [List.append_assoc]
    exact beginnings_mul_right hw hj

theorem conflict_mul_across (hi : Extends L i) (hj : [j] ∈ beginnings M) :
    Conflict (L * M) i j := by
  obtain ⟨u, hu, hi⟩ := hi
  obtain ⟨w, hw, -⟩ := id hj
  exact ⟨u, beginnings_mul_left ⟨w, hw⟩ hi, beginnings_mul_right hu hj⟩

/-- Two letters of one factor of a product. Only where the other factor may be left out is more than
one copy of the factor read in a row. -/
theorem Tame.copiesConflict_factor {N : Language α} (tame : Tame L) (hle : [] ∈ M → L ≤ N)
    (hmul : Conflict L i j → Conflict N i j) (hui : Continues L m u i) (huj : Continues L n u j)
    (hm : m = 0 ∨ [] ∈ M) (hn : n = 0 ∨ [] ∈ M) : CopiesConflict N i j := by
  by_cases hε : [] ∈ M
  · exact (tame.conflict hui huj).mono (hle hε)
  · obtain rfl := hm.resolve_right hε
    obtain rfl := hn.resolve_right hε
    rw [continues_zero] at hui huj
    exact .inl (hmul ⟨u, hui, huj⟩)

section Product

variable (hL : Over A L) (hM : Over (fun a => ¬ A a) M) (hL' : ∃ w, w ∈ L) (hM' : ∃ w, w ∈ M)

include hL hM

theorem copiesConflict_mul_left (hM' : ∃ w, w ∈ M) (tame : Tame L) (hi : A i) (hj : A j)
    (hui : Continues (L * M) m u i) (huj : Continues (L * M) n u j) :
    CopiesConflict (L * M) i j := by
  obtain ⟨v, run, hrun⟩ := exists_lastRun A u
  obtain ⟨k, a, rfl, -, hai, hnil⟩ := hui.of_mul_left hL hM hrun hi
  obtain ⟨l, b, rfl, -, hbj, hnil'⟩ := huj.of_mul_left hL hM hrun hj
  exact tame.copiesConflict_factor le_mul_of_nil_right (.mul_left hM') hai hbj hnil hnil'

theorem copiesConflict_mul_right (hL' : ∃ w, w ∈ L) (tame : Tame M) (hi : ¬ A i) (hj : ¬ A j)
    (hui : Continues (L * M) m u i) (huj : Continues (L * M) n u j) :
    CopiesConflict (L * M) i j := by
  obtain ⟨v, run, hrun⟩ := exists_lastRun (fun a => ¬ A a) u
  obtain ⟨k, a, rfl, -, hai, hnil⟩ := hui.of_mul_right hL hM hrun hi
  obtain ⟨l, b, rfl, -, hbj, hnil'⟩ := huj.of_mul_right hL hM hrun hj
  exact tame.copiesConflict_factor le_mul_of_nil_left (.mul_right hL') hai hbj hnil hnil'

/-- A letter of the first factor against one of the second, where the word so far ends with a run of
letters of the first. -/
theorem copiesConflict_mul_run_left (hL' : ∃ w, w ∈ L) (hM' : ∃ w, w ∈ M) (tame : Tame L)
    {run : List α} (hrun : LastRun A u v run) (hne : run ≠ []) (hi : A i) (hj : ¬ A j)
    (hui : Continues (L * M) m u i) (huj : Continues (L * M) n u j) :
    CopiesConflict (L * M) i j := by
  obtain ⟨k, a, rfl, -, hai, hnil⟩ := hui.of_mul_left hL hM hrun hi
  obtain ⟨hbj, l, b, rfl, -, hb, hnil'⟩ := huj.of_mul_left_of_not hL hM hrun hne hj
  by_cases hε : [] ∈ M
  · rcases tame.goesOn hb hai with hext | ⟨hbegin, -⟩
    · exact .inl (conflict_mul_across hext hbj)
    · exact .inr (.inl ⟨beginnings_mul_left hM' hbegin, extends_mul_across hL' hε hbj⟩)
  · -- the run is a single word of `L`, which may go on
    obtain rfl := hnil.resolve_right hε
    obtain rfl := hnil'.resolve_right hε
    rw [continues_zero] at hai
    exact .inl (conflict_mul_across ⟨run, by simpa using hb, hai⟩ hbj)

/-- The same where the word so far ends with a run of letters of the second. -/
theorem copiesConflict_mul_run_right (hL' : ∃ w, w ∈ L) (hM' : ∃ w, w ∈ M) (tame : Tame M)
    {run : List α} (hrun : LastRun (fun a => ¬ A a) u v run) (hne : run ≠ []) (hi : A i)
    (hj : ¬ A j) (hui : Continues (L * M) m u i) (huj : Continues (L * M) n u j) :
    CopiesConflict (L * M) i j := by
  obtain ⟨hai, hu⟩ := hui.of_mul_right_of_not hL hM hrun hne hi
  obtain ⟨k, a, rfl, -, ha, hnil⟩ := mem_mul_pow_right hL hM hrun hne hu
  obtain ⟨l, b, rfl, -, hbj, hnil'⟩ := huj.of_mul_right hL hM hrun hj
  have hbegin := beginnings_mul_left hM' hai
  have hext : Extends M j → CopiesConflict (L * M) i j := fun h =>
    .inr (.inl ⟨hbegin, h.mul_right hL'⟩)
  by_cases hε : [] ∈ L
  · rcases tame.goesOn ha hbj with h | ⟨hbegin', -⟩
    · exact hext h
    · -- both may come first
      exact .inl ⟨[], hbegin, beginnings_mono (le_mul_of_nil_left hε) hbegin'⟩
  · obtain rfl := hnil.resolve_right hε
    obtain rfl := hnil'.resolve_right hε
    rw [continues_zero] at hbj
    exact hext ⟨run, by simpa using ha, hbj⟩

theorem copiesConflict_mul_across (hL' : ∃ w, w ∈ L) (hM' : ∃ w, w ∈ M) (tameL : Tame L)
    (tameM : Tame M) (hi : A i) (hj : ¬ A j)
    (hui : Continues (L * M) m u i) (huj : Continues (L * M) n u j) :
    CopiesConflict (L * M) i j := by
  obtain ⟨v, run, hrun⟩ := exists_lastRun A u
  by_cases hne : run = []
  · obtain ⟨v', run', hrun'⟩ := exists_lastRun (fun a => ¬ A a) u
    by_cases hne' : run' = []
    · -- no last letter of either kind: nothing was read
      subst hne hne'
      obtain rfl := hrun.eq_nil_of_nil hrun'
      exact .inl ⟨[], hui.of_nil, huj.of_nil⟩
    · exact copiesConflict_mul_run_right hL hM hL' hM' tameM hrun' hne' hi hj hui huj
  · exact copiesConflict_mul_run_left hL hM hL' hM' tameL hrun hne hi hj hui huj

theorem goesOn_mul_left (hM' : ∃ w, w ∈ M) (tame : Tame L) (hi : A i)
    (hu : u ∈ (L * M) ^ m) (hui : Continues (L * M) n u i) :
    Extends (L * M) i ∨ [i] ∈ beginnings (L * M) ∧ (n < m → CountVaries (L * M)) := by
  obtain ⟨v, run, hrun⟩ := exists_lastRun A u
  obtain ⟨k, a, rfl, hv, ha, hnil⟩ := mem_mul_pow_left hL hM hrun hu
  obtain ⟨l, b, rfl, hv', hbi, hnil'⟩ := hui.of_mul_left hL hM hrun hi
  -- numbers of copies that differ before the run
  have hcopies : k ≠ l → CountVaries (L * M) := fun hne => ⟨k, l, v, hne, hv, hv'⟩
  by_cases hε : [] ∈ M
  · have hle : L ≤ L * M := le_mul_of_nil_right hε
    rcases tame.goesOn ha hbi with hext | ⟨hbegin, hvaries⟩
    · exact .inl (hext.mono hle)
    · refine .inr ⟨beginnings_mono hle hbegin, fun hlt => ?_⟩
      by_cases hkl : k = l
      · exact (hvaries (by omega)).mono hle
      · exact hcopies hkl
  · obtain rfl := hnil.resolve_right hε
    obtain rfl := hnil'.resolve_right hε
    obtain rfl : run = [] := by simpa using ha
    exact .inr ⟨beginnings_mul_left hM' hbi.of_nil, fun hlt => hcopies (by omega)⟩

theorem goesOn_mul_right (hL' : ∃ w, w ∈ L) (hM' : ∃ w, w ∈ M) (tame : Tame M) (hi : ¬ A i)
    (hu : u ∈ (L * M) ^ m) (hui : Continues (L * M) n u i) :
    Extends (L * M) i ∨ [i] ∈ beginnings (L * M) ∧ (n < m → CountVaries (L * M)) := by
  obtain ⟨v, run, hrun⟩ := exists_lastRun (fun a => ¬ A a) u
  obtain ⟨l, b, rfl, hv', hbi, hnil'⟩ := hui.of_mul_right hL hM hrun hi
  by_cases hne : run = []
  · subst hne
    obtain ⟨v', run', hrun'⟩ := exists_lastRun A u
    by_cases hne' : run' = []
    · -- nothing was read, in any number of copies
      subst hne'
      obtain rfl := hrun'.eq_nil_of_nil hrun
      exact .inr ⟨hui.of_nil, fun hlt => ⟨m, _, [], by omega, hu, hui.nil_mem_pow⟩⟩
    · obtain ⟨hbegin, -⟩ := hui.of_mul_left_of_not hL hM hrun' hne' hi
      obtain ⟨k, a, -, -, ha, hnil⟩ := mem_mul_pow_left hL hM hrun' hu
      have hε : [] ∈ M := hnil.resolve_left fun e => hne' (by simpa [e] using ha)
      exact .inl (extends_mul_across hL' hε hbegin)
  · obtain ⟨k, a, rfl, hv, ha, hnil⟩ := mem_mul_pow_right hL hM hrun hne hu
    by_cases hε : [] ∈ L
    · have hle : M ≤ L * M := le_mul_of_nil_left hε
      rcases tame.goesOn ha hbi with hext | ⟨hbegin, hvaries⟩
      · exact .inl (hext.mono hle)
      · refine .inr ⟨beginnings_mono hle hbegin, fun hlt => ?_⟩
        by_cases hkl : k = l
        · exact (hvaries (by omega)).mono hle
        · obtain ⟨w, hw⟩ := hM'
          have hcopy : ∀ c, v ∈ (L * M) ^ c * L → v ++ w ∈ (L * M) ^ (c + 1) := by
            intro c hc
            rw [pow_succ, ← mul_assoc]
            exact Language.append_mem_mul hc hw
          exact ⟨k + 1, l + 1, v ++ w, by omega, hcopy k hv, hcopy l hv'⟩
    · -- the run is a single word of `M`, which may go on
      obtain rfl := hnil.resolve_right hε
      obtain rfl := hnil'.resolve_right hε
      rw [continues_zero] at hbi
      exact .inl (Extends.mul_right hL' ⟨run, by simpa using ha, hbi⟩)

theorem Tame.mul (hL' : ∃ w, w ∈ L) (hM' : ∃ w, w ∈ M) (tameL : Tame L) (tameM : Tame M) :
    Tame (L * M) where
  conflict {m n u i j} hui huj := by
    by_cases hi : A i <;> by_cases hj : A j
    · exact copiesConflict_mul_left hL hM hM' tameL hi hj hui huj
    · exact copiesConflict_mul_across hL hM hL' hM' tameL tameM hi hj hui huj
    · exact (copiesConflict_mul_across hL hM hL' hM' tameL tameM hj hi huj hui).symm
    · exact copiesConflict_mul_right hL hM hL' tameM hi hj hui huj
  goesOn {m n u i} hu hui := by
    by_cases hi : A i
    · exact goesOn_mul_left hL hM hM' tameL hi hu hui
    · exact goesOn_mul_right hL hM hL' hM' tameM hi hu hui

/-- Before the last run, copies of the product end where copies of the product do. -/
theorem mem_mul_pow_mul_left {run : List α} (h : LastRun A u v run) (hu : u ∈ (L * M) ^ n * L) :
    ∃ k a, n = k + a ∧ v ∈ (L * M) ^ k ∧ run ∈ L ^ (a + 1) ∧ (a = 0 ∨ [] ∈ M) := by
  obtain ⟨x, hx, l, hl, rfl⟩ := Language.mem_mul.1 hu
  obtain ⟨z, hz, rfl⟩ := h.of_append rfl (hL l hl)
  obtain ⟨k, a, rfl, hv, ha, hnil⟩ := mem_mul_pow_left hL hM hz hx
  exact ⟨k, a, rfl, hv, append_mem_pow_succ ha hl, hnil⟩

/-! ### Where the number of copies of a product may vary -/

section Varies

variable {P : Prop}

/-- Different numbers of words of `L`, and then one more, at the end of a word: they make the
numbers of copies before them equal. -/
theorem varies_mul_pow_mul (hleft : [] ∈ M → CountVaries L → P)
    (ih : ∀ x : List α, x.length ≤ u.length → ∀ m n, m ≠ n → x ∈ (L * M) ^ m →
      x ∈ (L * M) ^ n → P)
    (hne : m ≠ n) (hm : u ∈ (L * M) ^ m * L) (hn : u ∈ (L * M) ^ n * L) : P := by
  obtain ⟨v, run, hrun⟩ := exists_lastRun A u
  obtain ⟨k, a, rfl, hv, ha, hε⟩ := mem_mul_pow_mul_left hL hM hrun hm
  obtain ⟨l, b, rfl, hv', hb, hε'⟩ := mem_mul_pow_mul_left hL hM hrun hn
  by_cases hkl : k = l
  · have hab : a ≠ b := by omega
    exact hleft (of_ne_of_eq_zero_or hab hε hε') ⟨a + 1, b + 1, run, by omega, ha, hb⟩
  · exact ih v (by rw [hrun.eq]; simp) k l hkl hv hv'

/-- Where the number of copies of a product varies, it does so within one of the factors and the
other one may be left out; or the product may be left out. -/
theorem countVaries_of_mul (hnil : [] ∈ L → [] ∈ M → P) (hleft : [] ∈ M → CountVaries L → P)
    (hright : [] ∈ L → CountVaries M → P) (h : CountVaries (L * M)) : P := by
  obtain ⟨m, n, u, hne, hm, hn⟩ := h
  induction hlen : u.length using Nat.strongRecOn generalizing u m n with
  | ind N ih =>
    subst hlen
    have ih' : ∀ x : List α, x.length < u.length → ∀ m n, m ≠ n → x ∈ (L * M) ^ m →
        x ∈ (L * M) ^ n → P := fun x hx m n hne hm hn => ih x.length hx m n x hne hm hn rfl
    obtain ⟨v, run, hrun⟩ := exists_lastRun A u
    obtain ⟨v', run', hrun'⟩ := exists_lastRun (fun a => ¬ A a) u
    by_cases hempty : run = []
    · by_cases hempty' : run' = []
      · subst hempty hempty'
        obtain rfl := hrun.eq_nil_of_nil hrun'
        have hmem : [] ∈ L * M := by
          by_cases hm0 : m = 0
          · exact nil_mem_of_nil_mem_pow (by omega) hn
          · exact nil_mem_of_nil_mem_pow hm0 hm
        exact hnil (nil_mem_of_nil_mem_mul hmem).1 (nil_mem_of_nil_mem_mul hmem).2
      · obtain ⟨k, a, rfl, hv, ha, hε⟩ := mem_mul_pow_right hL hM hrun' hempty' hm
        obtain ⟨l, b, rfl, hv', hb, hε'⟩ := mem_mul_pow_right hL hM hrun' hempty' hn
        by_cases hkl : k = l
        · have hab : a ≠ b := by omega
          exact hright (of_ne_of_eq_zero_or hab hε hε') ⟨a + 1, b + 1, run', by omega, ha, hb⟩
        · have hlt := hrun'.length_lt hempty'
          exact varies_mul_pow_mul hL hM hleft (fun x hx => ih' x (by omega)) hkl hv hv'
    · obtain ⟨k, a, rfl, hv, ha, hε⟩ := mem_mul_pow_left hL hM hrun hm
      obtain ⟨l, b, rfl, hv', hb, hε'⟩ := mem_mul_pow_left hL hM hrun hn
      by_cases hkl : k = l
      · have hab : a ≠ b := by omega
        exact hleft (of_ne_of_eq_zero_or hab hε hε') ⟨a, b, run, hab, ha, hb⟩
      · exact ih' v (hrun.length_lt hempty) k l hkl hv hv'

end Varies

end Product

/-! ## Sums -/

section Sum

variable (hL : Over A L) (hM : Over (fun a => ¬ A a) M)

include hL hM

theorem copiesConflict_add_left (tame : Tame L) (hi : A i) (hj : A j)
    (hui : Continues (L + M) m u i) (huj : Continues (L + M) n u j) :
    CopiesConflict (L + M) i j := by
  obtain ⟨v, run, hrun⟩ := exists_lastRun A u
  obtain ⟨k, a, rfl, -, hai⟩ := hui.of_add hL hM hrun hi
  obtain ⟨l, b, rfl, -, hbj⟩ := huj.of_add hL hM hrun hj
  exact (tame.conflict hai hbj).mono le_self_add

/-- A letter of the first summand against one of the second, where the word so far ends with a run
of letters of the first. -/
theorem copiesConflict_add_run (tame : Tame L) {run : List α} (hrun : LastRun A u v run)
    (hne : run ≠ []) (hi : A i) (hj : ¬ A j) (hui : Continues (L + M) m u i)
    (huj : Continues (L + M) n u j) : CopiesConflict (L + M) i j := by
  obtain ⟨k, a, rfl, -, hai⟩ := hui.of_add hL hM hrun hi
  obtain ⟨hbj, hu⟩ := huj.of_add_of_not hL hM hrun hne hj
  obtain ⟨l, b, rfl, -, hb⟩ := mem_add_pow hL hM hrun hu
  have hbegin : [j] ∈ beginnings (L + M) := beginnings_mono le_add_self hbj
  rcases tame.goesOn hb hai with hext | ⟨hbegin', -⟩
  · exact .inr (.inr ⟨hbegin, hext.mono le_self_add⟩)
  · exact .inl ⟨[], beginnings_mono le_self_add hbegin', hbegin⟩

theorem goesOn_add_left (tame : Tame L) (hi : A i) (hu : u ∈ (L + M) ^ m)
    (hui : Continues (L + M) n u i) :
    Extends (L + M) i ∨ [i] ∈ beginnings (L + M) ∧ (n < m → CountVaries (L + M)) := by
  obtain ⟨v, run, hrun⟩ := exists_lastRun A u
  obtain ⟨k, a, rfl, hv, ha⟩ := mem_add_pow hL hM hrun hu
  obtain ⟨l, b, rfl, hv', hbi⟩ := hui.of_add hL hM hrun hi
  rcases tame.goesOn ha hbi with hext | ⟨hbegin, hvaries⟩
  · exact .inl (hext.mono le_self_add)
  · refine .inr ⟨beginnings_mono le_self_add hbegin, fun hlt => ?_⟩
    by_cases hkl : k = l
    · exact (hvaries (by omega)).mono le_self_add
    · exact ⟨k, l, v, hkl, hv, hv'⟩

theorem copiesConflict_add_across (tameL : Tame L) (tameM : Tame M) (hi : A i) (hj : ¬ A j)
    (hui : Continues (L + M) m u i) (huj : Continues (L + M) n u j) :
    CopiesConflict (L + M) i j := by
  obtain ⟨v, run, hrun⟩ := exists_lastRun A u
  obtain ⟨v', run', hrun'⟩ := exists_lastRun (fun a => ¬ A a) u
  by_cases hne : run = []
  · by_cases hne' : run' = []
    · subst hne hne'
      obtain rfl := hrun.eq_nil_of_nil hrun'
      exact .inl ⟨[], hui.of_nil, huj.of_nil⟩
    · rw [add_comm] at hui huj ⊢
      exact (copiesConflict_add_run hM hL.not_not tameM hrun' hne' hj (not_not_intro hi)
        huj hui).symm
  · exact copiesConflict_add_run hL hM tameL hrun hne hi hj hui huj

theorem Tame.add (tameL : Tame L) (tameM : Tame M) : Tame (L + M) where
  conflict {m n u i j} hui huj := by
    by_cases hi : A i <;> by_cases hj : A j
    · exact copiesConflict_add_left hL hM tameL hi hj hui huj
    · exact copiesConflict_add_across hL hM tameL tameM hi hj hui huj
    · exact (copiesConflict_add_across hL hM tameL tameM hj hi huj hui).symm
    · rw [add_comm] at hui huj ⊢
      exact copiesConflict_add_left hM hL.not_not tameM hi hj hui huj
  goesOn {m n u i} hu hui := by
    by_cases hi : A i
    · exact goesOn_add_left hL hM tameL hi hu hui
    · rw [add_comm] at hu hui ⊢
      exact goesOn_add_left hM hL.not_not tameM hi hu hui

/-- Where the number of copies of a sum varies, it does so within one of the summands, unless one of
them may be left out. -/
theorem countVaries_of_add {P : Prop} (hnil : [] ∈ L + M → P) (hleft : CountVaries L → P)
    (hright : CountVaries M → P) (h : CountVaries (L + M)) : P := by
  obtain ⟨m, n, u, hne, hm, hn⟩ := h
  induction hlen : u.length using Nat.strongRecOn generalizing u m n with
  | ind N ih =>
    subst hlen
    obtain ⟨v, run, hrun⟩ := exists_lastRun A u
    obtain ⟨v', run', hrun'⟩ := exists_lastRun (fun a => ¬ A a) u
    by_cases hempty : run = []
    · by_cases hempty' : run' = []
      · subst hempty hempty'
        obtain rfl := hrun.eq_nil_of_nil hrun'
        by_cases hm0 : m = 0
        · exact hnil (nil_mem_of_nil_mem_pow (by omega) hn)
        · exact hnil (nil_mem_of_nil_mem_pow hm0 hm)
      · have hM' : Over (fun a => ¬ ¬ A a) L := hL.not_not
        obtain ⟨k, a, rfl, hv, ha⟩ := mem_add_pow hM hM' hrun' (add_comm L M ▸ hm)
        obtain ⟨l, b, rfl, hv', hb⟩ := mem_add_pow hM hM' hrun' (add_comm L M ▸ hn)
        rw [add_comm] at hv hv'
        by_cases hkl : k = l
        · exact hright ⟨a, b, run', by omega, ha, hb⟩
        · exact ih v'.length (hrun'.length_lt hempty') k l v' hkl hv hv' rfl
    · obtain ⟨k, a, rfl, hv, ha⟩ := mem_add_pow hL hM hrun hm
      obtain ⟨l, b, rfl, hv', hb⟩ := mem_add_pow hL hM hrun hn
      by_cases hkl : k = l
      · exact hleft ⟨a, b, run, by omega, ha, hb⟩
      · exact ih v.length (hrun.length_lt hempty) k l v hkl hv hv' rfl

end Sum

/-! ## Powers -/

theorem exists_mem_pow (hL : ∃ w, w ∈ L) (n : Nat) : ∃ w, w ∈ L ^ n := by
  obtain ⟨w, hw⟩ := hL
  induction n with
  | zero => exact ⟨[], rfl⟩
  | succ n ih =>
    obtain ⟨v, hv⟩ := ih
    exact ⟨v ++ w, append_mem_pow_succ hv hw⟩

/-- A beginning of some copies goes on within one of them. -/
theorem exists_continues {y : List α} (h : y ++ [i] ∈ beginnings (L ^ n)) :
    ∃ k < n, Continues L k y i := by
  induction n with
  | zero =>
    obtain ⟨z, hz⟩ := mem_beginnings.1 h
    simp at hz
  | succ n ih =>
    obtain ⟨z, hz⟩ := mem_beginnings.1 h
    obtain ⟨w, hw, v, hv, e⟩ := exists_of_mem_pow_succ hz
    rcases List.append_eq_append_iff.1 e with ⟨t, rfl, -⟩ | ⟨t, ht, rfl⟩
    · obtain ⟨k, hk, hc⟩ := ih (mem_beginnings.2 ⟨t, hw⟩)
      exact ⟨k, by omega, hc⟩
    · rcases List.eq_nil_or_concat t with rfl | ⟨t, b, rfl⟩
      · rw [List.append_nil] at ht
        subst ht
        obtain ⟨k, hk, hc⟩ := ih (mem_beginnings_of_mem hw)
        exact ⟨k, by omega, hc⟩
      · obtain ⟨rfl, rfl⟩ : y = w ++ t ∧ i = b := by
          simpa [← List.append_assoc, List.append_inj'] using ht
        exact ⟨n, by omega, w, hw, t, rfl, mem_beginnings.2 ⟨z, by simpa using hv⟩⟩

theorem Continues.append {x y : List α} (hx : x ∈ L ^ m) (hy : Continues L n y i) :
    Continues L (m + n) (x ++ y) i := by
  obtain ⟨z, hz, w, rfl, hw⟩ := hy
  refine ⟨x ++ z, ?_, w, by rw [List.append_assoc], hw⟩
  rw [pow_add]
  exact Language.append_mem_mul hx hz

/-- The first of some copies may begin with anything. -/
theorem beginnings_pow (hL : ∃ w, w ∈ L) (hn : n ≠ 0) : beginnings L ≤ beginnings (L ^ n) := by
  intro u hu
  obtain ⟨n, rfl⟩ := Nat.exists_eq_succ_of_ne_zero hn
  rw [pow_succ']
  exact beginnings_mul_left (exists_mem_pow hL n) hu

/-- The last of some copies may go on with whatever a single word may go on with. -/
theorem Extends.pow (hL : ∃ w, w ∈ L) (hn : n ≠ 0) (h : Extends L i) : Extends (L ^ n) i := by
  obtain ⟨n, rfl⟩ := Nat.exists_eq_succ_of_ne_zero hn
  rw [pow_succ]
  exact h.mul_right (exists_mem_pow hL n)

/-- The same word in two numbers of copies of some copies. -/
theorem CountVaries.pow (n : Nat) (h : CountVaries L) : CountVaries (L ^ n) := by
  obtain ⟨k, l, u, hne, hk, hl⟩ := h
  have hcopies : ∀ c w, w ∈ L ^ c → (List.replicate n w).flatten ∈ (L ^ n) ^ c := by
    intro c w hw
    rw [← pow_mul, mul_comm, pow_mul]
    exact Language.mem_pow.2 ⟨List.replicate n w, rfl, by simp, by simpa using fun _ => hw⟩
  exact ⟨k, l, _, hne, hcopies k u hk, hcopies l u hl⟩

theorem countVaries_of_pow (hn : n ≠ 0) (h : CountVaries (L ^ n)) : CountVaries L := by
  obtain ⟨k, l, u, hne, hk, hl⟩ := h
  rw [← pow_mul] at hk hl
  have hpos := Nat.pos_of_ne_zero hn
  exact ⟨n * k, n * l, u, fun e => hne (Nat.eq_of_mul_eq_mul_left hpos e), hk, hl⟩

namespace Multiplicity

/-- Just one number of occurrences is asked for. -/
def IsExact (m : Multiplicity) : Prop := m.max = some m.min

instance (m : Multiplicity) : Decidable m.IsExact := inferInstanceAs (Decidable (m.max = some m.min))

section

variable {m : Multiplicity} {k : Nat}

theorem pow_le_powers (h : m.Admits k) (L : Language α) : L ^ k ≤ m.powers L :=
  fun _ hu => ⟨k, h, hu⟩

theorem powers_of_isExact (h : m.IsExact) (L : Language α) : m.powers L = L ^ m.min.toNat := by
  obtain ⟨min, max⟩ := m
  obtain rfl : max = some min := h
  exact powers_exact min L

theorem min_ne_zero_of_isExact (h : m.IsExact) (hn : m.isNever = false) : m.min.toNat ≠ 0 :=
  Nat.pos_iff_ne_zero.1 (pos_of_max hn h)

/-- Unless just one number is asked for, one more than the least is admitted. -/
theorem admits_min_succ (ho : m.isOrdered = true) (h : ¬ m.IsExact) :
    m.Admits (m.min.toNat + 1) := by
  refine ⟨Nat.le_succ _, fun max hmax => ?_⟩
  have hle := (admits_min ho).2 max hmax
  have hne : m.min.toNat ≠ max.toNat := fun e => h (by rw [IsExact, hmax, UInt32.toNat_inj.1 e])
  omega

theorem exists_admits_pos (ho : m.isOrdered = true) (hn : m.isNever = false) :
    ∃ k, k ≠ 0 ∧ m.Admits k :=
  ⟨_, by omega, admits_max_min_one ho hn⟩

end

variable {m : Multiplicity} (ho : m.isOrdered = true) (hn : m.isNever = false)

include ho in
theorem exists_mem_powers (hL : ∃ w, w ∈ L) : ∃ w, w ∈ m.powers L := by
  obtain ⟨w, hw⟩ := exists_mem_pow hL m.min.toNat
  exact ⟨w, pow_le_powers (admits_min ho) L hw⟩

include ho hn in
theorem beginnings_powers (hL : ∃ w, w ∈ L) : beginnings L ≤ beginnings (m.powers L) := by
  obtain ⟨k, hk, hadmits⟩ := exists_admits_pos ho hn
  exact fun u hu => beginnings_mono (pow_le_powers hadmits L) (beginnings_pow hL hk hu)

include ho hn in
theorem extends_powers (hL : ∃ w, w ∈ L) (h : Extends L i) : Extends (m.powers L) i := by
  obtain ⟨k, hk, hadmits⟩ := exists_admits_pos ho hn
  exact (h.pow hL hk).mono (pow_le_powers hadmits L)

include ho hn in
theorem conflict_powers (hL : ∃ w, w ∈ L) (h : Conflict L i j) : Conflict (m.powers L) i j := by
  obtain ⟨u, hi, hj⟩ := h
  exact ⟨u, beginnings_powers ho hn hL hi, beginnings_powers ho hn hL hj⟩

include ho hn in
theorem copiesConflict_powers (hL : ∃ w, w ∈ L) (h : CopiesConflict L i j) :
    CopiesConflict (m.powers L) i j := by
  rcases h with h | ⟨hi, hj⟩ | ⟨hj, hi⟩
  · exact .inl (conflict_powers ho hn hL h)
  · exact .inr (.inl ⟨beginnings_powers ho hn hL hi, extends_powers ho hn hL hj⟩)
  · exact .inr (.inr ⟨beginnings_powers ho hn hL hj, extends_powers ho hn hL hi⟩)

include ho in
/-- If one more copy may follow, then whatever comes first may come next. -/
theorem extends_powers_of_not_isExact (hL : ∃ w, w ∈ L) (hm : ¬ m.IsExact)
    (h : [i] ∈ beginnings L) : Extends (m.powers L) i := by
  obtain ⟨w, hw⟩ := exists_mem_pow hL m.min.toNat
  refine ⟨w, pow_le_powers (admits_min ho) L hw,
    beginnings_mono (pow_le_powers (admits_min_succ ho hm) L) ?_⟩
  rw [pow_succ]
  exact beginnings_mul_right hw h

/-- Copies of powers are copies of what is repeated. -/
theorem exists_mem_pow_of_powers (h : u ∈ (m.powers L) ^ n) : ∃ k, u ∈ L ^ k := by
  induction n generalizing u with
  | zero => exact ⟨0, by simpa using h⟩
  | succ n ih =>
    obtain ⟨w, hw, v, ⟨l, -, hv⟩, rfl⟩ := exists_of_mem_pow_succ h
    obtain ⟨k, hk⟩ := ih hw
    refine ⟨k + l, ?_⟩
    rw [pow_add]
    exact Language.append_mem_mul hk hv

theorem exists_continues_of_powers (h : Continues (m.powers L) n u i) :
    ∃ k, Continues L k u i := by
  obtain ⟨x, hx, y, rfl, hy⟩ := h
  obtain ⟨k, hk⟩ := exists_mem_pow_of_powers hx
  obtain ⟨w, ⟨c, -, hw⟩, hp⟩ := hy
  obtain ⟨l, -, hl⟩ := exists_continues ⟨w, hw, hp⟩
  exact ⟨k + l, hl.append hk⟩

end Multiplicity

theorem Continues.of_pow {c : Nat} (h : Continues (L ^ c) n u i) :
    ∃ k < c, Continues L (c * n + k) u i := by
  obtain ⟨x, hx, y, rfl, hy⟩ := h
  obtain ⟨k, hk, hy'⟩ := exists_continues hy
  exact ⟨k, hk, hy'.append (by rwa [pow_mul])⟩

/-- A fixed number of copies, of which fewer copies never make up all unless their number varies. -/
theorem goesOn_pow {c : Nat} (hc : c ≠ 0) (hL : ∃ w, w ∈ L) (tame : Tame L) (hu : u ∈ (L ^ c) ^ m)
    (hui : Continues (L ^ c) n u i) :
    Extends (L ^ c) i ∨ [i] ∈ beginnings (L ^ c) ∧ (n < m → CountVaries (L ^ c)) := by
  obtain ⟨k, hk, hui'⟩ := hui.of_pow
  rw [← pow_mul] at hu
  rcases tame.goesOn hu hui' with hext | ⟨hbegin, hvaries⟩
  · exact .inl (hext.pow hL hc)
  · refine .inr ⟨beginnings_pow hL hc hbegin, fun hlt => (hvaries ?_).pow c⟩
    calc c * n + k < c * n + c := by omega
      _ = c * (n + 1) := by rw [Nat.mul_add, Nat.mul_one]
      _ ≤ c * m := Nat.mul_le_mul_left c hlt

theorem Tame.powers {r : Multiplicity} (ho : r.isOrdered = true) (hn : r.isNever = false)
    (hL : ∃ w, w ∈ L) (tame : Tame L) : Tame (r.powers L) where
  conflict {m n u i j} hui huj := by
    obtain ⟨k, hk⟩ := Multiplicity.exists_continues_of_powers hui
    obtain ⟨l, hl⟩ := Multiplicity.exists_continues_of_powers huj
    exact Multiplicity.copiesConflict_powers ho hn hL (tame.conflict hk hl)
  goesOn {m n u i} hu hui := by
    by_cases hr : r.IsExact
    · rw [Multiplicity.powers_of_isExact hr] at hu hui ⊢
      exact goesOn_pow (Multiplicity.min_ne_zero_of_isExact hr hn) hL tame hu hui
    · obtain ⟨k, hk⟩ := Multiplicity.exists_mem_pow_of_powers hu
      obtain ⟨l, hl⟩ := Multiplicity.exists_continues_of_powers hui
      refine .inl ?_
      rcases tame.goesOn hk hl with hext | ⟨hbegin, -⟩
      · exact Multiplicity.extends_powers ho hn hL hext
      · exact Multiplicity.extends_powers_of_not_isExact ho hL hr hbegin

/-- Where the number of copies of an exact power varies, so does that of what is repeated. -/
theorem countVaries_of_powers {r : Multiplicity} (hr : r.IsExact) (hn : r.isNever = false)
    (h : CountVaries (r.powers L)) : CountVaries L := by
  rw [Multiplicity.powers_of_isExact hr] at h
  exact countVaries_of_pow (Multiplicity.min_ne_zero_of_isExact hr hn) h

/-! ## Single words -/

theorem tame_one : Tame (1 : Language α) where
  conflict hui _ := by
    obtain ⟨x, -, y, -, hy⟩ := hui
    obtain ⟨z, hz⟩ := mem_beginnings.1 hy
    simp at hz
  goesOn _ hui := by
    obtain ⟨x, -, y, -, hy⟩ := hui
    obtain ⟨z, hz⟩ := mem_beginnings.1 hy
    simp at hz

theorem length_of_mem_single_pow {a : α} (h : u ∈ ({[a]} : Language α) ^ n) : u.length = n := by
  induction n generalizing u with
  | zero =>
    obtain rfl : u = [] := by simpa using h
    rfl
  | succ n ih =>
    obtain ⟨w, hw, v, rfl, rfl⟩ := exists_of_mem_pow_succ h
    simp [ih hw]

theorem append_mem_beginnings_single {a : α} {y : List α}
    (h : y ++ [i] ∈ beginnings ({[a]} : Language α)) : y = [] ∧ i = a := by
  obtain ⟨z, hz⟩ := mem_beginnings.1 h
  have hz' : y ++ [i] ++ z = [a] := hz
  cases y with
  | nil => exact ⟨rfl, by simpa using (List.cons.inj hz').1⟩
  | cons b y => simp at hz'

theorem not_countVaries_single (a : α) : ¬ CountVaries ({[a]} : Language α) := by
  intro h
  obtain ⟨m, n, u, hne, hm, hn⟩ := h
  exact hne ((length_of_mem_single_pow hm).symm.trans (length_of_mem_single_pow hn))

theorem tame_single (a : α) : Tame ({[a]} : Language α) where
  conflict {m n u i j} hui huj := by
    obtain ⟨x, -, y, rfl, hy⟩ := hui
    obtain ⟨x', -, y', -, hy'⟩ := huj
    obtain ⟨rfl, rfl⟩ := append_mem_beginnings_single hy
    obtain ⟨rfl, rfl⟩ := append_mem_beginnings_single hy'
    exact .inl ⟨[], hy, hy'⟩
  goesOn {m n u i} hu hui := by
    obtain ⟨x, hx, y, rfl, hy⟩ := hui
    obtain ⟨rfl, rfl⟩ := append_mem_beginnings_single hy
    rw [List.append_nil] at hu
    have hlen := (length_of_mem_single_pow hu).symm.trans (length_of_mem_single_pow hx)
    exact .inr ⟨hy, fun hlt => by omega⟩

end ContentAutomata
