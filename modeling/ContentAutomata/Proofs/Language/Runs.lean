import ContentAutomata.Proofs.Language.Repetition

/-!
# Copies in a product and in a sum

A word of `(L * M) ^ n` falls into `n` copies, often in more ways than one. If `L` and `M` have no
letter in common, then much of a word is the same in all of them: only inside a run of letters of
`L`, or of letters of `M`, can copies be cut off here or there. So two ways to divide a word are
compared by looking at its last run (`LastRun`): what stands before the run is divided into copies
of the product, and the run into words of one factor. For a sum the same holds.

`Continues L n u i` says that `u` consists of `n` words of `L` and the beginning of another one,
which may go on with `i`.

Results:
* `exists_lastRun`, `LastRun.of_append`: every word has a last run, which takes in all that could
  belong to it;
* `mem_mul_pow_left`, `mem_mul_pow_right`, `mem_add_pow`: the copies before and in the last run;
* `Continues.of_mul_left`, `Continues.of_mul_right`, `Continues.of_add`: the same for a word that
  goes on with a letter of the run's kind;
* `Continues.of_mul_left_of_not`, `Continues.of_mul_right_of_not`, `Continues.of_add_of_not`: and
  with a letter of the other kind.
-/
namespace ContentAutomata

variable {α : Type} {A : α → Prop} {L M : Language α} {u v w x y run : List α} {i : α} {n : Nat}

/-! ## The last run of a word -/

/-- The word consists of `v` and a run of letters from `A`, which cannot be made longer. -/
structure LastRun (A : α → Prop) (u v run : List α) : Prop where
  eq : u = v ++ run
  within : ∀ a ∈ run, A a
  maximal : ∀ a ∈ v.getLast?, ¬ A a

theorem exists_lastRun (A : α → Prop) (u : List α) : ∃ v run, LastRun A u v run := by
  induction u using List.reverseRecOn with
  | nil => exact ⟨[], [], rfl, by simp, by simp⟩
  | append_singleton u a ih =>
    by_cases ha : A a
    · obtain ⟨v, run, rfl, hwithin, hmax⟩ := ih
      refine ⟨v, run ++ [a], by simp, fun b hb => ?_, hmax⟩
      rcases List.mem_append.1 hb with hb | hb
      · exact hwithin b hb
      · rwa [List.mem_singleton.1 hb]
    · exact ⟨u ++ [a], [], by simp, by simp, by simpa using ha⟩

namespace LastRun

/-- The last run takes in every end of the word that is made of letters from `A`. -/
theorem of_append (h : LastRun A u v run) (e : u = x ++ y) (hy : ∀ a ∈ y, A a) :
    ∃ z, LastRun A x v z ∧ run = z ++ y := by
  obtain ⟨rfl, hwithin, hmax⟩ := h
  rcases List.append_eq_append_iff.1 e with ⟨z, rfl, rfl⟩ | ⟨z, rfl, rfl⟩
  · exact ⟨z, ⟨rfl, fun a ha => hwithin a (List.mem_append_left _ ha), hmax⟩, rfl⟩
  · cases hz : z.getLast? with
    | none =>
      rw [List.getLast?_eq_none_iff] at hz
      subst hz
      exact ⟨[], ⟨by simp, by simp, by simpa using hmax⟩, by simp⟩
    | some a =>
      have hlast : a ∈ (x ++ z).getLast? := by simp [List.getLast?_append, hz]
      exact absurd (hy a (List.mem_append_left _ (List.mem_of_getLast? hz))) (hmax a hlast)

/-- After a run of letters from `A`, the word does not end with a letter that is not from `A`. -/
theorem eq_nil_of_append (h : LastRun A u v run) (hrun : run ≠ []) (e : u = x ++ y)
    (hy : ∀ a ∈ y, ¬ A a) : y = [] := by
  cases hl : y.getLast? with
  | none => exact List.getLast?_eq_none_iff.1 hl
  | some a =>
    have hlast : u.getLast? = some a := by rw [e, List.getLast?_append, hl]; rfl
    have hlast' : u.getLast? = run.getLast? := by
      rw [h.eq, List.getLast?_append_of_ne_nil _ hrun]
    rw [hlast'] at hlast
    exact absurd (h.within a (List.mem_of_getLast? hlast)) (hy a (List.mem_of_getLast? hl))

/-- A word with an empty last run is what stands before it. -/
theorem eq_of_nil (h : LastRun A u v []) : v = u := by rw [h.eq, List.append_nil]

theorem eq_nil_of_nil {v' : List α} (h : LastRun A u v [])
    (h' : LastRun (fun a => ¬ A a) u v' []) : u = [] := by
  obtain rfl := h.eq_of_nil
  obtain rfl := h'.eq_of_nil
  cases hl : v'.getLast? with
  | none => exact List.getLast?_eq_none_iff.1 hl
  | some a => exact absurd (h.maximal a hl) (h'.maximal a hl)

theorem length_lt (h : LastRun A u v run) (hrun : run ≠ []) : v.length < u.length := by
  have hpos := List.length_pos_iff.2 hrun
  rw [h.eq, List.length_append]
  omega

end LastRun

/-- All letters of words of the language are from `A`. -/
def Over (A : α → Prop) (L : Language α) : Prop := ∀ w ∈ L, ∀ a ∈ w, A a

theorem Over.not_not (h : Over A L) : Over (fun a => ¬ ¬ A a) L :=
  fun w hw a ha hna => hna (h w hw a ha)

theorem Over.of_append_mem_beginnings (h : Over A L) (hy : y ++ [i] ∈ beginnings L) :
    (∀ a ∈ y, A a) ∧ A i := by
  obtain ⟨z, hz⟩ := mem_beginnings.1 hy
  exact ⟨fun a ha => h _ hz a (by simp [ha]), h _ hz i (by simp)⟩

/-! ## Beginnings of products and sums -/

/-- A beginning of a product that ends with a letter of the first factor. -/
theorem mem_beginnings_of_mul_left (hM : Over (fun a => ¬ A a) M)
    (h : y ++ [i] ∈ beginnings (L * M)) (hi : A i) : y ++ [i] ∈ beginnings L := by
  obtain ⟨z, hz⟩ := mem_beginnings.1 h
  obtain ⟨l, hl, m, hm, e⟩ := Language.mem_mul.1 hz
  rcases List.append_eq_append_iff.1 e with ⟨t, ht, rfl⟩ | ⟨t, rfl, -⟩
  · rcases List.eq_nil_or_concat t with rfl | ⟨t, b, rfl⟩
    · exact mem_beginnings.2 ⟨[], by simpa [ht] using hl⟩
    · obtain ⟨rfl, rfl⟩ : y = l ++ t ∧ i = b := by
        simpa [← List.append_assoc, List.append_inj'] using ht
      exact absurd hi (hM _ hm i (by simp))
  · exact mem_beginnings.2 ⟨t, hl⟩

/-- A beginning of a product that ends with a letter of the second factor. -/
theorem mem_beginnings_of_mul_right (hL : Over A L) (h : y ++ [i] ∈ beginnings (L * M))
    (hi : ¬ A i) : ∃ l ∈ L, ∃ m, y = l ++ m ∧ m ++ [i] ∈ beginnings M := by
  obtain ⟨z, hz⟩ := mem_beginnings.1 h
  obtain ⟨l, hl, m, hm, e⟩ := Language.mem_mul.1 hz
  rcases List.append_eq_append_iff.1 e with ⟨t, ht, rfl⟩ | ⟨t, rfl, -⟩
  · rcases List.eq_nil_or_concat t with rfl | ⟨t, b, rfl⟩
    · exact absurd (hL l hl i (by rw [← List.append_nil l, ← ht]; simp)) hi
    · obtain ⟨rfl, rfl⟩ : y = l ++ t ∧ i = b := by
        simpa [← List.append_assoc, List.append_inj'] using ht
      exact ⟨l, hl, t, rfl, mem_beginnings.2 ⟨z, by simpa using hm⟩⟩
  · exact absurd (hL _ hl i (by simp)) hi

theorem beginnings_add : beginnings (L + M) = beginnings L + beginnings M := by
  ext w
  simp only [mem_beginnings, Language.mem_add, exists_or]

theorem mem_beginnings_of_add (hM : Over (fun a => ¬ A a) M)
    (h : y ++ [i] ∈ beginnings (L + M)) (hi : A i) : y ++ [i] ∈ beginnings L := by
  rw [beginnings_add, Language.mem_add] at h
  exact h.resolve_right fun h => (hM.of_append_mem_beginnings h).2 hi

/-! ## Copies and the last run -/

theorem append_mem_pow_succ (hu : u ∈ L ^ n) (hv : v ∈ L) : u ++ v ∈ L ^ (n + 1) := by
  rw [pow_succ]
  exact Language.append_mem_mul hu hv

theorem exists_of_mem_pow_succ (h : u ∈ L ^ (n + 1)) : ∃ w ∈ L ^ n, ∃ v ∈ L, u = w ++ v := by
  rw [pow_succ, Language.mem_mul] at h
  obtain ⟨w, hw, v, hv, rfl⟩ := h
  exact ⟨w, hw, v, hv, rfl⟩

theorem exists_of_mem_mul_pow_succ (h : u ∈ (L * M) ^ (n + 1)) :
    ∃ w ∈ (L * M) ^ n, ∃ l ∈ L, ∃ m ∈ M, u = w ++ (l ++ m) := by
  obtain ⟨w, hw, v, hv, rfl⟩ := exists_of_mem_pow_succ h
  obtain ⟨l, hl, m, hm, rfl⟩ := Language.mem_mul.1 hv
  exact ⟨w, hw, l, hl, m, hm, rfl⟩

/-- Copies of a product and a last run of letters of the first factor: some copies end before the
run, each of the others is a word of the first factor. -/
theorem mem_mul_pow_left (hL : Over A L) (hM : Over (fun a => ¬ A a) M)
    (h : LastRun A u v run) (hu : u ∈ (L * M) ^ n) :
    ∃ k a, n = k + a ∧ v ∈ (L * M) ^ k ∧ run ∈ L ^ a ∧ (a = 0 ∨ [] ∈ M) := by
  induction n generalizing u run with
  | zero =>
    obtain rfl : u = [] := by simpa using hu
    obtain ⟨rfl, rfl⟩ := List.append_eq_nil_iff.1 h.eq.symm
    exact ⟨0, 0, rfl, by simp, by simp, .inl rfl⟩
  | succ n ih =>
    by_cases hrun : run = []
    · subst hrun
      exact ⟨n + 1, 0, rfl, h.eq_of_nil ▸ hu, by simp, .inl rfl⟩
    · obtain ⟨w, hw, l, hl, m, hm, e⟩ := exists_of_mem_mul_pow_succ hu
      obtain rfl := h.eq_nil_of_append hrun (by rw [e, List.append_assoc]) (hM m hm)
      obtain ⟨z, hz, rfl⟩ := h.of_append (by rw [e, List.append_nil]) (hL l hl)
      obtain ⟨k, a, rfl, hv, ha, -⟩ := ih hz hw
      exact ⟨k, a + 1, rfl, hv, append_mem_pow_succ ha hl, .inr hm⟩

/-- Copies of a product and a last run of letters of the second factor: one copy began before the
run, and each of those after it is a word of the second factor. -/
theorem mem_mul_pow_right (hL : Over A L) (hM : Over (fun a => ¬ A a) M)
    (h : LastRun (fun a => ¬ A a) u v run) (hrun : run ≠ []) (hu : u ∈ (L * M) ^ n) :
    ∃ k a, n = k + a + 1 ∧ v ∈ (L * M) ^ k * L ∧ run ∈ M ^ (a + 1) ∧ (a = 0 ∨ [] ∈ L) := by
  induction n generalizing u run with
  | zero =>
    obtain rfl : u = [] := by simpa using hu
    exact absurd (List.append_eq_nil_iff.1 h.eq.symm).2 hrun
  | succ n ih =>
    obtain ⟨w, hw, l, hl, m, hm, e⟩ := exists_of_mem_mul_pow_succ hu
    obtain ⟨z, hz, rfl⟩ := h.of_append (by rw [e, List.append_assoc]) (hM m hm)
    by_cases hz0 : z = []
    · subst hz0
      have hv : v ∈ (L * M) ^ n * L := hz.eq_of_nil ▸ Language.append_mem_mul hw hl
      exact ⟨n, 0, rfl, hv, by simpa using hm, .inl rfl⟩
    · obtain rfl := hz.eq_nil_of_append hz0 rfl (hL.not_not l hl)
      rw [List.append_nil] at hz
      obtain ⟨k, a, rfl, hv, ha, -⟩ := ih hz hz0 hw
      exact ⟨k, a + 1, rfl, hv, append_mem_pow_succ ha hm, .inr hl⟩

/-- Copies of a sum and a last run of letters of the first summand. -/
theorem mem_add_pow (hL : Over A L) (hM : Over (fun a => ¬ A a) M) (h : LastRun A u v run)
    (hu : u ∈ (L + M) ^ n) : ∃ k a, n = k + a ∧ v ∈ (L + M) ^ k ∧ run ∈ L ^ a := by
  induction n generalizing u run with
  | zero =>
    obtain rfl : u = [] := by simpa using hu
    obtain ⟨rfl, rfl⟩ := List.append_eq_nil_iff.1 h.eq.symm
    exact ⟨0, 0, rfl, by simp, by simp⟩
  | succ n ih =>
    obtain ⟨w, hw, l, hlm, e⟩ := exists_of_mem_pow_succ hu
    rcases (Language.mem_add _ _ _).1 hlm with hl | hm
    · obtain ⟨z, hz, rfl⟩ := h.of_append e (hL l hl)
      obtain ⟨k, a, rfl, hv, ha⟩ := ih hz hw
      exact ⟨k, a + 1, rfl, hv, append_mem_pow_succ ha hl⟩
    · by_cases hrun : run = []
      · subst hrun
        exact ⟨n + 1, 0, rfl, h.eq_of_nil ▸ hu, by simp⟩
      · obtain rfl := h.eq_nil_of_append hrun e (hM l hm)
        rw [List.append_nil] at e
        subst e
        obtain ⟨k, a, rfl, hv, ha⟩ := ih h hw
        have hv' : v ++ [] ∈ (L + M) ^ (k + 1) := append_mem_pow_succ hv (.inr hm)
        exact ⟨k + 1, a, by omega, by simpa using hv', ha⟩

/-! ## Copies that go on -/

/-- `u` consists of `n` words of the language and the beginning of another one, which may go on with
the letter. -/
def Continues (L : Language α) (n : Nat) (u : List α) (i : α) : Prop :=
  ∃ x ∈ L ^ n, ∃ y, u = x ++ y ∧ y ++ [i] ∈ beginnings L

theorem continues_zero : Continues L 0 u i ↔ u ++ [i] ∈ beginnings L := by
  constructor
  · intro h
    obtain ⟨x, hx, y, rfl, hy⟩ := h
    obtain rfl : x = [] := by simpa using hx
    exact hy
  · exact fun h => ⟨[], by simp, u, rfl, h⟩

theorem Continues.of_nil (h : Continues L n [] i) : [i] ∈ beginnings L := by
  obtain ⟨x, -, y, e, hy⟩ := h
  obtain ⟨-, rfl⟩ := List.append_eq_nil_iff.1 e.symm
  exact hy

theorem Continues.nil_mem_pow (h : Continues L n [] i) : [] ∈ L ^ n := by
  obtain ⟨x, hx, y, e, -⟩ := h
  obtain ⟨rfl, -⟩ := List.append_eq_nil_iff.1 e.symm
  exact hx

theorem Continues.of_mul_left (hL : Over A L) (hM : Over (fun a => ¬ A a) M)
    (h : LastRun A u v run) (hi : A i) (hu : Continues (L * M) n u i) :
    ∃ k a, n = k + a ∧ v ∈ (L * M) ^ k ∧ Continues L a run i ∧ (a = 0 ∨ [] ∈ M) := by
  obtain ⟨x, hx, y, rfl, hy⟩ := hu
  have hy' := mem_beginnings_of_mul_left hM hy hi
  obtain ⟨z, hz, rfl⟩ := h.of_append rfl (hL.of_append_mem_beginnings hy').1
  obtain ⟨k, a, rfl, hv, ha, hnil⟩ := mem_mul_pow_left hL hM hz hx
  exact ⟨k, a, rfl, hv, ⟨z, ha, y, rfl, hy'⟩, hnil⟩

theorem Continues.of_mul_left_of_not (hL : Over A L) (hM : Over (fun a => ¬ A a) M)
    (h : LastRun A u v run) (hrun : run ≠ []) (hi : ¬ A i) (hu : Continues (L * M) n u i) :
    [i] ∈ beginnings M ∧
      ∃ k a, n = k + a ∧ v ∈ (L * M) ^ k ∧ run ∈ L ^ (a + 1) ∧ (a = 0 ∨ [] ∈ M) := by
  obtain ⟨x, hx, _, rfl, hy⟩ := hu
  obtain ⟨l, hl, m, rfl, hm⟩ := mem_beginnings_of_mul_right hL hy hi
  obtain rfl := h.eq_nil_of_append hrun (List.append_assoc _ _ _).symm
    (hM.of_append_mem_beginnings hm).1
  obtain ⟨z, hz, rfl⟩ := h.of_append (by rw [List.append_nil]) (hL l hl)
  obtain ⟨k, a, rfl, hv, ha, hnil⟩ := mem_mul_pow_left hL hM hz hx
  exact ⟨hm, k, a, rfl, hv, append_mem_pow_succ ha hl, hnil⟩

theorem Continues.of_mul_right (hL : Over A L) (hM : Over (fun a => ¬ A a) M)
    (h : LastRun (fun a => ¬ A a) u v run) (hi : ¬ A i) (hu : Continues (L * M) n u i) :
    ∃ k a, n = k + a ∧ v ∈ (L * M) ^ k * L ∧ Continues M a run i ∧ (a = 0 ∨ [] ∈ L) := by
  obtain ⟨x, hx, _, rfl, hy⟩ := hu
  obtain ⟨l, hl, m, rfl, hm⟩ := mem_beginnings_of_mul_right hL hy hi
  obtain ⟨z, hz, rfl⟩ := h.of_append (List.append_assoc _ _ _).symm
    (hM.of_append_mem_beginnings hm).1
  by_cases hz0 : z = []
  · subst hz0
    have hv : v ∈ (L * M) ^ n * L := hz.eq_of_nil ▸ Language.append_mem_mul hx hl
    exact ⟨n, 0, rfl, hv, continues_zero.2 hm, .inl rfl⟩
  · obtain rfl := hz.eq_nil_of_append hz0 rfl (hL.not_not l hl)
    rw [List.append_nil] at hz
    obtain ⟨k, a, rfl, hv, ha, -⟩ := mem_mul_pow_right hL hM hz hz0 hx
    exact ⟨k, a + 1, rfl, hv, ⟨z, ha, m, rfl, hm⟩, .inr hl⟩

theorem Continues.of_mul_right_of_not (hL : Over A L) (hM : Over (fun a => ¬ A a) M)
    (h : LastRun (fun a => ¬ A a) u v run) (hrun : run ≠ []) (hi : A i)
    (hu : Continues (L * M) n u i) : [i] ∈ beginnings L ∧ u ∈ (L * M) ^ n := by
  obtain ⟨x, hx, y, rfl, hy⟩ := hu
  have hy' := mem_beginnings_of_mul_left hM hy hi
  obtain ⟨hwithin, -⟩ := hL.not_not.of_append_mem_beginnings hy'
  obtain rfl := h.eq_nil_of_append hrun rfl hwithin
  exact ⟨hy', by rwa [List.append_nil]⟩

theorem Continues.of_add (hL : Over A L) (hM : Over (fun a => ¬ A a) M)
    (h : LastRun A u v run) (hi : A i) (hu : Continues (L + M) n u i) :
    ∃ k a, n = k + a ∧ v ∈ (L + M) ^ k ∧ Continues L a run i := by
  obtain ⟨x, hx, y, rfl, hy⟩ := hu
  have hy' := mem_beginnings_of_add hM hy hi
  obtain ⟨z, hz, rfl⟩ := h.of_append rfl (hL.of_append_mem_beginnings hy').1
  obtain ⟨k, a, rfl, hv, ha⟩ := mem_add_pow hL hM hz hx
  exact ⟨k, a, rfl, hv, z, ha, y, rfl, hy'⟩

theorem Continues.of_add_of_not (hL : Over A L) (hM : Over (fun a => ¬ A a) M)
    (h : LastRun A u v run) (hrun : run ≠ []) (hi : ¬ A i) (hu : Continues (L + M) n u i) :
    [i] ∈ beginnings M ∧ u ∈ (L + M) ^ n := by
  obtain ⟨x, hx, y, rfl, hy⟩ := hu
  rw [add_comm] at hy
  have hy' := mem_beginnings_of_add hL.not_not hy hi
  obtain rfl := h.eq_nil_of_append hrun rfl (hM.of_append_mem_beginnings hy').1
  exact ⟨hy', by rwa [List.append_nil]⟩

end ContentAutomata
