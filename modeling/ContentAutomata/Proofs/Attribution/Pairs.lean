import ContentAutomata.Attribution
import ContentAutomata.Proofs.Automaton.Steps
import ContentAutomata.Proofs.Term.Overlap

/-!
# The pairs of entries that are listed as ambiguities

The ambiguities of an automaton are found by going through all pairs of entries, an earlier one
first, so no pair is listed twice. A pair is judged in the first state in which both entries lead
on.

Results:
* `mem_filterPairs_zipIdx`, `nodup_filterPairs_zipIdx`: the pairs of a numbered list;
* `isAmbiguous_iff`: a pair is judged in the first common state;
* `mem_ambiguities_iff`, `nodup_ambiguities`: what is listed, and that nothing is listed twice.
-/
namespace ContentAutomata

section Pairs

variable {α β : Type} {f : α × Nat → α × Nat → Option β} {l : List α} {n : Nat}

theorem mem_filterPairs_zipIdx {x : β} :
    x ∈ filterPairs f (l.zipIdx n) ↔
      ∃ j k a b, j < k ∧ l[j]? = some a ∧ l[k]? = some b ∧ f (a, n + j) (b, n + k) = some x := by
  induction l generalizing n with
  | nil => simp [filterPairs]
  | cons c cs ih =>
    rw [List.zipIdx_cons, filterPairs, List.mem_append, List.mem_filterMap, ih]
    constructor
    · intro h
      rcases h with ⟨⟨b, i⟩, hmem, hf⟩ | ⟨j, k, a, b, hjk, hj, hk, hf⟩
      · rw [List.mk_mem_zipIdx_iff_le_and_getElem?_sub] at hmem
        refine ⟨0, i - n, c, b, by omega, rfl, ?_, ?_⟩
        · rw [List.getElem?_cons, if_neg (by omega), show i - n - 1 = i - (n + 1) by omega]
          exact hmem.2
        · rw [show n + (i - n) = i by omega]
          exact hf
      · exact ⟨j + 1, k + 1, a, b, by omega, by simpa using hj, by simpa using hk,
          by rwa [show n + (j + 1) = n + 1 + j by omega, show n + (k + 1) = n + 1 + k by omega]⟩
    · intro h
      obtain ⟨j, k, a, b, hjk, hj, hk, hf⟩ := h
      rw [List.getElem?_cons, if_neg (by omega)] at hk
      have hk' : n + k = n + 1 + (k - 1) := by omega
      rw [hk'] at hf
      cases j with
      | zero =>
        obtain rfl : c = a := by simpa using hj
        refine .inl ⟨(b, n + 1 + (k - 1)), ?_, hf⟩
        rw [List.mk_mem_zipIdx_iff_le_and_getElem?_sub]
        exact ⟨by omega, by rwa [Nat.add_sub_cancel_left]⟩
      | succ j =>
        refine .inr ⟨j, k - 1, a, b, by omega, by simpa using hj, hk, ?_⟩
        rwa [show n + 1 + j = n + (j + 1) by omega]

/-- Where the numbers of a pair can be read off what is made of it, no two pairs have the same. -/
theorem nodup_filterPairs_zipIdx {key : β → Nat × Nat}
    (h : ∀ p ∈ l.zipIdx n, ∀ q ∈ l.zipIdx n, ∀ x, f p q = some x → key x = (p.2, q.2)) :
    ((filterPairs f (l.zipIdx n)).map key).Nodup := by
  induction l generalizing n with
  | nil => simp [filterPairs]
  | cons c cs ih =>
    rw [List.zipIdx_cons] at h ⊢
    unfold filterPairs
    rw [List.map_append, List.nodup_append]
    have hhead : ∀ q ∈ cs.zipIdx (n + 1), ∀ x, f (c, n) q = some x → key x = (n, q.2) :=
      fun q hq => h _ List.mem_cons_self _ (List.mem_cons_of_mem _ hq)
    have htail : ∀ p ∈ cs.zipIdx (n + 1), ∀ q ∈ cs.zipIdx (n + 1), ∀ x, f p q = some x →
        key x = (p.2, q.2) :=
      fun p hp q hq => h _ (List.mem_cons_of_mem _ hp) _ (List.mem_cons_of_mem _ hq)
    refine ⟨?_, ih htail, ?_⟩
    · -- pairs with the same first number differ in the second
      have hsorted : (cs.zipIdx (n + 1)).Pairwise fun p q => p.2 < q.2 := by
        rw [← List.pairwise_map, List.zipIdx_map_snd]
        exact List.pairwise_lt_range'
      rw [List.Nodup, List.pairwise_map, List.pairwise_filterMap]
      refine hsorted.imp_of_mem fun {p q} hp hq hlt x hx y hy he => ?_
      rw [hhead p hp x hx, hhead q hq y hy, Prod.mk.injEq] at he
      exact Nat.ne_of_lt hlt he.2
    · -- later pairs have a greater first number
      intro p hp q hq he
      obtain ⟨x, hx, rfl⟩ := List.mem_map.1 hp
      obtain ⟨y, hy, rfl⟩ := List.mem_map.1 hq
      obtain ⟨r, hr, hfr⟩ := List.mem_filterMap.1 hx
      obtain ⟨j, k, a, b, -, hj, hk, hf⟩ := mem_filterPairs_zipIdx.1 hy
      have hmem : ∀ {i b}, cs[i]? = some b → (b, n + 1 + i) ∈ cs.zipIdx (n + 1) := fun hi =>
        List.mk_mem_zipIdx_iff_le_and_getElem?_sub.2 ⟨by omega, by rwa [Nat.add_sub_cancel_left]⟩
      rw [hhead r hr x hfr, htail _ (hmem hj) _ (hmem hk) y hf, Prod.mk.injEq] at he
      simp only at he
      omega

end Pairs

namespace Automaton

variable {a : Automaton} {j k : Nat}

/-- The state is the first in which both entries lead on. -/
structure IsFirstCommon (a : Automaton) (j k i : Nat) : Prop where
  lt : i < a.stateCount
  left : a.Leads i j
  right : a.Leads i k
  first : ∀ i' < i, ¬ (a.Leads i' j ∧ a.Leads i' k)

theorem IsFirstCommon.symm {i : Nat} (h : a.IsFirstCommon j k i) : a.IsFirstCommon k j i :=
  ⟨h.lt, h.right, h.left, fun i' hlt hboth => h.first i' hlt hboth.symm⟩

/-- Where there is a common state, there is a first one. -/
theorem exists_isFirstCommon {i : Nat} (hi : i < a.stateCount) (hj : a.Leads i j)
    (hk : a.Leads i k) : ∃ i₀, a.IsFirstCommon j k i₀ := by
  induction i using Nat.strongRecOn with
  | ind i ih =>
    by_cases hfirst : ∃ i' < i, a.Leads i' j ∧ a.Leads i' k
    · obtain ⟨i', hlt, hj', hk'⟩ := hfirst
      exact ih i' hlt (Nat.lt_trans hlt hi) hj' hk'
    · exact ⟨i, hi, hj, hk, fun i' hlt hboth => hfirst ⟨i', hlt, hboth⟩⟩

theorem firstCommon_eq (hj : j < a.entries.size) :
    a.firstCommon a.homes j k =
      (List.range a.stateCount).find? fun i => (a.target i j).isSome && (a.target i k).isSome := by
  simp [firstCommon, homes, hj, List.find?_filter]

/-- A pair of entries is judged in the first common state. -/
theorem isAmbiguous_iff (hj : j < a.entries.size) :
    a.isAmbiguous a.homes j k = true ↔
      ∃ i, a.IsFirstCommon j k i ∧ a.isToldApart i j k = false := by
  unfold isAmbiguous
  rw [firstCommon_eq hj]
  have hfind : ∀ i, (List.range a.stateCount).find? (fun i => (a.target i j).isSome &&
      (a.target i k).isSome) = some i ↔ a.IsFirstCommon j k i := by
    intro i
    rw [List.find?_range_eq_some]
    constructor
    · intro hx
      obtain ⟨hi, hlt, hmin⟩ := hx
      rw [Bool.and_eq_true] at hi
      refine ⟨List.mem_range.1 hlt, hi.1, hi.2, fun i' hi' hboth => ?_⟩
      have hno := hmin i' hi'
      rw [Bool.not_eq_true', ← Bool.not_eq_true, Bool.and_eq_true] at hno
      exact hno hboth
    · intro hx
      obtain ⟨hlt, hj, hk, hmin⟩ := hx
      refine ⟨by rw [hj, hk]; rfl, List.mem_range.2 hlt, fun i' hi' => ?_⟩
      rw [Bool.not_eq_true', ← Bool.not_eq_true, Bool.and_eq_true]
      exact hmin i' hi'
  constructor
  · intro h
    split at h
    · rename_i i hi
      exact ⟨i, (hfind i).1 hi, by simpa using h⟩
    · cases h
  · intro hx
    obtain ⟨i, hi, ht⟩ := hx
    rw [(hfind i).2 hi]
    simp [ht]

/-- What is listed as an ambiguity. -/
theorem mem_ambiguities_iff {x : Ambiguity} :
    x ∈ a.ambiguities ↔ ∃ j k e f, j < k ∧ a.entries[j]? = some e ∧ a.entries[k]? = some f ∧
      (∃ name, e.term.accepts name = true ∧ f.term.accepts name = true) ∧
      (∃ i, a.IsFirstCommon j k i ∧ a.isToldApart i j k = false) ∧
      x = ⟨e.claimant, f.claimant⟩ := by
  unfold ambiguities
  rw [mem_filterPairs_zipIdx]
  simp only [Array.getElem?_toList, Nat.zero_add]
  refine exists_congr fun j => exists_congr fun k => exists_congr fun e => exists_congr fun f =>
    and_congr_right fun hjk => and_congr_right fun hj => and_congr_right fun hk => ?_
  rw [← Term.overlaps_iff, ← isAmbiguous_iff (Array.getElem?_eq_some_iff.1 hj).1]
  split
  · rename_i h
    rw [Bool.and_eq_true] at h
    simp [h, eq_comm]
  · rename_i h
    rw [Bool.and_eq_true] at h
    simp only [reduceCtorEq, false_iff]
    exact fun h' => h ⟨h'.1, h'.2.1⟩

/-- Nothing is listed twice. -/
theorem nodup_ambiguities
    (h : ∀ (e : Nat) (entry : Entry), a.entries[e]? = some entry → entry.particle = e) :
    (a.ambiguities.map fun x => (x.first.particle, x.second.particle)).Nodup := by
  refine nodup_filterPairs_zipIdx fun ⟨e, j⟩ hp ⟨f, k⟩ hq x hx => ?_
  rw [List.mk_mem_zipIdx_iff_getElem?, Array.getElem?_toList] at hp hq
  simp only [Option.ite_none_right_eq_some, Option.some.injEq] at hx
  obtain ⟨-, rfl⟩ := hx
  simp only [Entry.claimant, h _ _ hp, h _ _ hq]

end Automaton

end ContentAutomata
