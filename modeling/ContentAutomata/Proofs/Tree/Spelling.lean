import ContentAutomata.Proofs.Tree.Assembly
import ContentAutomata.Proofs.Tree.Reading
import Mathlib.Data.Nat.Log

/-!
# What a multiplicity is spelled out as

The tree of a repetition has the words that the multiplicity says. Its leaves are those of the given
tree over and over, and since copies are joined by halves, its height grows with the logarithm of
their number.

Results:
* `leaves_repeated`: the leaves of a repeated tree are copies of those of the tree;
* `height_copies`, `height_repeated_le`: copies are joined by halves;
* `expandedGroup_means`: the words, the leaves and the height of a group that is drawn up.
-/
namespace ContentAutomata

open ContentAutomata.Tree

/-! ## Leaves and height -/

/-- How many copies a multiplicity is spelled out with. -/
def Multiplicity.copyCount (m : Multiplicity) : Nat :=
  match m.max with
  | some max => max.toNat
  | none => m.min.toNat ⊔ 1

namespace Tree

theorem flatten_replicate_add {α : Type} (a b : Nat) (l : List α) :
    (List.replicate a l).flatten ++ (List.replicate b l).flatten =
      (List.replicate (a + b) l).flatten := by
  rw [← List.flatten_append, ← List.replicate_add]

theorem leaves_copies (t : Tree) {count : Nat} (h : 0 < count) :
    (t.copies count).leaves = (List.replicate count t.leaves).flatten := by
  induction count using Nat.strongRecOn with
  | ind count ih =>
    unfold copies
    split
    · have e : count = 1 := by omega
      simp [e]
    · rw [leaves, ih (count / 2) (by omega) (by omega),
        ih (count - count / 2) (by omega) (by omega), flatten_replicate_add]
      congr 2
      omega

theorem leaves_repeated (t : Tree) {m : Multiplicity} (ho : m.isOrdered = true)
    (hn : m.isNever = false) :
    (t.repeated m).leaves = (List.replicate m.copyCount t.leaves).flatten := by
  have hone : t.leaves = (List.replicate 1 t.leaves).flatten := by simp
  unfold repeated
  split
  · rename_i h
    rw [h]
    exact hone
  split
  · rename_i h
    rw [h]
    exact hone
  cases hmax : m.max with
  | none =>
    simp only [Multiplicity.copyCount, hmax]
    split
    · rename_i h0
      rw [h0]
      exact hone
    split
    · rename_i h1
      rw [h1]
      exact hone
    · rename_i h0 h1
      have hmin : m.min.toNat ≠ 0 := fun e => h0 (UInt32.toNat_inj.1 e)
      have hmin' : m.min.toNat ≠ 1 := fun e => h1 (UInt32.toNat_inj.1 e)
      have hjoin := flatten_replicate_add (m.min.toNat - 1) 1 t.leaves
      rw [← hone] at hjoin
      rw [leaves, leaves_copies t (by omega), leaves, hjoin]
      congr 2
      omega
  | some max =>
    have hpos := Multiplicity.pos_of_max hn hmax
    have hle := UInt32.le_iff_toNat_le.1 (Multiplicity.isOrdered_iff.1 ho max hmax)
    simp only [Multiplicity.copyCount, hmax]
    split
    · exact leaves_copies _ hpos
    split
    · exact leaves_copies _ hpos
    · rename_i h0 hne
      have hmin : m.min.toNat ≠ 0 := fun e => h0 (UInt32.toNat_inj.1 e)
      have hlt : m.min.toNat ≠ max.toNat := fun e => hne (UInt32.toNat_inj.1 e)
      rw [leaves, leaves_copies t (by omega), leaves_copies _ (by omega), leaves,
        flatten_replicate_add]
      congr 2
      omega

mutual
/-- The number of nodes on a longest path down. -/
def height : Tree → Nat
  | epsilon => 1
  | leaf _ => 1
  | counted _ _ => 1
  | closure _ t => t.height + 1
  | joined _ l r => (l.height ⊔ r.height) + 1
  | all ts _ => heights ts + 1
/-- The greatest height in a list of trees. -/
def heights : List Tree → Nat
  | [] => 0
  | t :: ts => t.height ⊔ heights ts
end

theorem clog_halves {count : Nat} (h : 1 < count) :
    Nat.clog 2 count = Nat.clog 2 (count - count / 2) + 1 := by
  rw [Nat.clog_of_two_le (by decide) h]
  congr 2
  omega

/-- Joined by halves, copies stand as high above the tree as their number has binary digits. -/
theorem height_copies (t : Tree) (count : Nat) :
    (t.copies count).height = t.height + Nat.clog 2 count := by
  induction count using Nat.strongRecOn with
  | ind count ih =>
    unfold copies
    split
    · rename_i h
      rw [Nat.clog_of_right_le_one h, Nat.add_zero]
    · have hle : Nat.clog 2 (count / 2) ≤ Nat.clog 2 (count - count / 2) :=
        Nat.clog_mono_right 2 (by omega)
      have hclog : Nat.clog 2 count = _ := clog_halves (by omega)
      rw [height, ih (count / 2) (by omega), ih (count - count / 2) (by omega)]
      omega

theorem height_repeated_le (t : Tree) {m : Multiplicity} (ho : m.isOrdered = true) :
    (t.repeated m).height ≤ t.height + 2 + Nat.clog 2 m.copyCount := by
  unfold repeated
  split
  · omega
  split
  · rw [height]
    omega
  cases hmax : m.max with
  | none =>
    simp only [Multiplicity.copyCount, hmax]
    split
    · rw [height]
      omega
    split
    · rw [height]
      omega
    · have hclog : Nat.clog 2 (m.min.toNat - 1) ≤ Nat.clog 2 (m.min.toNat ⊔ 1) :=
        Nat.clog_mono_right 2 (by omega)
      rw [height, height_copies, height]
      omega
  | some max =>
    have hle := UInt32.le_iff_toNat_le.1 (Multiplicity.isOrdered_iff.1 ho max hmax)
    simp only [Multiplicity.copyCount, hmax]
    split
    · rw [height_copies, height]
      omega
    split
    · rw [height_copies]
      omega
    · have hclog : Nat.clog 2 m.min.toNat ≤ Nat.clog 2 max.toNat := Nat.clog_mono_right 2 hle
      have hclog' : Nat.clog 2 (max.toNat - m.min.toNat) ≤ Nat.clog 2 max.toNat :=
        Nat.clog_mono_right 2 (by omega)
      rw [height, height_copies, height_copies, height]
      omega

end Tree

/-! ## Groups that are drawn up -/

section Drawn

variable {s : Draft.State} {m : Multiplicity}

/-- Where the number of nodes is not bounded, a group that is drawn up is repeated as its
multiplicity says: node by node, no count falls below zero, and every node made is one of the tree;
the words are made of as many words of the group as the multiplicity admits; the leaves are those of
the group over and over; and the height grows with the logarithm of the number of copies. -/
theorem Draft.expandedGroup_means (t : Tree) (ho : m.isOrdered = true) (hn : m.isNever = false)
    (hs : s.ledger.bound = none) :
    ∃ t' s', (Assembly.spell t m).run s = .ok (some t', s') ∧
      expandedGroup .validation t m s = .ok (t', s') ∧
      s'.ledger.spent + t.size = s.ledger.spent + t'.size ∧
      (∀ w, w ∈ t'.attributions ↔ ∃ k, m.min.toNat ≤ k ∧
        (∀ max, m.max = some max → k ≤ max.toNat) ∧ w ∈ t.attributions ^ k) ∧
      t'.leaves.map letterOf = (List.replicate m.copyCount (t.leaves.map letterOf)).flatten ∧
      t'.height ≤ t.height + 2 + Nat.clog 2 m.copyCount := by
  let s' : State :=
    { s with ledger := { s.ledger with
        spent := s.ledger.spent + (repeatedSize t.size m - t.size) } }
  have hgroup : expandedGroup .validation t m s = .ok (t.repeated m, s') := by
    unfold expandedGroup
    simp only [bind_eq_ok, pure_eq_ok, pay_of_unbounded hs]
    exact ⟨_, _, rfl, rfl⟩
  have hwithin : s.IsWithinBound := fun bound h => by simp [hs] at h
  have hspell : (Assembly.spell t m).run s = (some <$> expandedGroup .validation t m) s :=
    (Assembly.performs_spell .validation t ho).run_eq hwithin
  refine ⟨t.repeated m, s', ?_, hgroup, ?_, fun w => ?_, ?_, height_repeated_le t ho⟩
  · rw [hspell, map_eq_ok.2 ⟨_, _, hgroup, rfl⟩]
  · have hle := le_repeatedSize t.size m
    rw [size_repeated]
    change s.ledger.spent + (repeatedSize t.size m - t.size) + t.size = _
    omega
  · unfold attributions
    rw [language_repeated t ho hn, Multiplicity.mem_powers]
    simp only [Multiplicity.Admits, and_assoc]
  · rw [leaves_repeated t ho hn, List.map_flatten, List.map_replicate]

end Drawn

/-- Two or three times `a` or `b`, after five nodes were paid for. -/
theorem Draft.expandedGroup_means_between :
    let a : Leaf := ⟨.element (.bare "a"), 0, 0⟩
    let b : Leaf := ⟨.element (.bare "b"), 1, 0⟩
    let t : Tree := joined .choice (leaf a) (leaf b)
    ∃ t' s', expandedGroup .validation t ⟨2, some 3⟩ ⟨⟨none, 5⟩, 2, []⟩ = .ok (t', s') ∧
      s'.ledger.spent + 3 = 5 + t'.size ∧ [1, 0] ∈ t'.attributions ∧ [1] ∉ t'.attributions ∧
      t'.leaves.map (fun p => (letterOf p).2.1) = [0, 1, 0, 1, 0, 1] ∧ t'.height ≤ 6 := by
  intro a b t
  have hs : (⟨⟨none, 5⟩, 2, []⟩ : State).ledger.bound = none := rfl
  obtain ⟨t', s', -, hgroup, hspent, hwords, hleaves, hheight⟩ :=
    expandedGroup_means t (m := ⟨2, some 3⟩) (by decide) (by decide) hs
  have hlang : t.attributions = {[0]} + {[1]} := by simp [attributions, t, language, a, b]
  have hmem : ∀ w, w ∈ t.attributions ↔ w = [0] ∨ w = [1] := by
    intro w
    rw [hlang]
    rfl
  refine ⟨t', s', hgroup, hspent, (hwords _).2 ⟨2, by decide, by simp, ?_⟩, fun h => ?_, ?_, ?_⟩
  · rw [pow_two]
    exact Language.append_mem_mul ((hmem _).2 (.inr rfl)) ((hmem _).2 (.inl rfl))
  · -- the words of the group have one letter each
    obtain ⟨k, hk, -, hpow⟩ := (hwords _).1 h
    obtain ⟨ws, hw, rfl, hws⟩ := Language.mem_pow.1 hpow
    have hone : ∀ w ∈ ws, w.length = 1 := by
      intro w h
      rcases (hmem w).1 (hws w h) with rfl | rfl <;> rfl
    have hlen := congrArg List.length hw
    rw [List.length_flatten, List.map_congr_left hone, List.map_const', List.sum_replicate_nat,
      List.length_singleton] at hlen
    change 2 ≤ ws.length at hk
    omega
  · have h := congrArg (List.map (·.2.1)) hleaves
    rw [List.map_map] at h
    exact h
  · exact hheight

end ContentAutomata
