import ContentAutomata.Proofs.Tree.Reading

/-!
# What comes first in a compact tree

In a compact tree only single leaves are repeated, so reading never goes back: a leaf is followed by
itself or by leaves further to the right. The automaton of the tree cannot tell two leaves apart if
the same may come after both. It does not confuse a leaf that is counted from a lower bound on with
a leaf in front of it (`next_ne`), and it cannot find out that such a leaf and another one may both
come next without having found that out before (`exists_gate`).

Results:
* `le_of_next`: what comes next stands further to the right;
* `next_ne`: the leaves before a counted one are not mistaken for it;
* `exists_gate`: the way to a leaf leads through points at which its rival may come next as well;
* `exists_reads_count`: every count within the range of a leaf is reached.
-/
namespace ContentAutomata.Tree

variable {range : Leaf → Option Multiplicity} {t : Tree}

/-- The positions ascend from left to right. -/
def Ascends (t : Tree) : Prop := (t.leaves.map (·.1.position)).Pairwise (· < ·)

namespace Ascends

variable {op : Connective} {a b : Tree}

theorem left (h : (joined op a b).Ascends) : a.Ascends :=
  (List.pairwise_append.1 (by simpa [Ascends, leaves] using h)).1

theorem right (h : (joined op a b).Ascends) : b.Ascends :=
  (List.pairwise_append.1 (by simpa [Ascends, leaves] using h)).2.1

theorem lt (h : (joined op a b).Ascends) {p q : Leaf} (hp : a.Has p) (hq : b.Has q) :
    p.position < q.position := by
  obtain ⟨x, hx, rfl⟩ := List.mem_map.1 hp
  obtain ⟨y, hy, rfl⟩ := List.mem_map.1 hq
  exact (List.pairwise_append.1 (by simpa [Ascends, leaves] using h)).2.2 _
    (List.mem_map.2 ⟨x, hx, rfl⟩) _ (List.mem_map.2 ⟨y, hy, rfl⟩)

theorem disjoint (h : (joined op a b).Ascends) : ∀ l, a.Has l → ¬ b.Has l :=
  fun _ ha hb => Nat.lt_irrefl _ (h.lt ha hb)

end Ascends

/-- What comes next in a compact tree stands further to the right, or is the same leaf again. -/
theorem IsCompact.le_of_next (h : t.IsCompact) (ha : t.Ascends) {p q : Leaf}
    (hn : t.Next (some p) (some q)) : p.position ≤ q.position := by
  induction h with
  | leaf l => simp [Next] at hn
  | counted l ordered occurs loops =>
    simp only [Next, reduceCtorEq, false_and, and_false, false_or, or_false,
      Option.some.injEq] at hn
    rw [hn.2.1, hn.2.2]
  | closure op l =>
    simp only [Next, reduceCtorEq, false_and, and_false, false_or, true_and, and_true, or_false,
      Option.some.injEq] at hn
    rw [hn.2.1, hn.2.2]
  | @joined op a b _ _ iha ihb =>
    cases op with
    | choice => exact hn.elim (iha ha.left) (ihb ha.right)
    | sequence =>
      rcases hn with ⟨-, hn⟩ | ⟨-, hn⟩ | ⟨hp, hq⟩
      · exact iha ha.left hn
      · exact ihb ha.right hn
      · exact Nat.le_of_lt (ha.lt (has_of_next_left hp) (has_of_next_right hq))
  | orEmpty _ _ ih => exact hn.elim (ih ha.left) fun hn => by simp [Next] at hn

/-- A leaf that is counted may come again. -/
theorem IsCompact.next_self (h : t.IsCompact) {l : Leaf} {m : Multiplicity}
    (hl : (l, some m) ∈ t.leaves) : t.Next (some l) (some l) := by
  induction h with
  | leaf => simp [leaves] at hl
  | counted k ordered occurs loops =>
    obtain ⟨rfl, rfl⟩ : l = k ∧ m = _ := by simpa [leaves] using hl
    exact .inr (.inr (.inl ⟨loops, rfl, rfl⟩))
  | closure => simp [leaves] at hl
  | @joined op a b _ _ iha ihb =>
    rcases List.mem_append.1 hl with hl' | hl' <;> cases op
    · exact .inl (iha hl')
    · exact .inl ⟨by simp, iha hl'⟩
    · exact .inr (ihb hl')
    · exact .inr (.inl ⟨by simp, ihb hl'⟩)
  | orEmpty _ _ ih =>
    rcases List.mem_append.1 hl with hl | hl
    · exact .inl (ih hl)
    · simp [leaves] at hl

theorem IsCompact.max_ne_one (h : t.IsCompact) {l : Leaf} {m : Multiplicity}
    (hl : (l, some m) ∈ t.leaves) : m.max ≠ some 1 := by
  induction h with
  | leaf => simp [leaves] at hl
  | counted k ordered occurs loops =>
    obtain ⟨-, rfl⟩ : l = k ∧ m = _ := by simpa [leaves] using hl
    exact loops
  | closure => simp [leaves] at hl
  | joined _ _ _ iha ihb => exact (List.mem_append.1 hl).elim iha ihb
  | orEmpty _ _ ih => exact (List.mem_append.1 hl).elim ih fun hl => by simp [leaves] at hl

/-- A compact tree has something to begin with. -/
theorem IsCompact.exists_first (h : t.IsCompact) : ∃ l, t.Next none (some l) := by
  induction h with
  | leaf l => exact ⟨l, .inl ⟨rfl, rfl⟩⟩
  | counted l ordered occurs loops => exact ⟨l, .inl ⟨rfl, rfl⟩⟩
  | closure op l => exact ⟨l, .inl (.inl ⟨rfl, rfl⟩)⟩
  | joined op _ _ iha ihb =>
    obtain ⟨l, hl⟩ := iha
    cases op with
    | choice => exact ⟨l, .inl hl⟩
    | sequence => exact ⟨l, .inl ⟨by simp, hl⟩⟩
  | orEmpty _ _ ih =>
    obtain ⟨l, hl⟩ := ih
    exact ⟨l, .inl hl⟩

theorem has_of_mem {l : Leaf} {m : Option Multiplicity} (h : (l, m) ∈ t.leaves) : t.Has l :=
  List.mem_map.2 ⟨_, h, rfl⟩

/-! ## Told apart by what comes next -/

/-- What comes before a leaf of a branch is no beginning of the whole choice, so if the choice does
not tell the two apart, the branch does not either. -/
theorem next_branch_congr {a b : Tree} (disjoint : ∀ l, a.Has l → ¬ b.Has l)
    (hb : ∃ l, b.Next none (some l)) {p : Leaf} (hp : a.Has p) {x : Option Leaf}
    (hn : a.Next x (some p))
    (h : ∀ y, a.Next x y ∨ b.Next x y ↔ a.Next (some p) y ∨ b.Next (some p) y)
    (y : Option Leaf) : a.Next x y ↔ a.Next (some p) y := by
  simp only [not_next_of_has_left disjoint hp, or_false] at h
  cases x with
  | none =>
    obtain ⟨l, hl⟩ := hb
    exact absurd (has_of_next_right hl) (disjoint l (has_of_next_right ((h (some l)).1 (.inr hl))))
  | some q =>
    simpa only [not_next_of_has_left disjoint (has_of_next_left hn), or_false] using h y

/-- If a sequence does not tell apart two points of its left part, that part does not either. -/
theorem next_left_congr {a b : Tree} (disjoint : ∀ l, a.Has l → ¬ b.Has l)
    (hb : ∃ l, b.Next none (some l)) {x y : Option Leaf} (hx : ∀ p, x = some p → a.Has p)
    (hy : ∀ p, y = some p → a.Has p)
    (h : ∀ z, (joined .sequence a b).Next x z ↔ (joined .sequence a b).Next y z)
    (z : Option Leaf) : a.Next x z ↔ a.Next y z := by
  cases z with
  | none =>
    obtain ⟨l, hl⟩ := hb
    have hright : ∀ q, some l = some q → b.Has q := by
      intro q hs
      cases hs
      exact has_of_next_right hl
    have hz := h (some l)
    rwa [next_sequence_across disjoint hx hright, next_sequence_across disjoint hy hright,
      and_iff_left hl, and_iff_left hl] at hz
  | some q =>
    by_cases hq : a.Has q
    · rw [← next_sequence_left disjoint hq, ← next_sequence_left disjoint hq, h]
    · exact iff_of_false (fun hn => hq (has_of_next_right hn)) fun hn => hq (has_of_next_right hn)

/-- If a sequence does not tell apart the end of its left part and a point of its right part, then
the latter is no different from the beginning of the right part. -/
theorem next_right_congr {a b : Tree} (disjoint : ∀ l, a.Has l → ¬ b.Has l) {x : Option Leaf}
    (hx : ∀ p, x = some p → a.Has p) (hend : a.Next x none) {p : Leaf} (hp : b.Has p)
    (h : ∀ y, (joined .sequence a b).Next x y ↔ (joined .sequence a b).Next (some p) y)
    (y : Option Leaf) : b.Next none y ↔ b.Next (some p) y := by
  by_cases hy : ∀ q, y = some q → b.Has q
  · rw [← next_sequence_right disjoint hp, ← h, next_sequence_across disjoint hx hy,
      and_iff_right hend]
  · have hb : ∀ z, ¬ b.Next z y := by
      refine fun z hn => hy ?_
      intro q hz
      subst hz
      exact has_of_next_right hn
    exact iff_of_false (hb none) (hb (some p))

/-- A leaf that is counted from a lower bound on is not mistaken for what it comes after. -/
theorem IsCompact.next_ne (h : t.IsCompact) (ha : t.Ascends) {p : Leaf} {m : Multiplicity}
    (hp : (p, some m) ∈ t.leaves) (hm : m.min ≠ 0) {x : Option Leaf} (hx : x ≠ some p)
    (hn : t.Next x (some p)) : ¬ ∀ y, t.Next x y ↔ t.Next (some p) y := by
  intro heq
  induction h generalizing x with
  | leaf l => simp [leaves] at hp
  | counted l ordered occurs loops =>
    -- a lower bound lets the leaf end the word, but only once it has been read
    obtain ⟨rfl, rfl⟩ : p = l ∧ m = _ := by simpa [leaves] using hp
    have hend := (heq none).2 (.inr (.inl ⟨rfl, rfl⟩))
    simp [Next, hm, hx] at hend
  | closure op l => simp [leaves] at hp
  | @joined op a b hca hcb iha ihb =>
    have hmem := List.mem_append.1 hp
    cases op with
    | choice =>
      rcases hmem with hp | hp
      · have hpa := has_of_mem hp
        have hn' := hn.resolve_right fun h => ha.disjoint p hpa (has_of_next_right h)
        exact iha ha.left hp hx hn' (next_branch_congr ha.disjoint hcb.exists_first hpa hn' heq)
      · have hpb := has_of_mem hp
        have hn' := hn.resolve_left fun h => ha.disjoint p (has_of_next_right h) hpb
        refine ihb ha.right hp hx hn' (next_branch_congr (fun l hb ha' => ha.disjoint l ha' hb)
          hca.exists_first hpb hn' fun y => ?_)
        rw [or_comm, or_comm (a := b.Next (some p) y)]
        exact heq y
    | sequence =>
      rcases hmem with hp | hp
      · have hpa := has_of_mem hp
        rw [next_sequence_left ha.disjoint hpa] at hn
        refine iha ha.left hp hx hn (next_left_congr ha.disjoint hcb.exists_first ?_ ?_ heq)
        · intro q hy
          subst hy
          exact has_of_next_left hn
        · intro q hy
          cases hy
          exact hpa
      · have hpb := has_of_mem hp
        by_cases hxb : ∃ q, x = some q ∧ b.Has q
        · obtain ⟨q, rfl, hq⟩ := hxb
          rw [next_sequence_right ha.disjoint hq] at hn
          apply ihb ha.right hp hx hn
          intro y
          rw [← next_sequence_right ha.disjoint hq, heq, next_sequence_right ha.disjoint hpb]
        · have hxa : ∀ q, x = some q → a.Has q := by
            intro q hy
            subst hy
            exact (has_joined.1 (has_of_next_left hn)).resolve_right fun hq => hxb ⟨q, rfl, hq⟩
          rw [next_sequence_across ha.disjoint hxa fun q hq => Option.some.inj hq ▸ hpb] at hn
          exact ihb ha.right hp (by simp) hn.2 (next_right_congr ha.disjoint hxa hn.1 hpb heq)
  | orEmpty body counts ih =>
    rcases List.mem_append.1 hp with hp | hp
    · exact hm (counts _ hp m rfl)
    · simp [leaves] at hp

/-! ## Gates -/

/-- Every way into `gate`, which holds `j`, leads through a point at which both `j` and `k` may come
next. -/
structure IsGate (t : Tree) (j : Leaf) (k : Option Leaf) (gate : Leaf → Prop) : Prop where
  target : gate j
  within : ∀ l, gate l → t.Has l
  both : ∀ x, (∀ l, x = some l → ¬ gate l) → ∀ q, gate q → t.Next x (some q) →
    t.Next x (some j) ∧ t.Next x k

namespace IsGate

variable {a b : Tree} {j : Leaf} {k k' : Option Leaf} {gate : Leaf → Prop}

/-- At the beginning, the way in is the beginning itself. -/
theorem of_start (hj : t.Next none (some j)) (hk : t.Next none k) : t.IsGate j k t.Has := by
  refine ⟨has_of_next_right hj, fun _ => id, fun x hx q hq hn => ?_⟩
  cases x with
  | none => exact ⟨hj, hk⟩
  | some p => exact absurd (has_of_next_left hn) (hx p rfl)

theorem choice_left (disjoint : ∀ l, a.Has l → ¬ b.Has l) (h : a.IsGate j k gate) :
    (joined .choice a b).IsGate j k gate := by
  refine ⟨h.target, fun l hl => has_joined.2 (.inl (h.within l hl)), fun x hx q hq hn => ?_⟩
  have hn' := hn.resolve_right fun hb => disjoint q (h.within q hq) (has_of_next_right hb)
  exact (h.both x hx q hq hn').imp .inl .inl

theorem choice_right (disjoint : ∀ l, a.Has l → ¬ b.Has l) (h : b.IsGate j k gate) :
    (joined .choice a b).IsGate j k gate := by
  refine ⟨h.target, fun l hl => has_joined.2 (.inr (h.within l hl)), fun x hx q hq hn => ?_⟩
  have hn' := hn.resolve_left fun ha => disjoint q (has_of_next_right ha) (h.within q hq)
  exact (h.both x hx q hq hn').imp .inr .inr

theorem sequence_left (disjoint : ∀ l, a.Has l → ¬ b.Has l) (h : a.IsGate j k' gate)
    (hk : ∀ x, a.Next x k' → (joined .sequence a b).Next x k) :
    (joined .sequence a b).IsGate j k gate := by
  refine ⟨h.target, fun l hl => has_joined.2 (.inl (h.within l hl)), fun x hx q hq hn => ?_⟩
  rw [next_sequence_left disjoint (h.within q hq)] at hn
  exact (h.both x hx q hq hn).imp (next_sequence_left disjoint (h.within j h.target)).2 (hk x)

/-- A gate in the left part of a sequence is one in the whole. Beyond that part, what counts is that
it may end. -/
theorem exists_sequence_left (disjoint : ∀ l, a.Has l → ¬ b.Has l) {p : Leaf} (hp : a.Has p)
    (hj : a.Has j) (ih : ∀ k', a.Next (some p) k' → a.Next (some j) k' → ∃ gate, a.IsGate j k' gate)
    (hk : (joined .sequence a b).Next (some p) k) (hjk : (joined .sequence a b).Next (some j) k) :
    ∃ gate, (joined .sequence a b).IsGate j k gate := by
  by_cases hka : ∃ q, k = some q ∧ a.Has q
  · obtain ⟨q, rfl, hq⟩ := hka
    rw [next_sequence_left disjoint hq] at hk hjk
    obtain ⟨gate, hg⟩ := ih _ hk hjk
    exact ⟨gate, hg.sequence_left disjoint fun x => (next_sequence_left disjoint hq).2⟩
  · have hkb : ∀ q, k = some q → b.Has q := by
      intro q hq
      subst hq
      exact (has_joined.1 (has_of_next_right hk)).resolve_left fun hq => hka ⟨q, rfl, hq⟩
    have across : ∀ q, a.Has q → ((joined .sequence a b).Next (some q) k ↔
        a.Next (some q) none ∧ b.Next none k) := fun q hq =>
      next_sequence_across disjoint (fun r hr => Option.some.inj hr ▸ hq) hkb
    rw [across p hp] at hk
    rw [across j hj] at hjk
    obtain ⟨gate, hg⟩ := ih _ hk.1 hjk.1
    exact ⟨gate, hg.sequence_left disjoint fun x hx => .inr (.inr ⟨hx, hk.2⟩)⟩

theorem sequence_right (disjoint : ∀ l, a.Has l → ¬ b.Has l) (h : b.IsGate j k gate) :
    (joined .sequence a b).IsGate j k gate := by
  refine ⟨h.target, fun l hl => has_joined.2 (.inr (h.within l hl)), fun x hx q hq hn => ?_⟩
  rcases hn with ⟨-, hn⟩ | ⟨hne, hn⟩ | ⟨hend, hn⟩
  · exact absurd (h.within q hq) (disjoint q (has_of_next_right hn))
  · have hb := h.both x hx q hq hn
    exact hb.imp (fun hj => .inr (.inl ⟨hne, hj⟩)) fun hk => .inr (.inl ⟨hne, hk⟩)
  · have hb := h.both none (by simp) q hq hn
    exact hb.imp (fun hj => .inr (.inr ⟨hend, hj⟩)) fun hk => .inr (.inr ⟨hend, hk⟩)

end IsGate

/-- If both `j` and `k` may come after `p` and `k` also after `j`, there is a gate to `j`. -/
theorem IsCompact.exists_gate_of_leaf (h : t.IsCompact) (ha : t.Ascends) {j p : Leaf}
    {k : Option Leaf} (hp : p ≠ j) (hj : t.Next (some p) (some j)) (hk : t.Next (some p) k)
    (hjk : t.Next (some j) k) : ∃ gate, t.IsGate j k gate := by
  induction h generalizing k with
  | leaf l => simp [Next] at hj
  | counted l ordered occurs loops =>
    simp only [Next, reduceCtorEq, false_and, and_false, false_or, or_false,
      Option.some.injEq] at hj
    exact absurd (hj.2.1.trans hj.2.2.symm) hp
  | closure op l =>
    simp only [Next, reduceCtorEq, false_and, and_false, false_or, true_and, and_true, or_false,
      Option.some.injEq] at hj
    exact absurd (hj.2.1.trans hj.2.2.symm) hp
  | @joined op a b hca hcb iha ihb =>
    cases op with
    | choice =>
      rcases hj with hj | hj
      · rw [next_choice_left ha.disjoint (has_of_next_left hj)] at hk
        rw [next_choice_left ha.disjoint (has_of_next_right hj)] at hjk
        obtain ⟨gate, hg⟩ := iha ha.left hj hk hjk
        exact ⟨gate, hg.choice_left ha.disjoint⟩
      · rw [next_choice_right ha.disjoint (has_of_next_left hj)] at hk
        rw [next_choice_right ha.disjoint (has_of_next_right hj)] at hjk
        obtain ⟨gate, hg⟩ := ihb ha.right hj hk hjk
        exact ⟨gate, hg.choice_right ha.disjoint⟩
    | sequence =>
      rcases hj with ⟨-, hj⟩ | ⟨-, hj⟩ | ⟨hend, hj⟩
      · exact IsGate.exists_sequence_left ha.disjoint (has_of_next_left hj) (has_of_next_right hj)
          (fun k => iha ha.left hj) hk hjk
      · rw [next_sequence_right ha.disjoint (has_of_next_left hj)] at hk
        rw [next_sequence_right ha.disjoint (has_of_next_right hj)] at hjk
        obtain ⟨gate, hg⟩ := ihb ha.right hj hk hjk
        exact ⟨gate, hg.sequence_right ha.disjoint⟩
      · rw [next_sequence_right ha.disjoint (has_of_next_right hj)] at hjk
        have hk' : a.Next (some p) none ∧ b.Next none k := by
          refine (next_sequence_across ha.disjoint ?_ ?_).1 hk
          · intro q hy
            cases hy
            exact has_of_next_left hend
          · intro q hy
            subst hy
            exact has_of_next_right hjk
        exact ⟨b.Has, (IsGate.of_start hj hk'.2).sequence_right ha.disjoint⟩
  | @orEmpty t body counts ih =>
    have hj := hj.resolve_right fun h => by simp [Next] at h
    have hk := hk.resolve_right fun h => by simp [Next] at h
    have hjk := hjk.resolve_right fun h => by simp [Next] at h
    obtain ⟨gate, hg⟩ := ih ha.left hj hk hjk
    exact ⟨gate, hg.choice_left ha.disjoint⟩

/-- If both `j` and `k` may come after `x` and `k` also after `j`, there is a gate to `j`. -/
theorem IsCompact.exists_gate (h : t.IsCompact) (ha : t.Ascends) {j : Leaf} {k x : Option Leaf}
    (hx : x ≠ some j) (hj : t.Next x (some j)) (hk : t.Next x k) (hjk : t.Next (some j) k) :
    ∃ gate, t.IsGate j k gate := by
  cases x with
  | none => exact ⟨t.Has, .of_start hj hk⟩
  | some p => exact h.exists_gate_of_leaf ha (by simpa using hx) hj hk hjk

/-! ## Reaching a leaf -/

/-- Every leaf stands in a word. -/
theorem exists_mem_words_of_has : ∀ {t : Tree}, t.IsRegular → ∀ {p : Leaf}, t.Has p →
    ∃ w ∈ t.words, p ∈ w
  | epsilon, _, p, hp => absurd hp not_has_epsilon
  | leaf l, _, p, hp => ⟨[l], rfl, by simpa using has_leaf.1 hp⟩
  | counted l m, h, p, hp => by
    obtain rfl := has_counted.1 hp
    have hk := Multiplicity.admits_max_min_one h.1 h.2
    refine ⟨List.replicate _ p, ⟨_, hk, mem_singleton_pow.2 rfl⟩, ?_⟩
    exact List.mem_replicate.2 ⟨by omega, rfl⟩
  | closure .optional t, h, p, hp => by
    obtain ⟨w, hw, hpw⟩ := exists_mem_words_of_has (t := t) (IsPlain.isRegular h) hp
    exact ⟨w, .inr hw, hpw⟩
  | closure .star t, h, p, hp => by
    obtain ⟨w, hw, hpw⟩ := exists_mem_words_of_has (t := t) (IsPlain.isRegular h) hp
    exact ⟨w, (le_kstar : t.words ≤ _) hw, hpw⟩
  | closure .plus t, h, p, hp => by
    obtain ⟨w, hw, hpw⟩ := exists_mem_words_of_has (t := t) (IsPlain.isRegular h) hp
    exact ⟨w ++ [], Language.append_mem_mul hw (Language.nil_mem_kstar _), by simpa using hpw⟩
  | joined .choice a b, h, p, hp => by
    rcases has_joined.1 hp with hp | hp
    · obtain ⟨w, hw, hpw⟩ := exists_mem_words_of_has h.1 hp
      exact ⟨w, .inl hw, hpw⟩
    · obtain ⟨w, hw, hpw⟩ := exists_mem_words_of_has h.2 hp
      exact ⟨w, .inr hw, hpw⟩
  | joined .sequence a b, h, p, hp => by
    rcases has_joined.1 hp with hp | hp
    · obtain ⟨w, hw, hpw⟩ := exists_mem_words_of_has h.1 hp
      obtain ⟨v, hv⟩ := h.2.isExpression.exists_mem_words
      exact ⟨w ++ v, Language.append_mem_mul hw hv, by simp [hpw]⟩
    · obtain ⟨w, hw⟩ := h.1.isExpression.exists_mem_words
      obtain ⟨v, hv, hpv⟩ := exists_mem_words_of_has h.2 hp
      exact ⟨w ++ v, Language.append_mem_mul hw hv, by simp [hpv]⟩

/-- Every leaf can be read. -/
theorem exists_reads_of_has (h : t.IsRegular) (hi : Indexes range t) {p : Leaf} (hp : t.Has p) :
    ∃ w, Reads t.Next range w ⟨some p, 1⟩ := by
  obtain ⟨w, hw, hpw⟩ := exists_mem_words_of_has h hp
  -- up to where the leaf is met for the first time
  obtain ⟨u, v, rfl, hpu⟩ := List.eq_append_cons_of_mem hpw
  obtain ⟨x, hx⟩ := (extends_iff h hi).1 ⟨p :: v, hw⟩
  have hlast : x.last ≠ some p := fun hl => hpu (hx.mem_of_last hl)
  rw [← accepted_eq_words h hi, mem_accepted, hx.accepts_append] at hw
  refine ⟨u ++ [p], ?_⟩
  have hr := hx.read hw.1
  rwa [Point.read, if_neg hlast] at hr

/-- A leaf that is counted can be read as often as its range allows. -/
theorem exists_reads_count (h : t.IsRegular) (hi : Indexes range t) {p : Leaf} {m : Multiplicity}
    (hp : t.Has p) (hr : range p = some m) (hloop : t.Next (some p) (some p)) {c : Nat}
    (hc : 0 < c) (hle : ∀ max, m.max = some max → c ≤ max.toNat) :
    ∃ w, Reads t.Next range w ⟨some p, c⟩ := by
  induction c, hc using Nat.le_induction with
  | base => exact exists_reads_of_has h hi hp
  | succ c hc ih =>
    obtain ⟨w, hw⟩ := ih fun max hmax => Nat.le_of_succ_le (hle max hmax)
    have ha : Allows t.Next range ⟨some p, c⟩ (some p) := by
      refine ⟨hloop, fun m' hm' => ?_⟩
      obtain rfl : m = m' := Option.some.inj (hr.symm.trans hm')
      rw [if_pos rfl]
      exact hle
    have hread := hw.read ha
    unfold Point.read at hread
    rw [if_pos rfl] at hread
    exact ⟨_, hread⟩

end ContentAutomata.Tree
