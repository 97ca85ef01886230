import ContentAutomata.Proofs.Position.Refinement
import ContentAutomata.Proofs.Tree.Next
import ContentAutomata.Tree.Guarded

/-!
# No access to the positions of a tree fails

The sets and tables of a tree may be worked out with every access checked. For a tree whose
positions are below the capacity all accesses succeed, whatever its nodes are, and what comes out is
the same as without the checks.

Results:
* `PositionSet.union?_bounded` and others: checked operations on sets that have room;
* `first?_eq`, `last?_eq`, `follow?_eq`: the tables of a tree, with every access checked.
-/
namespace ContentAutomata

/-! ## Checked operations on sets -/

namespace PositionSet

variable {n : Nat}

theorem union_comm (s t : PositionSet n) : s ∪ t = t ∪ s :=
  ext fun p => by rw [mem_union, mem_union, or_comm]

theorem union_assoc (s t u : PositionSet n) : s ∪ t ∪ u = s ∪ (t ∪ u) :=
  ext fun p => by simp only [mem_union, or_assoc]

theorem union_empty (s : PositionSet n) : s ∪ ∅ = s := ext fun p => by simp

theorem empty_union (s : PositionSet n) : ∅ ∪ s = s := ext fun p => by simp

theorem insert_eq_union (s : PositionSet n) {p : Nat} (h : p < n) :
    s.insert p = s ∪ singleton p :=
  ext fun q => by rw [mem_insert h, mem_union, mem_singleton h, or_comm]

/-- The same members, kept in words. -/
def inWords (s : PositionSet n) : WordSet n :=
  s.members.foldl (fun w p => if h : p < n then w.insert p h else w) (.empty n)

theorem mem_foldl_insert_inWords (ps : List Nat) (w : WordSet n) {q : Nat} :
    q ∈ ps.foldl (fun w p => if h : p < n then w.insert p h else w) w ↔
      q ∈ w ∨ (q < n ∧ q ∈ ps) := by
  induction ps generalizing w with
  | nil => simp
  | cons p ps ih =>
    rw [List.foldl_cons, ih, List.mem_cons, and_or_left, ← or_assoc]
    refine or_congr ?_ Iff.rfl
    split
    · rename_i h
      rw [WordSet.mem_insert h, or_comm]
      exact or_congr Iff.rfl ⟨fun e => ⟨e ▸ h, e⟩, And.right⟩
    · rename_i h
      exact ⟨.inl, fun hq => hq.resolve_right fun hq => h (hq.2 ▸ hq.1)⟩

@[simp] theorem mem_inWords {s : PositionSet n} {p : Nat} : p ∈ s.inWords ↔ p ∈ s := by
  rw [inWords, mem_foldl_insert_inWords, mem_members]
  exact ⟨fun h => (h.resolve_left (WordSet.not_mem_empty p)).2, fun h => .inr ⟨lt_of_mem h, h⟩⟩

theorem toPositionSet_inWords (s : PositionSet n) : s.inWords.toPositionSet = s :=
  ext fun p => by rw [WordSet.mem_toPositionSet, mem_inWords]

/-- The same members in a set that carries its capacity. -/
def bounded (s : PositionSet n) : BoundedSet := ⟨n, s.inWords⟩

theorem bounded_eq_iff {s : PositionSet n} {w : WordSet n} :
    s.bounded = ⟨n, w⟩ ↔ ∀ p, p ∈ s ↔ p ∈ w := by
  constructor
  · intro h p
    have hw : s.inWords = w := eq_of_heq (BoundedSet.mk.inj h).2
    rw [← hw, mem_inWords]
  · intro h
    rw [bounded, WordSet.ext fun p => mem_inWords.trans (h p)]

theorem bounded_inj {s t : PositionSet n} : s.bounded = t.bounded ↔ s = t := by
  constructor
  · intro h
    exact ext fun p => (bounded_eq_iff.1 h p).trans mem_inWords
  · rintro rfl
    rfl

theorem bounded_empty : (∅ : PositionSet n).bounded = .empty n :=
  bounded_eq_iff.2 fun p => iff_of_false (not_mem_empty p) (WordSet.not_mem_empty p)

theorem members_bounded (s : PositionSet n) : s.bounded.set.members = s.members := by
  rw [← WordSet.members_toPositionSet, bounded, toPositionSet_inWords]

theorem insert?_bounded (s : PositionSet n) {p : Nat} (h : p < n) :
    s.bounded.insert? p = some (s.insert p).bounded := by
  have hset : (s.insert p).bounded = ⟨n, s.inWords.insert p h⟩ :=
    bounded_eq_iff.2 fun q => by rw [mem_insert h, WordSet.mem_insert h, mem_inWords]
  have hok : s.bounded.insert p = .ok ⟨n, s.inWords.insert p h⟩ := dif_pos h
  rw [BoundedSet.insert?, hok, hset]
  rfl

theorem contains?_bounded (s : PositionSet n) {p : Nat} (h : p < n) :
    s.bounded.contains? p = some (decide (p ∈ s)) := by
  have hset : s.bounded.set.contains p = decide (p ∈ s) := by
    rw [WordSet.contains_eq]
    exact decide_eq_decide.2 mem_inWords
  have hok : s.bounded.contains p = .ok (s.bounded.set.contains p) := if_pos h
  rw [BoundedSet.contains?, hok, hset]
  rfl

theorem union?_bounded (s t : PositionSet n) :
    s.bounded.union? t.bounded = some (s ∪ t).bounded := by
  have hset : (s ∪ t).bounded = ⟨n, s.inWords.union t.inWords⟩ :=
    bounded_eq_iff.2 fun q => by rw [mem_union, WordSet.mem_union, mem_inWords, mem_inWords]
  have hok : s.bounded.union t.bounded = .ok ⟨n, s.inWords.union t.inWords⟩ := dif_pos rfl
  rw [BoundedSet.union?, hok, hset]
  rfl

theorem assign?_bounded (s t : PositionSet n) : s.bounded.assign? t.bounded = some t.bounded := by
  have hok : s.bounded.assign t.bounded = .ok ⟨n, s.inWords.overwrite t.inWords⟩ := dif_pos rfl
  rw [BoundedSet.assign?, hok, WordSet.overwrite_eq]
  rfl

end PositionSet

namespace Tree

/-! ## Tables that have to hold what is looked up -/

namespace FollowTable

variable {n : Nat} {table : FollowTable n}

/-- The same table, of sets that carry their capacity. -/
def bounded (table : FollowTable n) : Array BoundedSet := table.map PositionSet.bounded

theorem bounded_replicate :
    bounded (Array.replicate n (∅ : PositionSet n)) = Array.replicate n (.empty n) := by
  rw [bounded, Array.map_replicate, PositionSet.bounded_empty]

theorem change?_bounded {p : Nat} (h : p < table.size) {next : PositionSet n}
    {f : BoundedSet → Option BoundedSet}
    (hf : ∀ s : PositionSet n, f s.bounded = some (s ∪ next).bounded) :
    change? table.bounded p f = some (table.add p next).bounded := by
  have hget : table.bounded[p]? = some table[p].bounded := by simp [bounded, h]
  rw [change?, hget]
  change (f table[p].bounded).bind _ = _
  rw [hf]
  refine congrArg some (Array.ext_getElem? fun i => ?_)
  simp only [bounded, add, Array.getElem?_setIfInBounds, Array.getElem?_map, Array.getElem?_modify,
    Array.size_map]
  split
  · rename_i e
    subst e
    simp [h]
  · rfl

theorem foldlM_change?_bounded {ps : List Nat} {next : PositionSet n}
    {f : BoundedSet → Option BoundedSet}
    (hf : ∀ s : PositionSet n, f s.bounded = some (s ∪ next).bounded)
    (h : ∀ p ∈ ps, p < table.size) :
    ps.foldlM (fun table p => change? table p f) table.bounded =
      some (bounded (ps.foldl (fun table p => FollowTable.add table p next) table)) := by
  induction ps generalizing table with
  | nil => rfl
  | cons p ps ih =>
    obtain ⟨hp, hps⟩ := List.forall_mem_cons.1 h
    rw [List.foldlM_cons, change?_bounded hp hf, List.foldl_cons]
    exact ih (by simpa using hps)

theorem changeAll?_bounded (h : table.size = n) (ends next : PositionSet n) :
    changeAll? table.bounded ends.bounded next.bounded =
      some (bounded (table.addAll ends next)) := by
  rw [changeAll?, PositionSet.members_bounded]
  refine foldlM_change?_bounded (fun s => s.union?_bounded next) fun p hp => ?_
  rw [h]
  exact PositionSet.lt_of_mem (PositionSet.mem_members.1 hp)

end FollowTable

/-! ## The tables of a tree -/

/-! ## No access fails -/

section Fits

variable {n : Nat}

theorem has_all {ts : List Tree} {m : Multiplicity} {l : Leaf} :
    (all ts m).Has l ↔ ∃ t ∈ ts, t.Has l := by
  simp only [Has, leaves, List.mem_map, mem_leavesOf]
  constructor
  · rintro ⟨x, ⟨t, ht, hx⟩, rfl⟩
    exact ⟨t, ht, x, hx, rfl⟩
  · rintro ⟨t, ht, x, hx, rfl⟩
    exact ⟨x, ⟨t, ht, hx⟩, rfl⟩

theorem Fits.member {ts : List Tree} {m : Multiplicity} (h : (all ts m).Fits n) :
    ∀ t ∈ ts, t.Fits n := fun t ht l hl => h l (has_all.2 ⟨t, ht, hl⟩)

theorem insert?_singleton {p : Nat} (h : p < n) :
    (BoundedSet.empty n).insert? p = some (PositionSet.singleton p : PositionSet n).bounded := by
  rw [← PositionSet.bounded_empty, PositionSet.insert?_bounded _ h]
  rfl

theorem assign?_empty (s : PositionSet n) :
    (BoundedSet.empty n).assign? s.bounded = some s.bounded := by
  rw [← PositionSet.bounded_empty, PositionSet.assign?_bounded]

mutual
theorem first?_eq : ∀ {t : Tree}, t.Fits n → t.first? n = some (t.first n).bounded
  | epsilon, _ => congrArg some PositionSet.bounded_empty.symm
  | leaf l, h => insert?_singleton (h l (by simp))
  | counted l _, h => insert?_singleton (h l (by simp))
  | closure _ t, h => by
    simp only [first?, first, first?_eq (t := t) h, Option.bind_eq_bind, Option.bind_some,
      assign?_empty]
  | joined .choice l r, h => by
    simp only [first?, first, first?_eq h.left, first?_eq h.right, Option.bind_eq_bind,
      Option.bind_some, assign?_empty, PositionSet.union?_bounded]
  | joined .sequence l r, h => by
    simp only [first?, first, first?_eq h.left, first?_eq h.right, Option.bind_eq_bind,
      Option.bind_some, assign?_empty, PositionSet.union?_bounded]
    split <;> rfl
  | all ts _, h => by
    rw [first?, ← PositionSet.bounded_empty, firstOf?_eq h.member, first, PositionSet.empty_union]
theorem firstOf?_eq : ∀ {ts : List Tree} {s : PositionSet n}, (∀ t ∈ ts, t.Fits n) →
    firstOf? n ts s.bounded = some (s ∪ firstOf n ts).bounded
  | [], s, _ => by rw [firstOf?, firstOf, PositionSet.union_empty]
  | t :: ts, s, h => by
    obtain ⟨ht, hts⟩ := List.forall_mem_cons.1 h
    simp only [firstOf?, first?_eq ht, Option.bind_eq_bind, Option.bind_some,
      PositionSet.union?_bounded, firstOf?_eq hts, firstOf, PositionSet.union_assoc]
end

mutual
theorem last?_eq : ∀ {t : Tree}, t.Fits n → t.last? n = some (t.last n).bounded
  | epsilon, _ => congrArg some PositionSet.bounded_empty.symm
  | leaf l, h => insert?_singleton (h l (by simp))
  | counted l _, h => insert?_singleton (h l (by simp))
  | closure _ t, h => by
    simp only [last?, last, last?_eq (t := t) h, Option.bind_eq_bind, Option.bind_some,
      assign?_empty]
  | joined .choice l r, h => by
    simp only [last?, last, last?_eq h.left, last?_eq h.right, Option.bind_eq_bind,
      Option.bind_some, assign?_empty, PositionSet.union?_bounded, PositionSet.union_comm]
  | joined .sequence l r, h => by
    simp only [last?, last, last?_eq h.left, last?_eq h.right, Option.bind_eq_bind,
      Option.bind_some, assign?_empty, PositionSet.union?_bounded]
    split
    · rw [PositionSet.union_comm]
    · rfl
  | all ts _, h => by
    rw [last?, ← PositionSet.bounded_empty, lastOf?_eq h.member, last, PositionSet.empty_union]
theorem lastOf?_eq : ∀ {ts : List Tree} {s : PositionSet n}, (∀ t ∈ ts, t.Fits n) →
    lastOf? n ts s.bounded = some (s ∪ lastOf n ts).bounded
  | [], s, _ => by rw [lastOf?, lastOf, PositionSet.union_empty]
  | t :: ts, s, h => by
    obtain ⟨ht, hts⟩ := List.forall_mem_cons.1 h
    simp only [lastOf?, last?_eq ht, Option.bind_eq_bind, Option.bind_some,
      PositionSet.union?_bounded, lastOf?_eq hts, lastOf, PositionSet.union_assoc]
end

mutual
theorem follow?_eq : ∀ {t : Tree} {table : FollowTable n}, t.Fits n → table.size = n →
    t.follow? n table.bounded = some (FollowTable.bounded (t.follow table))
  | epsilon, table, _, _ => rfl
  | leaf _, table, _, _ => rfl
  | counted l m, table, h, hs => by
    have hl : l.position < n := h l (by simp)
    unfold follow? follow
    split
    · rfl
    · refine FollowTable.change?_bounded (by rw [hs]; exact hl) fun s => ?_
      rw [s.insert?_bounded hl, PositionSet.insert_eq_union _ hl]
  | closure .optional t, table, h, hs => follow?_eq (t := t) h hs
  | closure .star t, table, h, hs => by
    simp only [follow?, follow, follow?_eq (t := t) h hs, last?_eq (t := t) h,
      first?_eq (t := t) h, Option.bind_eq_bind, Option.bind_some]
    exact FollowTable.changeAll?_bounded (size_follow hs) _ _
  | closure .plus t, table, h, hs => by
    simp only [follow?, follow, follow?_eq (t := t) h hs, last?_eq (t := t) h,
      first?_eq (t := t) h, Option.bind_eq_bind, Option.bind_some]
    exact FollowTable.changeAll?_bounded (size_follow hs) _ _
  | joined .choice l r, table, h, hs => by
    simp only [follow?, follow, follow?_eq h.left hs, Option.bind_eq_bind, Option.bind_some]
    exact follow?_eq h.right (size_follow hs)
  | joined .sequence l r, table, h, hs => by
    simp only [follow?, follow, follow?_eq h.left hs, follow?_eq h.right (size_follow hs),
      last?_eq h.left, first?_eq h.right, Option.bind_eq_bind, Option.bind_some]
    exact FollowTable.changeAll?_bounded (size_follow (size_follow hs)) _ _
  | all ts _, table, h, hs => by
    have hstarts := firstOf?_eq (s := ∅) h.member
    rw [PositionSet.bounded_empty, PositionSet.empty_union] at hstarts
    rw [follow?, hstarts]
    exact followMembers?_eq _ h.member hs
theorem followMembers?_eq (starts : PositionSet n) : ∀ {ts : List Tree} {table : FollowTable n},
    (∀ t ∈ ts, t.Fits n) → table.size = n →
      followMembers? n starts.bounded ts table.bounded =
        some (FollowTable.bounded (followMembers starts ts table))
  | [], table, _, _ => rfl
  | t :: ts, table, h, hs => by
    obtain ⟨ht, hts⟩ := List.forall_mem_cons.1 h
    simp only [followMembers?, followMembers, follow?_eq ht hs, last?_eq ht, Option.bind_eq_bind,
      Option.bind_some, FollowTable.changeAll?_bounded (size_follow hs)]
    exact followMembers?_eq starts hts (FollowTable.size_addAll (size_follow hs))
end

end Fits

end Tree

end ContentAutomata
