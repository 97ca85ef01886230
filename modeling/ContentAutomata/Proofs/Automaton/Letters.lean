import ContentAutomata.Automaton.Basic
import ContentAutomata.Proofs.Tree.Shape

/-!
# The letters of an automaton

A tree may hold any number of leaves of one particle, in any order. Each particle gets one entry,
which takes its term and its range from a leaf of the particle, and gathers the positions of all of
them (`Gathered`). The leaves of a drawn tree introduce their particles in document order, so there
the entry of a particle is found under the number of the particle.

Results:
* `gathered_lettersOf`: what the entries of a tree are;
* `particlesOf_lettersOf`: in which order they stand if the particles are introduced in order.
-/
namespace ContentAutomata.Automaton

variable {n : Nat} {letters : Letters n} {l : Leaf}

/-- The particles of the entries. -/
def particlesOf (letters : Letters n) : List Nat := letters.toList.map (·.1.particle)

theorem getElem?_particlesOf {e : Nat} :
    (particlesOf letters)[e]? = letters[e]?.map (·.1.particle) := by
  simp [particlesOf]

/-- A leaf of a particle met before adds its position to the entry of the particle. -/
theorem addLeaf_of_mem (h : l.particle ∈ particlesOf letters) (occurs : Option Multiplicity) :
    ∃ i letter, letters[i]? = some letter ∧ letter.1.particle = l.particle ∧
      addLeaf letters l occurs =
        letters.modify i fun (e, positions) => (e, positions.insert l.position) := by
  cases hfind : letters.findIdx? (·.1.particle == l.particle) with
  | none =>
    obtain ⟨letter, hmem, he⟩ := List.mem_map.1 h
    have hne := Array.findIdx?_eq_none_iff.1 hfind letter (Array.mem_toList_iff.1 hmem)
    simp [he] at hne
  | some i =>
    obtain ⟨hi, he, -⟩ := Array.findIdx?_eq_some_iff_getElem.1 hfind
    exact ⟨i, letters[i], Array.getElem?_eq_getElem hi, by simpa using he,
      by simp only [addLeaf, hfind]⟩

/-- A leaf of a new particle makes an entry. -/
theorem addLeaf_of_notMem (h : l.particle ∉ particlesOf letters)
    (occurs : Option Multiplicity) :
    addLeaf letters l occurs =
      letters.push (⟨l.term, l.particle, occurs⟩, .singleton l.position) := by
  have hfind : letters.findIdx? (·.1.particle == l.particle) = none := by
    refine Array.findIdx?_eq_none_iff.2 fun letter hmem => ?_
    rw [beq_eq_false_iff_ne]
    intro he
    exact h (List.mem_map.2 ⟨letter, Array.mem_toList_iff.2 hmem, he⟩)
  simp only [addLeaf, hfind]

theorem particlesOf_addLeaf (letters : Letters n) (l : Leaf) (occurs : Option Multiplicity) :
    particlesOf (addLeaf letters l occurs) =
      if l.particle ∈ particlesOf letters then particlesOf letters
      else particlesOf letters ++ [l.particle] := by
  split
  · rename_i h
    obtain ⟨i, letter, hi, he, heq⟩ := addLeaf_of_mem h occurs
    rw [heq]
    refine List.ext_getElem? fun j => ?_
    rw [getElem?_particlesOf, getElem?_particlesOf, Array.getElem?_modify]
    split
    · rw [Option.map_map]
      rfl
    · rfl
  · rename_i h
    rw [addLeaf_of_notMem h]
    simp [particlesOf]

/-- What the entries are after some leaves. -/
structure Gathered (leaves : List (Leaf × Option Multiplicity)) (letters : Letters n) : Prop where
  entry : ∀ {e : Nat} {letter : Entry × PositionSet n}, letters[e]? = some letter →
    ∃ x ∈ leaves, letter.1 = ⟨x.1.term, x.1.particle, x.2⟩
  positions : ∀ {e : Nat} {letter : Entry × PositionSet n}, letters[e]? = some letter →
    ∀ q, q ∈ letter.2 ↔ ∃ x ∈ leaves, x.1.particle = letter.1.particle ∧ x.1.position = q
  found : ∀ x ∈ leaves, x.1.particle ∈ particlesOf letters
  nodup : (particlesOf letters).Nodup

namespace Gathered

variable {leaves : List (Leaf × Option Multiplicity)} {occurs : Option Multiplicity}

theorem nil : Gathered [] (#[] : Letters n) := ⟨by simp, by simp, by simp, .nil⟩

/-- A particle has one entry. -/
theorem unique (h : Gathered leaves letters) {e e' : Nat} {letter letter' : Entry × PositionSet n}
    (he : letters[e]? = some letter) (he' : letters[e']? = some letter')
    (heq : letter.1.particle = letter'.1.particle) : e = e' := by
  have hget : (particlesOf letters)[e]? = (particlesOf letters)[e']? := by
    simp [getElem?_particlesOf, he, he', heq]
  have hlt : e < (particlesOf letters).length := by
    simpa [particlesOf] using (Array.getElem?_eq_some_iff.1 he).1
  exact (List.getElem?_inj hlt h.nodup).1 hget

/-- A leaf of a particle met before. -/
theorem known (h : Gathered leaves letters) (hl : l.particle ∈ particlesOf letters)
    (hpos : l.position < n) : Gathered (leaves ++ [(l, occurs)]) (addLeaf letters l occurs) := by
  have hparticles := particlesOf_addLeaf letters l occurs
  rw [if_pos hl] at hparticles
  obtain ⟨i, own, hi, hown, heq⟩ := addLeaf_of_mem hl occurs
  constructor
  · intro e letter he
    rw [heq, Array.getElem?_modify] at he
    have hold : ∃ letter', letters[e]? = some letter' ∧ letter'.1 = letter.1 := by
      split at he
      · obtain ⟨letter', h', rfl⟩ := Option.map_eq_some_iff.1 he
        exact ⟨letter', h', rfl⟩
      · exact ⟨letter, he, rfl⟩
    obtain ⟨letter', h', hsame⟩ := hold
    obtain ⟨x, hx, hentry⟩ := h.entry h'
    exact ⟨x, List.mem_append_left _ hx, hsame ▸ hentry⟩
  · intro e letter he q
    rw [heq, Array.getElem?_modify] at he
    simp only [List.mem_append, List.mem_singleton, or_and_right, exists_or, exists_eq_left]
    split at he
    · rename_i hie
      subst hie
      rw [hi] at he
      obtain rfl := Option.some.inj he
      rw [PositionSet.mem_insert hpos, h.positions hi, or_comm]
      exact or_congr Iff.rfl ⟨fun hq => ⟨hown.symm, hq.symm⟩, fun hq => hq.2.symm⟩
    · rename_i hne
      rw [h.positions he]
      refine ⟨.inl, fun hq => hq.resolve_right fun hq => hne ?_⟩
      exact h.unique hi he (hown.trans hq.1)
  · intro x hx
    rw [hparticles]
    rcases List.mem_append.1 hx with hx | hx
    · exact h.found x hx
    · obtain rfl := List.mem_singleton.1 hx
      exact hl
  · rw [hparticles]
    exact h.nodup

/-- A leaf of a new particle. -/
theorem fresh (h : Gathered leaves letters) (hl : l.particle ∉ particlesOf letters)
    (hpos : l.position < n) : Gathered (leaves ++ [(l, occurs)]) (addLeaf letters l occurs) := by
  have hparticles := particlesOf_addLeaf letters l occurs
  rw [if_neg hl] at hparticles
  have hpush := addLeaf_of_notMem hl occurs
  constructor
  · intro e letter he
    rw [hpush, Array.getElem?_push] at he
    split at he
    · obtain rfl := Option.some.inj he
      exact ⟨(l, occurs), by simp, rfl⟩
    · obtain ⟨x, hx, hentry⟩ := h.entry he
      exact ⟨x, List.mem_append_left _ hx, hentry⟩
  · intro e letter he q
    rw [hpush, Array.getElem?_push] at he
    simp only [List.mem_append, List.mem_singleton, or_and_right, exists_or, exists_eq_left]
    split at he
    · obtain rfl := Option.some.inj he
      rw [PositionSet.mem_singleton hpos]
      constructor
      · exact fun hq => .inr ⟨rfl, hq.symm⟩
      · intro hy
        rcases hy with ⟨x, hx, hpart, -⟩ | ⟨-, hq⟩
        · have hmem := h.found x hx
          rw [show x.1.particle = l.particle from hpart] at hmem
          exact absurd hmem hl
        · exact hq.symm
    · rw [h.positions he]
      refine ⟨.inl, fun hq => hq.resolve_right fun hq => hl ?_⟩
      rw [hq.1]
      exact List.mem_map.2 ⟨letter, Array.mem_toList_iff.2 (Array.mem_of_getElem? he), rfl⟩
  · intro x hx
    rw [hparticles, List.mem_append]
    exact (List.mem_append.1 hx).imp (h.found x) fun hx => by simp [List.mem_singleton.1 hx]
  · rw [hparticles]
    refine List.nodup_append.2 ⟨h.nodup, List.nodup_singleton _, fun x hx y hy => ?_⟩
    rw [List.mem_singleton.1 hy]
    exact ne_of_mem_of_not_mem hx hl

/-- One more leaf. -/
theorem addLeaf (h : Gathered leaves letters) (hpos : l.position < n) :
    Gathered (leaves ++ [(l, occurs)]) (Automaton.addLeaf letters l occurs) := by
  by_cases hl : l.particle ∈ particlesOf letters
  · exact h.known hl hpos
  · exact h.fresh hl hpos

end Gathered

theorem gathered_foldl {ls : List (Leaf × Option Multiplicity)} (hpos : ∀ x ∈ ls, x.1.position < n)
    {done : List (Leaf × Option Multiplicity)} (h : Gathered done letters) :
    Gathered (done ++ ls)
      (ls.foldl (fun letters (leaf, occurs) => addLeaf letters leaf occurs) letters) := by
  induction ls generalizing done letters with
  | nil => simpa using h
  | cons x ls ih =>
    simp only [List.mem_cons, forall_eq_or_imp] at hpos
    rw [List.foldl_cons, List.append_cons]
    exact ih hpos.2 (h.addLeaf hpos.1)

/-- The entries of a tree. -/
theorem gathered_lettersOf {t : Tree} (hpos : ∀ x ∈ t.leaves, x.1.position < n) :
    Gathered t.leaves (lettersOf n t) :=
  gathered_foldl hpos .nil

theorem particlesOf_foldl {ls : List (Leaf × Option Multiplicity)} {a b : Nat}
    (hi : Tree.Introduces a (ls.map (·.1.particle)) b)
    (h : particlesOf letters = List.range a) :
    particlesOf (ls.foldl (fun letters (leaf, occurs) => addLeaf letters leaf occurs) letters) =
      List.range b := by
  induction ls generalizing a letters with
  | nil =>
    cases hi
    exact h
  | cons x ls ih =>
    rw [List.foldl_cons]
    cases hi with
    | known lt rest =>
      refine ih rest ?_
      rw [particlesOf_addLeaf, h, if_pos (List.mem_range.2 lt)]
    | fresh rest =>
      refine ih rest ?_
      rw [particlesOf_addLeaf, h, if_neg (by simp), List.range_succ]

/-- If the leaves of a tree introduce their particles in order, the entries stand in that order. -/
theorem particlesOf_lettersOf {t : Tree} {count : Nat}
    (hi : Tree.Introduces 0 (t.leaves.map (·.1.particle)) count) :
    particlesOf (lettersOf n t) = List.range count :=
  particlesOf_foldl hi rfl

end ContentAutomata.Automaton
