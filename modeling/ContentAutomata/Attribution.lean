import ContentAutomata.AllGroup
import ContentAutomata.Automaton.Basic

/-!
# Unique particle attribution

A content model is ambiguous if some child could be attributed to two of its particles without
looking at the children after it. In an automaton that takes two entries whose terms overlap and
that are allowed in a common state; in an `all` group any two members whose terms overlap.

The first common state decides. If it is a counting state whose range is a single number, and just
one of the two entries stays in it, the count tells the two apart: one is allowed before the number
is reached, the other after.

Results:
* `mem_filterPairs`: what a list of pairs in order consists of;
* `AllGroup.mem_ambiguities`: the ambiguities of an `all` group are its overlapping pairs.
-/
namespace ContentAutomata

/-- What `f` makes of each pair of members of a list, an earlier one first, in order. -/
def filterPairs {α β : Type} (f : α → α → Option β) : List α → List β
  | [] => []
  | a :: as => as.filterMap (f a) ++ filterPairs f as

theorem mem_filterPairs {α β : Type} {f : α → α → Option β} {l : List α} {x : β} :
    x ∈ filterPairs f l ↔ ∃ a b, [a, b].Sublist l ∧ f a b = some x := by
  induction l with
  | nil => simp [filterPairs]
  | cons c cs ih =>
    simp only [filterPairs, List.mem_append, List.mem_filterMap, ih]
    constructor
    · rintro (⟨d, hd, h⟩ | ⟨a, b, hs, h⟩)
      · exact ⟨c, d, List.Sublist.cons_cons c (List.singleton_sublist.2 hd), h⟩
      · exact ⟨a, b, hs.cons c, h⟩
    · rintro ⟨a, b, hs, h⟩
      cases hs with
      | cons _ hs => exact .inr ⟨a, b, hs, h⟩
      | cons_cons _ hs => exact .inl ⟨b, List.singleton_sublist.1 hs, h⟩

/-- The particle that an entry stands for. -/
def Entry.claimant (e : Entry) : Claimant := ⟨e.term, e.particle⟩

/-- The particle that a member stands for. -/
def AllGroup.Member.claimant (m : AllGroup.Member) : Claimant := ⟨m.term, m.particle⟩

namespace Automaton

/-- Whether the count of a state tells apart two entries that are allowed there. -/
def isToldApart (a : Automaton) (state j k : Nat) : Bool :=
  match a.counter state with
  | some c =>
    c.occurs.max == some c.occurs.min &&
      ((a.target state j == some state) != (a.target state k == some state))
  | none => false

/-- The states in which each entry is allowed. -/
def homes (a : Automaton) : Array (List Nat) :=
  (Array.range a.entries.size).map fun entry =>
    (List.range a.stateCount).filter fun state => (a.target state entry).isSome

/-- The first state in which two entries are both allowed, found among those that allow the first
one. -/
def firstCommon (a : Automaton) (homes : Array (List Nat)) (j k : Nat) : Option Nat :=
  (homes[j]?.getD []).find? fun state => (a.target state k).isSome

/-- Whether some child could be attributed to either of two entries. -/
def isAmbiguous (a : Automaton) (homes : Array (List Nat)) (j k : Nat) : Bool :=
  match a.firstCommon homes j k with
  | some state => !a.isToldApart state j k
  | none => false

/-- The pairs of particles that some child could be attributed to. Mirrors `dfa_conflicts`. -/
def ambiguities (a : Automaton) : List Ambiguity :=
  let homes := a.homes
  filterPairs (fun (e, j) (f, k) =>
      if e.term.overlaps f.term && a.isAmbiguous homes j k then some ⟨e.claimant, f.claimant⟩
      else none)
    a.entries.toList.zipIdx

end Automaton

/-- The pairs of members that some child could be attributed to. Mirrors `all_conflicts`. -/
def AllGroup.ambiguities (g : AllGroup) : List Ambiguity :=
  filterPairs (fun m n => if m.term.overlaps n.term then some ⟨m.claimant, n.claimant⟩ else none)
    g.members

theorem AllGroup.mem_ambiguities {g : AllGroup} {x : Ambiguity} :
    x ∈ g.ambiguities ↔
      ∃ m n, [m, n].Sublist g.members ∧ m.term.overlaps n.term = true ∧
        x = ⟨m.claimant, n.claimant⟩ := by
  rw [ambiguities, mem_filterPairs]
  refine exists_congr fun m => exists_congr fun n => and_congr Iff.rfl ?_
  split <;> rename_i h <;> simp [h, eq_comm]

end ContentAutomata
