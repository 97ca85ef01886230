import ContentAutomata.Term
import Mathlib.Data.Fintype.EquivFin

/-!
# What overlap means

Two terms overlap when some name is accepted by both. For wildcards this comes down to a namespace
that both admit; there are always more namespaces than a constraint can list, so two constraints
that each leave out finitely many have one in common.

Results:
* `exists_space`: a namespace outside a given list;
* `NamespaceConstraint.overlaps_iff`, `Term.overlaps_iff`: overlap as a common namespace or name;
* `Term.overlaps_exactly`: both at once, in either order;
* `Term.exists_accepts`: a term accepts some name, unless it is a wildcard that lists no namespace.
-/
namespace ContentAutomata

/-- Some namespace is not in the list. -/
theorem exists_space (spaces : List String) : ∃ s, s ∉ spaces := by
  obtain ⟨s, hs⟩ := Infinite.exists_notMem_finset spaces.toFinset
  exact ⟨s, by simpa using hs⟩

namespace NamespaceConstraint

variable {c d : NamespaceConstraint}

/-- The namespaces that a constraint leaves out, if it does not list those it admits. -/
def leftOut : NamespaceConstraint → List String
  | any => []
  | other target => "" :: target.toList
  | listed _ => []
  | excluded spaces => spaces.items

theorem allows_of_not_leftOut {s : String} (h : ∀ spaces, c ≠ listed spaces) (hs : s ∉ c.leftOut) :
    c.allows (some s) = true := by
  cases c with
  | any => rfl
  | other target =>
    simp only [leftOut, List.mem_cons, Option.mem_toList, not_or] at hs
    exact allows_other.2 hs
  | listed spaces => exact absurd rfl (h spaces)
  | excluded spaces => exact allows_excluded.2 hs

/-- Constraints that list no namespaces have one in common. -/
theorem exists_allows_both (hc : ∀ spaces, c ≠ listed spaces) (hd : ∀ spaces, d ≠ listed spaces) :
    ∃ space, c.allows space = true ∧ d.allows space = true := by
  obtain ⟨s, hs⟩ := exists_space (c.leftOut ++ d.leftOut)
  rw [List.mem_append, not_or] at hs
  exact ⟨some s, allows_of_not_leftOut hc hs.1, allows_of_not_leftOut hd hs.2⟩

/-- Having no namespace counts as the empty string. -/
theorem allows_getD (c : NamespaceConstraint) (space : Option String) :
    c.allows (some (space.getD "")) = c.allows space := by
  cases space <;> rfl

theorem exists_listed_iff {spaces : NamespaceSet} :
    (∃ space, (listed spaces).allows space = true ∧ d.allows space = true) ↔
      ∃ x ∈ spaces.items, d.allows (some x) = true := by
  constructor
  · intro h
    obtain ⟨space, hs, hd⟩ := h
    exact ⟨_, allows_listed.1 hs, (d.allows_getD space).trans hd⟩
  · intro h
    obtain ⟨x, hx, hd⟩ := h
    exact ⟨some x, allows_listed.2 hx, hd⟩

theorem overlaps_listed (spaces : NamespaceSet) (d : NamespaceConstraint) :
    (listed spaces).overlaps d = spaces.items.any fun x => d.allows (some x) := by
  cases d with
  | any =>
    cases h : spaces.items <;> simp [overlaps, isVoid, NamespaceSet.isEmpty, h]
  | other target => rfl
  | listed t => rfl
  | excluded t => rfl

theorem overlaps_of_not_listed (hc : ∀ spaces, c ≠ listed spaces)
    (hd : ∀ spaces, d ≠ listed spaces) : c.overlaps d = true := by
  cases c with
  | listed spaces => exact absurd rfl (hc spaces)
  | _ =>
    cases d with
    | listed spaces => exact absurd rfl (hd spaces)
    | _ => rfl

/-- Overlapping constraints are those that admit a common namespace. -/
theorem overlaps_iff :
    c.overlaps d = true ↔ ∃ space, c.allows space = true ∧ d.allows space = true := by
  have listed_left : ∀ (spaces : NamespaceSet) (d : NamespaceConstraint),
      (listed spaces).overlaps d = true ↔
        ∃ space, (listed spaces).allows space = true ∧ d.allows space = true := by
    intro spaces d
    rw [overlaps_listed, List.any_eq_true, exists_listed_iff]
  by_cases hc : ∃ spaces, c = listed spaces
  · obtain ⟨spaces, rfl⟩ := hc
    exact listed_left spaces d
  · by_cases hd : ∃ spaces, d = listed spaces
    · obtain ⟨spaces, rfl⟩ := hd
      rw [overlaps_comm, listed_left]
      exact exists_congr fun space => and_comm
    · rw [not_exists] at hc hd
      exact iff_of_true (overlaps_of_not_listed hc hd) (exists_allows_both hc hd)

/-- The same for namespaces that are strings. -/
theorem exists_allows_some_iff :
    (∃ space : String, c.allows (some space) = true ∧ d.allows (some space) = true) ↔
      ∃ space, c.allows space = true ∧ d.allows space = true := by
  constructor
  · intro h
    obtain ⟨space, hs⟩ := h
    exact ⟨some space, hs⟩
  · intro h
    obtain ⟨space, hc, hd⟩ := h
    exact ⟨space.getD "", (c.allows_getD space).trans hc, (d.allows_getD space).trans hd⟩

/-- Some namespace is admitted, unless the constraint lists none. -/
theorem exists_allows (h : c.isVoid = false) : ∃ space, c.allows space = true := by
  have hany : any.overlaps c = true := by simp [overlaps, h]
  obtain ⟨space, -, hs⟩ := overlaps_iff.1 hany
  exact ⟨space, hs⟩

end NamespaceConstraint

namespace Term

/-- Overlapping terms are those that accept a common name. -/
theorem overlaps_iff {t u : Term} :
    t.overlaps u = true ↔ ∃ name, t.accepts name = true ∧ u.accepts name = true := by
  have element_left : ∀ (n : Name) (u : Term), (element n).overlaps u = true ↔
      ∃ name, (element n).accepts name = true ∧ u.accepts name = true := by
    intro n u
    simp [overlaps_element]
  cases t with
  | element n => exact element_left n u
  | wildcard v =>
    cases u with
    | element n =>
      rw [overlaps_comm, element_left]
      exact exists_congr fun name => and_comm
    | wildcard w =>
      simp only [overlaps, NamespaceConstraint.overlaps_iff, accepts, Wildcard.allows]
      constructor
      · intro h
        obtain ⟨space, hs⟩ := h
        exact ⟨⟨space, ""⟩, hs⟩
      · intro h
        obtain ⟨name, hn⟩ := h
        exact ⟨name.space, hn⟩

/-- A term accepts some name, unless it is a wildcard that lists no namespace. -/
theorem exists_accepts {t : Term} (h : ∀ w, t = wildcard w → w.spaces.isVoid = false) :
    ∃ name, t.accepts name = true := by
  cases t with
  | element n => exact ⟨n, accepts_element.2 rfl⟩
  | wildcard w =>
    obtain ⟨space, hs⟩ := NamespaceConstraint.exists_allows (h w rfl)
    exact ⟨⟨space, ""⟩, hs⟩

/-- Terms overlap exactly if an element of some name may stand for both, whatever their order, and
constraints exactly if some namespace is admitted by both. -/
theorem overlaps_exactly (t u : Term) (c d : NamespaceConstraint) :
    (t.overlaps u = true ↔ ∃ name, t.accepts name = true ∧ u.accepts name = true) ∧
      t.overlaps u = u.overlaps t ∧
      (c.overlaps d = true ↔
        ∃ space : String, c.allows (some space) = true ∧ d.allows (some space) = true) :=
  ⟨overlaps_iff, overlaps_comm t u,
    NamespaceConstraint.overlaps_iff.trans NamespaceConstraint.exists_allows_some_iff.symm⟩

end Term

end ContentAutomata
