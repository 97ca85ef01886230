/-!
# Finite sets of namespaces

A namespace set is kept as its members in strictly ascending order, strings compared by code
points, so that two sets with the same members are the same value and a set has one written form.

Results:
* `mem_ofList`, `mem_insert`: what a set built from a list holds, whatever the order and the
  repetitions of the list;
* `ext`: sets with the same members are equal;
* `contains_iff`, `meets_iff`: the tests used by wildcards, as statements about members.
-/
namespace ContentAutomata

/-- A finite set of namespaces. -/
structure NamespaceSet where
  /-- The members in ascending order. -/
  items : List String
  /-- The members ascend strictly. -/
  sorted : items.Pairwise (· < ·) := by decide
  deriving DecidableEq, Repr

namespace NamespaceSet

instance : Membership String NamespaceSet := ⟨fun s x => x ∈ s.items⟩

theorem mem_def {s : NamespaceSet} {x : String} : x ∈ s ↔ x ∈ s.items := Iff.rfl

/-- The set without members. -/
def empty : NamespaceSet := ⟨[], .nil⟩

/-- The set with one member. -/
def singleton (x : String) : NamespaceSet := ⟨[x], List.pairwise_singleton _ x⟩

@[simp] theorem not_mem_empty (x : String) : ¬ x ∈ empty := by simp [mem_def, empty]

@[simp] theorem mem_singleton {x y : String} : x ∈ singleton y ↔ x = y := by
  simp [mem_def, singleton]

/-! ## Insertion -/

/-- Puts `x` into its place in an ascending list, unless it is there already. -/
def place (x : String) : List String → List String
  | [] => [x]
  | y :: ys => if x < y then x :: y :: ys else if x = y then y :: ys else y :: place x ys

theorem mem_place {x y : String} {l : List String} : x ∈ place y l ↔ x = y ∨ x ∈ l := by
  induction l with
  | nil => simp [place]
  | cons z zs ih =>
    rw [place]
    split
    · simp
    · split
      · rename_i h; subst h; simp
      · simp only [List.mem_cons, ih]
        constructor <;> (intro h; rcases h with h | h | h <;> simp [h])

theorem pairwise_place {y : String} {l : List String} (h : l.Pairwise (· < ·)) :
    (place y l).Pairwise (· < ·) := by
  induction l with
  | nil => exact List.pairwise_singleton _ y
  | cons z zs ih =>
    obtain ⟨hz, hzs⟩ := List.pairwise_cons.1 h
    rw [place]
    split
    · rename_i hlt
      refine List.pairwise_cons.2 ⟨fun a ha => ?_, h⟩
      rcases List.mem_cons.1 ha with rfl | ha
      · exact hlt
      · exact String.lt_trans hlt (hz a ha)
    · split
      · exact h
      · rename_i hlt hne
        refine List.pairwise_cons.2 ⟨fun a ha => ?_, ih hzs⟩
        rcases mem_place.1 ha with rfl | ha
        · rcases Std.lt_trichotomy a z with h' | h' | h'
          · exact absurd h' hlt
          · exact absurd h' hne
          · exact h'
        · exact hz a ha

/-- The set with `x` added. -/
def insert (s : NamespaceSet) (x : String) : NamespaceSet :=
  ⟨place x s.items, pairwise_place s.sorted⟩

@[simp] theorem mem_insert {s : NamespaceSet} {x y : String} : x ∈ s.insert y ↔ x = y ∨ x ∈ s :=
  mem_place

/-- The set of the strings in a list. -/
def ofList (l : List String) : NamespaceSet := l.foldr (fun x s => s.insert x) empty

@[simp] theorem mem_ofList {l : List String} {x : String} : x ∈ ofList l ↔ x ∈ l := by
  induction l with
  | nil => simp [ofList]
  | cons y ys ih => simpa [ofList] using or_congr Iff.rfl ih

/-! ## Extensionality -/

theorem eq_of_mem_iff {l m : List String} (hl : l.Pairwise (· < ·)) (hm : m.Pairwise (· < ·))
    (h : ∀ x, x ∈ l ↔ x ∈ m) : l = m := by
  induction l generalizing m with
  | nil =>
    cases m with
    | nil => rfl
    | cons y ys => exact absurd ((h y).2 (by simp)) (by simp)
  | cons x xs ih =>
    cases m with
    | nil => exact absurd ((h x).1 (by simp)) (by simp)
    | cons y ys =>
      obtain ⟨hx, hxs⟩ := List.pairwise_cons.1 hl
      obtain ⟨hy, hys⟩ := List.pairwise_cons.1 hm
      have hxy : x = y := by
        rcases List.mem_cons.1 ((h x).1 (by simp)) with e | hx'
        · exact e
        · rcases List.mem_cons.1 ((h y).2 (by simp)) with e | hy'
          · exact e.symm
          · exact absurd (String.lt_trans (hx y hy') (hy x hx')) (String.lt_irrefl x)
      subst hxy
      refine congrArg (x :: ·) (ih hxs hys fun z => ?_)
      constructor
      · intro hz
        rcases List.mem_cons.1 ((h z).1 (by simp [hz])) with rfl | h'
        · exact absurd (hx z hz) (String.lt_irrefl z)
        · exact h'
      · intro hz
        rcases List.mem_cons.1 ((h z).2 (by simp [hz])) with rfl | h'
        · exact absurd (hy z hz) (String.lt_irrefl z)
        · exact h'

theorem ext {s t : NamespaceSet} (h : ∀ x, x ∈ s ↔ x ∈ t) : s = t := by
  cases s with
  | mk items sorted =>
    cases t with
    | mk items' sorted' =>
      have e := eq_of_mem_iff sorted sorted' h
      subst e
      rfl

/-! ## Tests -/

/-- Whether `x` is a member. -/
def contains (s : NamespaceSet) (x : String) : Bool := s.items.contains x

/-- Whether the set has no members. -/
def isEmpty (s : NamespaceSet) : Bool := s.items.isEmpty

/-- Whether two sets have a member in common. -/
def meets (s t : NamespaceSet) : Bool := s.items.any t.contains

@[simp] theorem contains_iff {s : NamespaceSet} {x : String} : s.contains x = true ↔ x ∈ s := by
  simp [contains, mem_def]

theorem meets_iff {s t : NamespaceSet} : s.meets t = true ↔ ∃ x, x ∈ s ∧ x ∈ t := by
  simp [meets, mem_def, contains]

end NamespaceSet

end ContentAutomata
