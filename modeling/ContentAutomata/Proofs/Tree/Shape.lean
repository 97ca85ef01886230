import ContentAutomata.Proofs.Tree.Meaning

/-!
# The shapes of drawn trees, and how their leaves are numbered

A tree is *plain* if it neither counts nor holds an `all` node. Expanded trees are plain. A tree is
*compact* if only single leaves are repeated, by a closure or by a counter, and if a branch without
leaves stands only beside a branch none of whose counters has a lower bound. The last condition is
what keeps the automaton of a compact tree from mistaking "not begun to count" for "counted".

The leaves of a drawn tree stand for terms in document order: going through them from left to right,
each stands for a term met before or for the next one.

Results:
* `isCompact_compactTree`, `isPlain_expandedTree`: the shapes of drawn trees;
* `letters_compactTree`: in a compact tree every term has just one leaf, in document order;
* `lettered_expandedTree`: the leaves of an expanded tree introduce the terms in document order.
-/
namespace ContentAutomata

namespace Tree

/-! ## Shapes -/

/-- Neither counts nor holds an `all` node. -/
def IsPlain : Tree → Prop
  | epsilon => True
  | leaf _ => True
  | counted _ _ => False
  | closure _ t => t.IsPlain
  | joined _ l r => l.IsPlain ∧ r.IsPlain
  | all _ _ => False

/-- Holds no `all` node, counts only what is not repeated otherwise, and counts to a number. -/
def IsRegular : Tree → Prop
  | epsilon => True
  | leaf _ => True
  | counted _ m => m.isOrdered = true ∧ m.isNever = false
  | closure _ t => t.IsPlain
  | joined _ l r => l.IsRegular ∧ r.IsRegular
  | all _ _ => False

/-- Holds no `all` node, and every range admits something besides nothing. -/
def IsExpression : Tree → Prop
  | epsilon => True
  | leaf _ => True
  | counted _ m => m.isOrdered = true ∧ m.isNever = false
  | closure _ t => t.IsExpression
  | joined _ l r => l.IsExpression ∧ r.IsExpression
  | all _ _ => False

/-- No counter of the tree has a lower bound. -/
def CountsFromZero (t : Tree) : Prop := ∀ x ∈ t.leaves, ∀ m, x.2 = some m → m.min = 0

/-- Repeats only single leaves, and leaves out only what counts from zero. -/
inductive IsCompact : Tree → Prop
  | leaf (l : Leaf) : IsCompact (leaf l)
  | counted (l : Leaf) {m : Multiplicity} (ordered : m.isOrdered = true)
    (occurs : m.isNever = false) (loops : m.max ≠ some 1) : IsCompact (counted l m)
  | closure (op : Closure) (l : Leaf) : IsCompact (closure op (.leaf l))
  | joined (op : Connective) {l r : Tree} (left : IsCompact l) (right : IsCompact r) :
    IsCompact (joined op l r)
  | orEmpty {t : Tree} (body : IsCompact t) (counts : t.CountsFromZero) :
    IsCompact (.joined .choice t .epsilon)

theorem IsPlain.isRegular : ∀ {t : Tree}, t.IsPlain → t.IsRegular
  | epsilon, _ => trivial
  | leaf _, _ => trivial
  | closure _ _, h => h
  | joined _ _ _, h => ⟨h.1.isRegular, h.2.isRegular⟩

theorem IsRegular.isExpression : ∀ {t : Tree}, t.IsRegular → t.IsExpression
  | epsilon, _ => trivial
  | leaf _, _ => trivial
  | counted _ _, h => h
  | closure _ t, h => (IsPlain.isRegular (t := t) h).isExpression
  | joined _ _ _, h => ⟨h.1.isExpression, h.2.isExpression⟩

theorem IsCompact.isRegular {t : Tree} (h : t.IsCompact) : t.IsRegular := by
  induction h with
  | leaf => trivial
  | counted l ordered occurs => exact ⟨ordered, occurs⟩
  | closure => trivial
  | joined op _ _ ihl ihr => exact ⟨ihl, ihr⟩
  | orEmpty _ _ ih => exact ⟨ih, trivial⟩

theorem IsPlain.range_eq_none : ∀ {t : Tree}, t.IsPlain → ∀ x ∈ t.leaves, x.2 = none
  | epsilon, _, x, hx => by simp [leaves] at hx
  | leaf _, _, x, hx => by
    simp only [leaves, List.mem_singleton] at hx
    rw [hx]
  | closure _ t, h, x, hx => IsPlain.range_eq_none (t := t) h x hx
  | joined _ l r, h, x, hx => by
    rcases List.mem_append.1 hx with hx | hx
    · exact h.1.range_eq_none x hx
    · exact h.2.range_eq_none x hx

/-! ## Numbering keeps shapes and letters -/

/-- What numbering leaves alone. -/
def letterOf (x : Leaf × Option Multiplicity) : Term × Nat × Option Multiplicity :=
  (x.1.term, x.1.particle, x.2)

mutual
theorem letters_number : ∀ (t : Tree) (k : Nat),
    (t.number k).1.leaves.map letterOf = t.leaves.map letterOf
  | epsilon, k => rfl
  | leaf _, k => rfl
  | counted _ _, k => rfl
  | closure _ t, k => letters_number t k
  | joined _ l r, k => by
    simp only [number, leaves, List.map_append, letters_number l, letters_number r]
  | all ts _, k => letters_numberAll ts k
theorem letters_numberAll : ∀ (ts : List Tree) (k : Nat),
    (leavesOf (numberAll ts k).1).map letterOf = (leavesOf ts).map letterOf
  | [], k => rfl
  | t :: ts, k => by
    simp only [numberAll, leavesOf, List.map_append, letters_number t, letters_numberAll ts]
end

theorem countsFromZero_number {t : Tree} (h : t.CountsFromZero) (k : Nat) :
    (t.number k).1.CountsFromZero := by
  intro x hx m hm
  have hmem := List.mem_map_of_mem (f := letterOf) hx
  rw [letters_number] at hmem
  obtain ⟨y, hy, he⟩ := List.mem_map.1 hmem
  simp only [letterOf, Prod.mk.injEq] at he
  exact h y hy m (he.2.2.trans hm)

theorem IsPlain.number : ∀ {t : Tree}, t.IsPlain → ∀ k, (t.number k).1.IsPlain
  | epsilon, _, _ => trivial
  | leaf _, _, _ => trivial
  | closure _ t, h, k => IsPlain.number (t := t) h k
  | joined _ _ _, h, k => ⟨h.1.number k, h.2.number _⟩

theorem IsCompact.number {t : Tree} (h : t.IsCompact) (k : Nat) : (t.number k).1.IsCompact := by
  induction h generalizing k with
  | leaf l => exact .leaf _
  | counted l ho hl hn => exact .counted _ ho hl hn
  | closure op l => exact .closure op _
  | joined op _ _ ihl ihr => exact .joined op (ihl k) (ihr _)
  | orEmpty _ hc ih => exact .orEmpty (ih k) (countsFromZero_number hc k)

/-! ## Repetition keeps shapes and repeats leaves -/

theorem isPlain_copies {t : Tree} (h : t.IsPlain) (count : Nat) : (t.copies count).IsPlain := by
  induction count using Nat.strongRecOn with
  | ind count ih =>
    unfold copies
    split
    · exact h
    · exact ⟨ih _ (by omega), ih _ (by omega)⟩

theorem isPlain_repeated {t : Tree} (h : t.IsPlain) (m : Multiplicity) :
    (t.repeated m).IsPlain := by
  have hopt : (closure .optional t).IsPlain := h
  unfold repeated
  repeat' split
  all_goals first
    | exact h
    | exact isPlain_copies hopt _
    | exact isPlain_copies h _
    | exact ⟨isPlain_copies h _, h⟩
    | exact ⟨isPlain_copies h _, isPlain_copies hopt _⟩

/-- The leaves of `u` are those of `t`, over and over. -/
def RepeatsLeaves (u t : Tree) : Prop := ∃ r, u.leaves = (List.replicate (r + 1) t.leaves).flatten

theorem RepeatsLeaves.joined {l r t : Tree} (hl : l.RepeatsLeaves t) (hr : r.RepeatsLeaves t)
    (op : Connective) : (Tree.joined op l r).RepeatsLeaves t := by
  obtain ⟨a, ha⟩ := hl
  obtain ⟨b, hb⟩ := hr
  refine ⟨a + b + 1, ?_⟩
  rw [leaves, ha, hb, ← List.flatten_append, List.replicate_append_replicate]
  congr 2
  omega

theorem repeatsLeaves_of_eq {u t : Tree} (h : u.leaves = t.leaves) : u.RepeatsLeaves t :=
  ⟨0, by simp [h]⟩

theorem repeatsLeaves_copies {u t : Tree} (h : u.leaves = t.leaves) (count : Nat) :
    (u.copies count).RepeatsLeaves t := by
  induction count using Nat.strongRecOn with
  | ind count ih =>
    unfold copies
    split
    · exact repeatsLeaves_of_eq h
    · exact (ih _ (by omega)).joined (ih _ (by omega)) .sequence

theorem repeatsLeaves_repeated (t : Tree) (m : Multiplicity) : (t.repeated m).RepeatsLeaves t := by
  have hc : ∀ op, (closure op t).leaves = t.leaves := fun op => rfl
  unfold repeated
  repeat' split
  all_goals first
    | exact repeatsLeaves_of_eq rfl
    | exact repeatsLeaves_copies rfl _
    | exact repeatsLeaves_copies (hc _) _
    | exact (repeatsLeaves_copies rfl _).joined (repeatsLeaves_of_eq (hc _)) _
    | exact (repeatsLeaves_copies rfl _).joined (repeatsLeaves_copies (hc _) _) _

/-! ## Leaves in document order -/

/-- Going through a list of numbers from left to right, each is below `next`, or just `next` and
from then on known; `next'` numbers are known in the end. -/
inductive Introduces : (next : Nat) → List Nat → (next' : Nat) → Prop
  | nil (next : Nat) : Introduces next [] next
  | known {next next' i : Nat} {is : List Nat} (lt : i < next) (rest : Introduces next is next') :
    Introduces next (i :: is) next'
  | fresh {next next' : Nat} {is : List Nat} (rest : Introduces (next + 1) is next') :
    Introduces next (next :: is) next'

namespace Introduces

variable {a b c : Nat} {is js : List Nat}

theorem append (h : Introduces a is b) (h' : Introduces b js c) : Introduces a (is ++ js) c := by
  induction h with
  | nil => exact h'
  | known lt _ ih => exact .known lt (ih h')
  | fresh _ ih => exact .fresh (ih h')

theorem le (h : Introduces a is b) : a ≤ b := by
  induction h with
  | nil => exact Nat.le_refl _
  | known _ _ ih => exact ih
  | fresh _ ih => omega

theorem lt_of_mem (h : Introduces a is b) : ∀ i ∈ is, i < b := by
  induction h with
  | nil => simp
  | known lt rest ih =>
    have hle := rest.le
    simp only [List.mem_cons, forall_eq_or_imp]
    exact ⟨by omega, ih⟩
  | fresh rest ih =>
    have hle := rest.le
    simp only [List.mem_cons, forall_eq_or_imp]
    exact ⟨by omega, ih⟩

theorem of_all_known (h : ∀ i ∈ is, i < a) : Introduces a is a := by
  induction is with
  | nil => exact .nil a
  | cons i is ih =>
    simp only [List.mem_cons, forall_eq_or_imp] at h
    exact .known h.1 (ih h.2)

theorem range' (a n : Nat) : Introduces a (List.range' a n) (a + n) := by
  induction n generalizing a with
  | zero => exact .nil a
  | succ n ih =>
    rw [List.range'_succ, show a + (n + 1) = a + 1 + n by omega]
    exact .fresh (ih (a + 1))

end Introduces

/-- Leaves that stand for `terms`, numbered from `next` on in the order in which they are met. -/
structure Lettered (next : Nat) (leaves : List (Leaf × Option Multiplicity)) (terms : List Term) :
    Prop where
  introduces : Introduces next (leaves.map (·.1.particle)) (next + terms.length)
  term_eq : ∀ x ∈ leaves, ∃ i, x.1.particle = next + i ∧ terms[i]? = some x.1.term

namespace Lettered

variable {next : Nat} {ls ms : List (Leaf × Option Multiplicity)} {ts us : List Term}

theorem nil (next : Nat) : Lettered next [] [] := ⟨.nil next, by simp⟩

theorem append (h : Lettered next ls ts) (h' : Lettered (next + ts.length) ms us) :
    Lettered next (ls ++ ms) (ts ++ us) := by
  constructor
  · rw [List.map_append, List.length_append, ← Nat.add_assoc]
    exact h.introduces.append h'.introduces
  · intro x hx
    rcases List.mem_append.1 hx with hx | hx
    · obtain ⟨i, hi, ht⟩ := h.term_eq x hx
      have hlt := (List.getElem?_eq_some_iff.1 ht).1
      exact ⟨i, hi, by rw [List.getElem?_append_left hlt, ht]⟩
    · obtain ⟨i, hi, ht⟩ := h'.term_eq x hx
      refine ⟨ts.length + i, by omega, ?_⟩
      rw [List.getElem?_append_right (by omega), Nat.add_sub_cancel_left, ht]

theorem replicate (h : Lettered next ls ts) (r : Nat) :
    Lettered next (List.replicate (r + 1) ls).flatten ts := by
  induction r with
  | zero => simpa using h
  | succ r ih =>
    constructor
    · rw [List.replicate_succ', List.flatten_append, List.map_append]
      apply ih.introduces.append
      simpa using Introduces.of_all_known h.introduces.lt_of_mem
    · intro x hx
      simp only [List.mem_flatten, List.mem_replicate] at hx
      obtain ⟨_, ⟨-, rfl⟩, hx⟩ := hx
      exact h.term_eq x hx

theorem repeated {t : Tree} (h : Lettered next t.leaves ts) (m : Multiplicity) :
    Lettered next (t.repeated m).leaves ts := by
  obtain ⟨r, hr⟩ := repeatsLeaves_repeated t m
  rw [hr]
  exact h.replicate r

theorem single (term : Term) (next : Nat) (range : Option Multiplicity) :
    Lettered next [(⟨term, next, 0⟩, range)] [term] :=
  ⟨.fresh (.nil _), fun x hx => ⟨0, by simp_all⟩⟩

theorem number {t : Tree} (h : Lettered next t.leaves ts) (k : Nat) :
    Lettered next (t.number k).1.leaves ts := by
  have hl := letters_number t k
  constructor
  · have he : (t.number k).1.leaves.map (·.1.particle) = t.leaves.map (·.1.particle) := by
      simpa [Function.comp_def, letterOf] using congrArg (List.map (·.2.1)) hl
    rw [he]
    exact h.introduces
  · intro x hx
    have hmem := List.mem_map_of_mem (f := letterOf) hx
    rw [hl] at hmem
    obtain ⟨y, hy, he⟩ := List.mem_map.1 hmem
    simp only [letterOf, Prod.mk.injEq] at he
    obtain ⟨i, hi, ht⟩ := h.term_eq y hy
    exact ⟨i, he.2.1 ▸ hi, he.1 ▸ ht⟩

end Lettered

end Tree

/-! ## Drawn trees -/

/-- The leaves of a tree that may be missing. -/
def Tree.leaves? : Option Tree → List (Leaf × Option Multiplicity)
  | none => []
  | some t => t.leaves

theorem Tree.leavesOf_append (o : Option Tree) (ts : List Tree) :
    Tree.leavesOf (o.toList ++ ts) = Tree.leaves? o ++ Tree.leavesOf ts := by
  cases o <;> simp [Tree.leaves?, Tree.leavesOf]

theorem Tree.mem_leavesOf {ts : List Tree} {x : Leaf × Option Multiplicity} :
    x ∈ Tree.leavesOf ts ↔ ∃ t ∈ ts, x ∈ t.leaves := by
  induction ts with
  | nil => simp [Tree.leavesOf]
  | cons t ts ih => simp [Tree.leavesOf, ih]

theorem Tree.leaves_foldl_joined (op : Connective) (t : Tree) (ts : List Tree) :
    (ts.foldl (.joined op) t).leaves = t.leaves ++ Tree.leavesOf ts := by
  induction ts generalizing t with
  | nil => simp [Tree.leavesOf]
  | cons u us ih => rw [List.foldl_cons, ih, Tree.leaves, Tree.leavesOf, List.append_assoc]

theorem Draft.leaves_composed (c : Compositor) (someVanished : Bool) (built : List Tree) :
    Tree.leaves? (Draft.composed c someVanished built) = Tree.leavesOf built := by
  cases built with
  | nil => rfl
  | cons t ts =>
    cases c <;> cases someVanished <;>
      simp [Draft.composed, Tree.leaves?, Tree.leaves, Tree.leaves_foldl_joined, Tree.leavesOf]

theorem Draft.leaves_countedTerm (l : Leaf) (m : Multiplicity) :
    ∃ range, (Draft.countedTerm l m).leaves = [(l, range)] := by
  unfold Draft.countedTerm
  repeat' split
  all_goals exact ⟨_, rfl⟩

namespace Particle

theorem terms_of_term {p : Particle} {term : Term} (h : p.term? = some term)
    (ho : p.occurs = .once) : p.terms = [term] := by
  have hn : Multiplicity.once.isNever = false := rfl
  cases p with
  | element name m =>
    cases h
    simp only [terms, show m = .once from ho, hn]
    rfl
  | wildcard w =>
    cases h
    simp only [terms, show w.occurs = .once from ho, hn]
    rfl
  | group c ms m => simp [term?] at h

mutual
theorem letters_compactTree : ∀ {p : Particle} (next : Nat), p.isCountable = true →
    (Tree.leaves? (p.compactTree next)).map (fun x => (x.1.term, x.1.particle)) =
      p.terms.zipIdx next
  | element name m, next, _ => by
    obtain ⟨range, hr⟩ := Draft.leaves_countedTerm ⟨.element name, next, 0⟩ m
    cases hn : m.isNever <;> simp [compactTree, terms, hn, Tree.leaves?, hr]
  | wildcard w, next, _ => by
    obtain ⟨range, hr⟩ := Draft.leaves_countedTerm ⟨.wildcard w, next, 0⟩ w.occurs
    cases hn : w.occurs.isNever <;> simp [compactTree, terms, hn, Tree.leaves?, hr]
  | group c members m, next, hc => by
    cases hn : m.isNever with
    | true => simp [compactTree, terms, hn, Tree.leaves?]
    | false =>
      simp only [terms, hn, Bool.false_eq_true, if_false]
      cases ho : m.isOnce with
      | true =>
        have hall := Draft.allCountable_of_isOnce hc ho
        cases Multiplicity.isOnce_iff.1 ho
        rw [compactTree_once, Draft.leaves_composed]
        exact letters_compactTrees next hall
      | false =>
        rcases Draft.repeated_group_cases hc ho with rfl | ⟨p, rfl, hp, honce⟩
        · rw [compactTree_nil]
          rfl
        · obtain ⟨term, hterm⟩ := Option.isSome_iff_exists.1 hp
          obtain ⟨range, hr⟩ := Draft.leaves_countedTerm ⟨term, next, 0⟩ m
          rw [compactTree_repeated hn ho hterm, Tree.leaves?, hr, termsOf, termsOf,
            terms_of_term hterm honce]
          rfl
theorem letters_compactTrees : ∀ {ps : List Particle} (next : Nat), allCountable ps = true →
    (Tree.leavesOf (compactTrees ps next)).map (fun x => (x.1.term, x.1.particle)) =
      (termsOf ps).zipIdx next
  | [], next, _ => rfl
  | p :: ps, next, hc => by
    simp only [allCountable, Bool.and_eq_true] at hc
    rw [compactTrees, Tree.leavesOf_append, List.map_append, letters_compactTree next hc.1,
      letters_compactTrees _ hc.2, termsOf, List.zipIdx_append]
end

theorem leaves_expandedTermTree (l : Leaf) (purpose : Purpose) (m : Multiplicity) :
    (expandedTermTree purpose l m).RepeatsLeaves (.leaf l) := by
  cases purpose with
  | validation => exact Tree.repeatsLeaves_repeated _ _
  | attribution =>
    apply Tree.repeatsLeaves_of_eq
    simp only [expandedTermTree, Tree.repeatedFreely]
    repeat' split
    all_goals rfl

theorem isPlain_expandedTermTree (purpose : Purpose) (l : Leaf) (m : Multiplicity) :
    (expandedTermTree purpose l m).IsPlain := by
  cases purpose with
  | validation => exact Tree.isPlain_repeated (t := .leaf l) trivial _
  | attribution =>
    simp only [expandedTermTree, Tree.repeatedFreely]
    repeat' split
    all_goals exact trivial

mutual
theorem lettered_expandedTree (purpose : Purpose) : ∀ (p : Particle) (next : Nat),
    Tree.Lettered next (Tree.leaves? (p.expandedTree purpose next)) p.terms
  | element name m, next => by
    cases hn : m.isNever with
    | true => simpa [expandedTree, terms, hn, Tree.leaves?] using Tree.Lettered.nil next
    | false =>
      obtain ⟨r, hr⟩ := leaves_expandedTermTree ⟨.element name, next, 0⟩ purpose m
      simp only [expandedTree, terms, hn, Bool.false_eq_true, if_false, Tree.leaves?, hr]
      exact (Tree.Lettered.single _ next none).replicate r
  | wildcard w, next => by
    cases hn : w.occurs.isNever with
    | true => simpa [expandedTree, terms, hn, Tree.leaves?] using Tree.Lettered.nil next
    | false =>
      obtain ⟨r, hr⟩ := leaves_expandedTermTree ⟨.wildcard w, next, 0⟩ purpose w.occurs
      simp only [expandedTree, terms, hn, Bool.false_eq_true, if_false, Tree.leaves?, hr]
      exact (Tree.Lettered.single _ next none).replicate r
  | group c members m, next => by
    cases hn : m.isNever with
    | true => simpa [expandedTree, terms, hn, Tree.leaves?] using Tree.Lettered.nil next
    | false =>
      have h := lettered_expandedTrees purpose members next
      rw [← Draft.leaves_composed c ((expandedTrees purpose members next).length < members.length)]
        at h
      simp only [expandedTree, terms, hn, Bool.false_eq_true, if_false]
      cases hcomp : Draft.composed c ((expandedTrees purpose members next).length < members.length)
        (expandedTrees purpose members next) with
      | none => rwa [hcomp] at h
      | some t =>
        rw [hcomp] at h
        exact h.repeated _
theorem lettered_expandedTrees (purpose : Purpose) : ∀ (ps : List Particle) (next : Nat),
    Tree.Lettered next (Tree.leavesOf (expandedTrees purpose ps next)) (termsOf ps)
  | [], next => Tree.Lettered.nil next
  | p :: ps, next => by
    unfold expandedTrees
    rw [Tree.leavesOf_append, termsOf]
    exact (lettered_expandedTree purpose p next).append (lettered_expandedTrees purpose ps _)
end

end Particle

theorem Draft.isPlain_composed {c : Compositor} {someVanished : Bool} {built : List Tree} {t : Tree}
    (h : ∀ u ∈ built, u.IsPlain) (ht : Draft.composed c someVanished built = some t) :
    t.IsPlain := by
  have fold : ∀ (op : Connective) (us : List Tree) (u : Tree), u.IsPlain →
      (∀ v ∈ us, v.IsPlain) → (us.foldl (.joined op) u).IsPlain := by
    intro op us
    induction us with
    | nil => exact fun u hu _ => hu
    | cons v vs ih =>
      intro u hu hvs
      exact ih _ ⟨hu, hvs v (by simp)⟩ fun w hw => hvs w (by simp [hw])
  cases built with
  | nil => cases ht
  | cons u us =>
    have hu := h u (by simp)
    have hus : ∀ v ∈ us, v.IsPlain := fun v hv => h v (by simp [hv])
    cases c <;> cases someVanished <;> cases ht
    all_goals first
      | exact fold _ us u hu hus
      | exact ⟨fold _ us u hu hus, trivial⟩

theorem Draft.countsFromZero_composed {c : Compositor} {someVanished : Bool} {built : List Tree}
    {t : Tree} (h : ∀ u ∈ built, u.CountsFromZero)
    (ht : Draft.composed c someVanished built = some t) : t.CountsFromZero := by
  have hl := Draft.leaves_composed c someVanished built
  rw [ht, Tree.leaves?] at hl
  intro x hx
  rw [hl, Tree.mem_leavesOf] at hx
  obtain ⟨u, hu, hx⟩ := hx
  exact h u hu x hx

/-- Joining compact trees gives a compact tree, as long as the empty branch of a choice stands
beside branches that count from zero. -/
theorem Draft.isCompact_composed {c : Compositor} {someVanished : Bool} {built : List Tree}
    {t : Tree} (h : ∀ u ∈ built, u.IsCompact)
    (hz : c = .choice → someVanished = true → ∀ u ∈ built, u.CountsFromZero)
    (ht : Draft.composed c someVanished built = some t) : t.IsCompact := by
  have fold : ∀ (op : Connective) (us : List Tree) (u : Tree), u.IsCompact →
      (∀ v ∈ us, v.IsCompact) → (us.foldl (.joined op) u).IsCompact := by
    intro op us
    induction us with
    | nil => exact fun u hu _ => hu
    | cons v vs ih =>
      intro u hu hvs
      exact ih _ (.joined op hu (hvs v (by simp))) fun w hw => hvs w (by simp [hw])
  cases built with
  | nil => cases ht
  | cons u us =>
    have hu := h u (by simp)
    have hus : ∀ v ∈ us, v.IsCompact := fun v hv => h v (by simp [hv])
    cases c with
    | sequence =>
      cases ht
      exact fold _ us u hu hus
    | all =>
      cases ht
      exact fold _ us u hu hus
    | choice =>
      cases someVanished with
      | false =>
        cases ht
        exact fold _ us u hu hus
      | true =>
        cases ht
        refine .orEmpty (fold _ us u hu hus) fun x hx => ?_
        rw [Tree.leaves_foldl_joined, ← Tree.leavesOf] at hx
        obtain ⟨v, hv, hx⟩ := Tree.mem_leavesOf.1 hx
        exact hz rfl rfl v hv x hx

namespace Particle

mutual
theorem isPlain_expandedTree {purpose : Purpose} : ∀ {p : Particle} {next : Nat} {t : Tree},
    p.expandedTree purpose next = some t → t.IsPlain
  | element name m, next, t, h => by
    cases hn : m.isNever <;> simp only [expandedTree, hn, Bool.false_eq_true, if_false, if_true,
      reduceCtorEq, Option.some.injEq] at h
    exact h ▸ isPlain_expandedTermTree _ _ _
  | wildcard w, next, t, h => by
    cases hn : w.occurs.isNever <;> simp only [expandedTree, hn, Bool.false_eq_true, if_false,
      if_true, reduceCtorEq, Option.some.injEq] at h
    exact h ▸ isPlain_expandedTermTree _ _ _
  | group c members m, next, t, h => by
    cases hn : m.isNever <;> simp only [expandedTree, hn, Bool.false_eq_true, if_false, if_true,
      reduceCtorEq, Option.map_eq_some_iff] at h
    obtain ⟨u, hu, rfl⟩ := h
    exact Tree.isPlain_repeated (Draft.isPlain_composed isPlain_expandedTrees hu) _
theorem isPlain_expandedTrees {purpose : Purpose} : ∀ {ps : List Particle} {next : Nat},
    ∀ t ∈ expandedTrees purpose ps next, t.IsPlain
  | [], next, t, h => by simp [expandedTrees] at h
  | p :: ps, next, t, h => by
    unfold expandedTrees at h
    rw [List.mem_append, Option.mem_toList] at h
    rcases h with h | h
    · exact isPlain_expandedTree h
    · exact isPlain_expandedTrees t h
end

theorem isCompact_countedTerm (l : Leaf) {m : Multiplicity} (ho : m.isOrdered = true)
    (hn : m.isNever = false) : (Draft.countedTerm l m).IsCompact := by
  unfold Draft.countedTerm
  split
  · exact .leaf l
  split
  · exact .closure _ l
  split
  · exact .closure _ l
  split
  · exact .closure _ l
  · rename_i h1 h0 _ _
    exact .counted l ho hn fun hmax => (Multiplicity.eq_once_or_optional ho hmax).elim h1 h0

theorem countsFromZero_countedTerm (l : Leaf) {m : Multiplicity} (h : needsCounter m = false) :
    (Draft.countedTerm l m).CountsFromZero := by
  intro x hx r hr
  unfold Draft.countedTerm at hx
  split at hx
  · simp_all [Tree.leaves]
  split at hx
  · simp_all [Tree.leaves]
  split at hx
  · simp_all [Tree.leaves]
  split at hx
  · simp_all [Tree.leaves]
  · rename_i h1 _ _ h2
    simp only [Tree.leaves, List.mem_singleton] at hx
    subst hx
    cases hr
    simp only [needsCounter, Bool.and_eq_false_iff, bne_eq_false_iff_eq, decide_eq_false_iff_not,
      h1, h2, or_false] at h
    simpa using h

theorem someVanished_iff {ps : List Particle} {next : Nat} (hc : allCountable ps = true) :
    (compactTrees ps next).length < ps.length ↔ ps.any vanishes = true := by
  rw [length_compactTrees next hc, List.countP_eq_length_filter,
    List.length_filter_lt_length_iff_exists]
  simp

mutual
theorem isCompact_compactTree : ∀ {p : Particle} {next : Nat} {t : Tree}, p.isCountable = true →
    p.isWellFormed = true → p.compactTree next = some t →
      t.IsCompact ∧ (p.hasCounter = false → t.CountsFromZero)
  | element name m, next, t, _, hw, h => by
    cases hn : m.isNever <;> simp only [compactTree, hn, Bool.false_eq_true, if_false, if_true,
      reduceCtorEq, Option.some.injEq] at h
    subst h
    exact ⟨isCompact_countedTerm _ hw hn, countsFromZero_countedTerm _⟩
  | wildcard w, next, t, _, hw, h => by
    cases hn : w.occurs.isNever <;> simp only [compactTree, hn, Bool.false_eq_true, if_false,
      if_true, reduceCtorEq, Option.some.injEq] at h
    subst h
    exact ⟨isCompact_countedTerm _ hw hn, countsFromZero_countedTerm _⟩
  | group c members m, next, t, hc, hw, h => by
    cases hn : m.isNever with
    | true => simp [compactTree, hn] at h
    | false =>
      simp only [isWellFormed, hn, Bool.false_or, Bool.and_eq_true] at hw
      cases ho : m.isOnce with
      | true =>
        have hall := Draft.allCountable_of_isOnce hc ho
        cases Multiplicity.isOnce_iff.1 ho
        rw [compactTree_once] at h
        have hs := isCompact_compactTrees next hall hw.2.2
        refine ⟨Draft.isCompact_composed (fun u hu => (hs u hu).1) ?_ h, fun hcount => ?_⟩
        · intro hchoice hvan u hu
          rw [decide_eq_true_iff, someVanished_iff hall] at hvan
          apply (hs u hu).2
          simpa [isCountable, Multiplicity.isOnce, Multiplicity.once, hchoice, hvan, hall,
            anyHasCounter_eq] using hc
        · simp only [hasCounter, Bool.or_eq_false_iff] at hcount
          exact Draft.countsFromZero_composed (fun u hu => (hs u hu).2 hcount.2) h
      | false =>
        rcases Draft.repeated_group_cases hc ho with rfl | ⟨p, rfl, hp, honce⟩
        · rw [compactTree_nil] at h
          cases h
        · obtain ⟨term, hterm⟩ := Option.isSome_iff_exists.1 hp
          rw [compactTree_repeated hn ho hterm] at h
          cases h
          refine ⟨isCompact_countedTerm _ hw.1 hn, fun hcount => countsFromZero_countedTerm _ ?_⟩
          simp only [hasCounter, List.length_singleton, beq_self_eq_true, Bool.true_and,
            Bool.or_eq_false_iff] at hcount
          exact hcount.1
theorem isCompact_compactTrees : ∀ {ps : List Particle} (next : Nat), allCountable ps = true →
    allWellFormed ps = true → ∀ t ∈ compactTrees ps next,
      t.IsCompact ∧ (anyHasCounter ps = false → t.CountsFromZero)
  | [], next, _, _, t, h => by simp [compactTrees] at h
  | p :: ps, next, hc, hw, t, h => by
    simp only [allCountable, allWellFormed, Bool.and_eq_true] at hc hw
    unfold compactTrees at h
    rw [List.mem_append, Option.mem_toList] at h
    simp only [anyHasCounter, Bool.or_eq_false_iff]
    rcases h with h | h
    · exact (isCompact_compactTree hc.1 hw.1 h).imp id fun h hcount => h hcount.1
    · exact (isCompact_compactTrees _ hc.2 hw.2 t h).imp id fun h hcount => h hcount.2
end

end Particle

end ContentAutomata
