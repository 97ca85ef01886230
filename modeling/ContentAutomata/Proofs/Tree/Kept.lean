import ContentAutomata.Proofs.Tree.Guarded
import ContentAutomata.Tree.Kept

/-!
# What nodes keep is what would be worked out

A query hands out what a node keeps without looking at the tree again. That is right for as long as
the positions stay as they are: if all that is kept is what would be worked out, then so is the
answer, and so is all that is kept afterwards. A query that fails leaves right sets behind, too.

Results:
* `answers_ends`, `answers_follow`: a query that finds only right sets answers like one without any.
-/
namespace ContentAutomata

namespace Tree

/-! ## Nodes -/

theorem at?_append (t : Tree) (path' path : Path) :
    t.at? (path' ++ path) = (t.at? path).bind (·.at? path') := by
  induction path' with
  | nil => simp [at?]
  | cons i path' ih => rw [List.cons_append, at?, ih, Option.bind_assoc]; rfl

theorem at?_child {root t u : Tree} {path : Path} {i : Nat} (ht : root.at? path = some t)
    (hu : t.children[i]? = some u) : root.at? (i :: path) = some u := by
  rw [at?, ht, Option.bind_some, hu]

/-- If the trees of a list are children of a node, those after the first one are, too. -/
theorem at?_rest {root t : Tree} {ts : List Tree} {i : Nat} {path : Path}
    (h : ∀ j u, (t :: ts)[j]? = some u → root.at? ((i + j) :: path) = some u) :
    ∀ j u, ts[j]? = some u → root.at? ((i + 1 + j) :: path) = some u := by
  intro j u hj
  rw [show i + 1 + j = i + (j + 1) by omega]
  exact h (j + 1) u hj

/-- What a tree hands down to its children, it hands down to all its subtrees. -/
theorem at?_inherit {P : Tree → Prop} (closure : ∀ op t, P (closure op t) → P t)
    (joined : ∀ op l r, P (joined op l r) → P l ∧ P r)
    (all : ∀ ts m, P (all ts m) → ∀ t ∈ ts, P t) {t u : Tree} {path : Path} (ht : P t)
    (hu : t.at? path = some u) : P u := by
  induction path generalizing u with
  | nil => exact Option.some.inj hu ▸ ht
  | cons i path ih =>
    obtain ⟨v, hv, hi⟩ := Option.bind_eq_some_iff.1 hu
    have hchild := List.mem_of_getElem? hi
    have hP := ih hv
    cases v with
    | epsilon => cases hchild
    | leaf l => cases hchild
    | counted l m => cases hchild
    | closure op t => exact List.mem_singleton.1 hchild ▸ closure op t hP
    | joined op l r =>
      rcases List.mem_pair.1 hchild with rfl | rfl
      · exact (joined op u r hP).1
      · exact (joined op l u hP).2
    | all ts m => exact all ts m hP u hchild

end Tree

open ContentAutomata.Tree
open scoped Computability

namespace Query

/-! ## Right answers -/

/-- The set that a node keeps is the one that would be worked out. -/
def IsRight (root : Tree) (n : Nat) (memo : Memo) : Prop :=
  ∀ path side u s, root.at? path = some u → memo path side = some s → u.ends? side n = some s

variable {α β : Type} {root : Tree} {n : Nat}

theorem IsRight.keep {memo : Memo} (h : IsRight root n memo) {path : Path} {side : Side} {t : Tree}
    {s : BoundedSet} (ht : root.at? path = some t) (hs : t.ends? side n = some s) :
    IsRight root n (memo.keep path side s) := by
  intro path' side' t' s' ht' hs'
  unfold Memo.keep at hs'
  by_cases hpath : path' = path
  · subst hpath
    obtain rfl := Option.some.inj (ht.symm.trans ht')
    rw [Function.update_self] at hs'
    by_cases hside : side' = side
    · subst hside
      rw [Function.update_self] at hs'
      exact hs.trans hs'
    · rw [Function.update_of_ne hside] at hs'
      exact h path' side' t s' ht hs'
  · rw [Function.update_of_ne hpath] at hs'
    exact h path' side' t' s' ht' hs'

/-- The query comes to `r` if all that is kept is right, and then leaves it so. -/
def Answers (root : Tree) (n : Nat) (x : Query α) (r : Option α) : Prop :=
  ∀ memo, IsRight root n memo → (x.run memo).1 = r ∧ IsRight root n (x.run memo).2

theorem answers_pure (a : α) : Answers root n (pure a) (some a) := fun _ h => ⟨rfl, h⟩

theorem answers_access (o : Option α) : Answers root n (access o) o := fun _ h => ⟨rfl, h⟩

theorem run_bind (x : Query α) (f : α → Query β) (memo : Memo) :
    (x >>= f).run memo =
      match x.run memo with
      | (some a, memo) => (f a).run memo
      | (none, memo) => (none, memo) := by
  have hrun : (x >>= f).run = x.run >>= fun o => o.elim (pure none) fun a => (f a).run :=
    OptionT.run_bind f
  rw [hrun]
  change (StateT.bind x.run _) memo = _
  simp only [StateT.bind, bind]
  cases x.run memo with
  | mk o memo => cases o <;> rfl

theorem Answers.bind {x : Query α} {f : α → Query β} {r : Option α} {g : α → Option β}
    (hx : Answers root n x r) (hf : ∀ a, Answers root n (f a) (g a)) :
    Answers root n (x >>= f) (r >>= g) := by
  intro memo h
  obtain ⟨hr, h'⟩ := hx memo h
  rw [run_bind]
  cases hrun : x.run memo with
  | mk o memo' =>
    rw [hrun] at hr h'
    subst hr
    cases o with
    | none => exact ⟨rfl, h'⟩
    | some a => exact hf a memo' h'

/-- What a query comes to may be handed on as it is. -/
theorem Answers.hand_on {x : Query α} {r : Option α} (hx : Answers root n x r) :
    Answers root n (x >>= pure) r := by
  rwa [bind_pure]

theorem Answers.ite {c : Prop} [Decidable c] {x y : Query α} {r r' : Option α}
    (hx : Answers root n x r) (hy : Answers root n y r') :
    Answers root n (if c then x else y) (if c then r else r') := by
  split
  · exact hx
  · exact hy

/-- Handing out what is kept, if it is right, comes to the same as working it out. -/
theorem answers_keeping {side : Side} {path : Path} {t : Tree} {work : Query BoundedSet}
    (ht : root.at? path = some t) (hwork : Answers root n work (t.ends? side n)) :
    Answers root n (keeping side path work) (t.ends? side n) := by
  intro memo h
  unfold keeping
  rw [OptionT.run_mk]
  cases hs : memo path side with
  | some s => exact ⟨(h path side t s ht hs).symm, h⟩
  | none =>
    obtain ⟨hr, h'⟩ := hwork memo h
    cases hrun : work.run memo with
    | mk o memo' =>
      rw [hrun] at hr h'
      cases o with
      | none => exact ⟨hr, h'⟩
      | some s => exact ⟨hr, h'.keep ht hr.symm⟩

mutual
/-- A query for the positions at one end answers like one that keeps nothing. -/
theorem answers_ends (side : Side) : ∀ {t : Tree} {path : Path}, root.at? path = some t →
    Answers root n (ends side n t path) (t.ends? side n)
  | .epsilon, path, ht => by
    refine answers_keeping ht ?_
    cases side <;> exact answers_pure _
  | .leaf l, path, ht => by
    refine answers_keeping ht ?_
    cases side <;> exact answers_access _
  | .counted l m, path, ht => by
    refine answers_keeping ht ?_
    cases side <;> exact answers_access _
  | .closure op t, path, ht => by
    have hbody := answers_ends side (at?_child ht (i := 0) (u := t) rfl)
    refine answers_keeping ht ?_
    cases side <;> exact hbody.bind fun s => answers_access _
  | .joined op l r, path, ht => by
    have hl := answers_ends side (at?_child ht (i := 0) (u := l) rfl)
    have hr := answers_ends side (at?_child ht (i := 1) (u := r) rfl)
    refine answers_keeping ht ?_
    cases side with
    | first =>
      have hboth := fun s : BoundedSet => hr.bind fun s' => answers_access (s.union? s')
      cases op with
      | choice => exact hl.bind fun s => (answers_access _).bind hboth
      | sequence =>
        exact hl.bind fun s => (answers_access _).bind fun s => (hboth s).ite (answers_pure s)
    | last =>
      have hboth := fun s : BoundedSet => hl.bind fun s' => answers_access (s.union? s')
      cases op with
      | choice => exact hr.bind fun s => (answers_access _).bind hboth
      | sequence =>
        exact hr.bind fun s => (answers_access _).bind fun s => (hboth s).ite (answers_pure s)
  | .all ts m, path, ht => by
    have hmembers := answers_endsOf side (i := 0) (.empty n) fun j t hj =>
      at?_child ht ((Nat.zero_add j).symm ▸ hj)
    refine answers_keeping ht ?_
    cases side <;> exact hmembers
theorem answers_endsOf (side : Side) : ∀ {ts : List Tree} {i : Nat} {path : Path} (s : BoundedSet),
    (∀ j t, ts[j]? = some t → root.at? ((i + j) :: path) = some t) →
      Answers root n (endsOf side n ts i path s) (endsOf? side n ts s)
  | [], i, path, s, _ => by cases side <;> exact answers_pure s
  | t :: ts, i, path, s, h => by
    have ht := answers_ends side (h 0 t rfl)
    have hts := fun s => answers_endsOf side s (at?_rest h)
    cases side <;> exact ht.bind fun s' => (answers_access _).bind fun s => hts s
end

mutual
/-- A query for followers answers like one that keeps nothing. -/
theorem answers_follow : ∀ {t : Tree} {path : Path} (table : Array BoundedSet),
    root.at? path = some t → Answers root n (follow n t path table) (t.follow? n table)
  | .epsilon, path, table, _ => answers_pure table
  | .leaf _, path, table, _ => answers_pure table
  | .counted l m, path, table, _ => (answers_pure table).ite (answers_access _)
  | .closure op t, path, table, ht => by
    have hat := at?_child ht (i := 0) (u := t) rfl
    have hbody := answers_follow table hat
    have haround := fun table => (answers_ends (n := n) .last hat).bind fun last =>
      (answers_ends .first hat).bind fun first => answers_access (changeAll? table last first)
    cases op with
    | optional => exact hbody.hand_on
    | star => exact hbody.bind haround
    | plus => exact hbody.bind haround
  | .joined op l r, path, table, ht => by
    have hl := at?_child ht (i := 0) (u := l) rfl
    have hr := at?_child ht (i := 1) (u := r) rfl
    have hleft := answers_follow table hl
    cases op with
    | choice => exact hleft.bind fun table => (answers_follow table hr).hand_on
    | sequence =>
      exact hleft.bind fun table => (answers_follow table hr).bind fun table =>
        (answers_ends .last hl).bind fun last => (answers_ends .first hr).bind fun first =>
          answers_access _
  | .all ts m, path, table, ht => by
    have hmembers := fun first => answers_followMembers first (i := 0) table fun j t hj =>
      at?_child ht ((Nat.zero_add j).symm ▸ hj)
    exact (answers_ends .first ht).bind hmembers
theorem answers_followMembers (first : BoundedSet) : ∀ {ts : List Tree} {i : Nat} {path : Path}
    (table : Array BoundedSet), (∀ j t, ts[j]? = some t → root.at? ((i + j) :: path) = some t) →
      Answers root n (followMembers n first ts i path table) (followMembers? n first ts table)
  | [], i, path, table, _ => answers_pure table
  | t :: ts, i, path, table, h => by
    have hat := h 0 t rfl
    exact (answers_follow table hat).bind fun table => (answers_ends .last hat).bind fun last =>
      (answers_access _).bind fun table => answers_followMembers first table (at?_rest h)
end

end Query

end ContentAutomata
