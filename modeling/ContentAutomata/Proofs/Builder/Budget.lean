import ContentAutomata.Proofs.Builder.History
import ContentAutomata.Proofs.Builder.Nodes
import ContentAutomata.Proofs.Run.Compiled

/-!
# The bound on the number of nodes

A draft pays for nodes as it goes, and how many nodes a draft of a particle has paid for is exactly
the number of nodes of the tree that comes out: no node is made in vain. So a bound decides by the
size of the tree alone. Under a bound that the tree keeps within, a draft does what it does without
one; under a smaller one it is refused.

`Metered` says both of a draft: how many nodes are paid for when it is done, and what becomes of it
under a bound. It is proved once for every step and follows for whole drafts along their recursion.

Results:
* `Metered.bind`: what is paid for adds up, and a bound is met by the first part or by the second;
* `metered_compact`, `metered_expanded`, `metered_allGroup`: the three ways to draw up a particle;
* `build_of_le`: a model stays the same when the bound is raised;
* `build_under_bound`: what a bound does to a build.
-/
namespace ContentAutomata

/-! ## Sizes -/

namespace Tree

theorem sizes_append (ts us : List Tree) : sizes (ts ++ us) = sizes ts + sizes us := by
  induction ts with
  | nil => simp [sizes]
  | cons t ts ih => simp [sizes, ih, Nat.add_assoc]

mutual
theorem size_number : ∀ (t : Tree) (k : Nat), (t.number k).1.size = t.size
  | epsilon, _ => rfl
  | leaf _, _ => rfl
  | counted _ _, _ => rfl
  | closure _ t, k => congrArg (· + 1) (size_number t k)
  | joined _ l r, k => by simp only [number, size, size_number l, size_number r]
  | all ts _, k => congrArg (· + 1) (sizes_numberAll ts k)
theorem sizes_numberAll : ∀ (ts : List Tree) (k : Nat), sizes (numberAll ts k).1 = sizes ts
  | [], _ => rfl
  | t :: ts, k => by simp only [numberAll, sizes, size_number t, sizes_numberAll ts]
end

end Tree

namespace SyntaxTree

variable {root : Option Tree} {isApproximate : Bool} {nodeCount : Nat}

theorem nodeCount_ofDraft : (ofDraft root isApproximate nodeCount).nodeCount = nodeCount := by
  cases root <;> rfl

theorem sizes_ofDraft :
    Tree.sizes (ofDraft root isApproximate nodeCount).root.toList = Tree.sizes root.toList := by
  cases root with
  | none => rfl
  | some t => exact congrArg (· + 0) (t.size_number 0)

end SyntaxTree

theorem Compilation.tree_ofTree (t : SyntaxTree) : (ofTree t).tree = some t := by
  unfold ofTree
  split <;> rfl

namespace Draft

/-! ## Drafts under a bound -/

/-- The state with a bound on the number of nodes. -/
def State.within (s : State) (bound : Nat) : State :=
  { s with ledger := ⟨some bound, s.ledger.spent⟩ }

/-- What comes of a draft under a bound, from what comes of it without one: the same as long as no
more nodes are paid for than there may be. -/
inductive Follows {α : Type} (bound : Nat) :
    Except Failure (α × State) → Except Failure (α × State) → Prop
  | same {a : α} {s : State} (h : s.ledger.spent ≤ bound) :
    Follows bound (.ok (a, s)) (.ok (a, s.within bound))
  | refused {a : α} {s : State} {failure : Failure} (h : bound < s.ledger.spent)
    (he : failure.error = .tooManyNodes bound) : Follows bound (.ok (a, s)) (.error failure)
  | failed {failure failure' : Failure}
    (he : failure'.error = failure.error ∨ failure'.error = .tooManyNodes bound) :
    Follows bound (.error failure) (.error failure')

variable {α β : Type} {k bound : Nat}

/-- After `k` nodes were paid for, `x` comes to something that `Q` holds of, together with the
number of nodes paid for by then, and `y` does the same under a bound as long as it can. -/
structure Metered (k : Nat) (x y : Draft α) (Q : α → Nat → Prop) : Prop where
  paid : ∀ {s s' : State} {a : α}, s.ledger = ⟨none, k⟩ → x s = .ok (a, s') →
    ∃ n, k ≤ n ∧ s'.ledger = ⟨none, n⟩ ∧ Q a n
  follows : ∀ {s : State} {bound : Nat}, s.ledger = ⟨none, k⟩ → k ≤ bound →
    Follows bound (x s) (y (s.within bound))

variable {x y : Draft α} {f g : α → Draft β} {P Q : α → Nat → Prop} {R : β → Nat → Prop}

theorem Metered.imp (h : Metered k x y P) (hq : ∀ a n, P a n → Q a n) : Metered k x y Q where
  paid hs hx := by
    obtain ⟨n, hle, hs', hp⟩ := h.paid hs hx
    exact ⟨n, hle, hs', hq _ _ hp⟩
  follows := h.follows

theorem metered_pure {a : α} (h : Q a k) : Metered k (pure a) (pure a) Q where
  paid hs hx := by
    cases pure_eq_ok.1 hx
    exact ⟨k, Nat.le_refl k, hs, h⟩
  follows hs hle := .same (by rw [hs]; exact hle)

/-- What a draft has come to may be taken apart by what is known of drafts that succeed. -/
theorem Metered.attach (h : Metered k x y Q) :
    Metered k x y fun a n => Q a n ∧ ∃ s s', x s = .ok (a, s') where
  paid hs hx := by
    obtain ⟨n, hle, hs', hq⟩ := h.paid hs hx
    exact ⟨n, hle, hs', hq, _, _, hx⟩
  follows := h.follows

/-- What is paid for adds up, and a bound is met by the first part or by the second. -/
theorem Metered.bind (hx : Metered k x y P) (hf : ∀ a n, P a n → Metered n (f a) (g a) R) :
    Metered k (x >>= f) (y >>= g) R where
  paid hs h := by
    obtain ⟨a, s₁, hxs, hfs⟩ := bind_eq_ok.1 h
    obtain ⟨n, hle, hs₁, hp⟩ := hx.paid hs hxs
    obtain ⟨n', hle', hs', hr⟩ := (hf a n hp).paid hs₁ hfs
    exact ⟨n', hle.trans hle', hs', hr⟩
  follows {s bound} hs hle := by
    have hfollows := hx.follows hs hle
    have ex : (x >>= f) s = x s >>= fun r => f r.1 r.2 := rfl
    have ey : (y >>= g) (s.within bound) = y (s.within bound) >>= fun r => g r.1 r.2 := rfl
    rw [ex, ey]
    cases hxs : x s with
    | error failure =>
      rw [hxs] at hfollows
      generalize y (s.within bound) = r at hfollows
      cases hfollows with
      | failed he => exact .failed he
    | ok r =>
      obtain ⟨a, s₁⟩ := r
      obtain ⟨n, -, hs₁, hp⟩ := hx.paid hs hxs
      rw [hxs] at hfollows
      generalize y (s.within bound) = r at hfollows
      cases hfollows with
      | same hn =>
        rw [hs₁] at hn
        exact (hf a n hp).follows hs₁ hn
      | refused hn he =>
        -- without a bound, what comes next can only have paid for more
        change Follows bound (f a s₁) (.error _)
        cases hfs : f a s₁ with
        | error failure => exact .failed (.inr he)
        | ok r =>
          obtain ⟨n', hle', hs', -⟩ := (hf a n hp).paid hs₁ hfs
          refine .refused ?_ he
          rw [hs₁] at hn
          rw [hs']
          exact Nat.lt_of_lt_of_le hn hle'

/-- A draft that comes to something without a bound comes to the same under one, or is refused. -/
theorem Metered.answer_of_ok (h : Metered k x y Q) {s : State} (hs : s.ledger = ⟨none, k⟩) {a : α}
    (hx : x.answer s = .ok a) :
    ∃ n, Q a n ∧ ∀ bound, k ≤ bound → y.answer (s.within bound) =
      if n ≤ bound then .ok a else .error (.tooManyNodes bound) := by
  unfold answer at hx ⊢
  cases hxs : x s with
  | error failure => simp [hxs] at hx
  | ok r =>
    obtain ⟨a', s'⟩ := r
    simp only [hxs, Except.ok.injEq] at hx
    subst hx
    obtain ⟨n, -, hs', hq⟩ := h.paid hs hxs
    refine ⟨n, hq, fun bound hle => ?_⟩
    have hfollows := h.follows hs hle
    rw [hxs] at hfollows
    generalize y (s.within bound) = r at hfollows
    cases hfollows with
    | same hn =>
      rw [hs'] at hn
      rw [if_pos hn]
    | refused hn he =>
      rw [hs'] at hn
      rw [if_neg (Nat.not_le.2 hn)]
      exact congrArg _ he

/-- A draft that is refused without a bound is refused under one. -/
theorem Metered.answer_of_error (h : Metered k x y Q) {s : State} (hs : s.ledger = ⟨none, k⟩)
    {e : Error} (hx : x.answer s = .error e) (hle : k ≤ bound) :
    y.answer (s.within bound) = .error e ∨
      y.answer (s.within bound) = .error (.tooManyNodes bound) := by
  unfold answer at hx ⊢
  cases hxs : x s with
  | ok r => simp [hxs] at hx
  | error failure =>
    simp only [hxs, Except.error.injEq] at hx
    subst hx
    have hfollows := h.follows hs hle
    rw [hxs] at hfollows
    generalize y (s.within bound) = r at hfollows
    cases hfollows with
    | failed he => exact he.imp (congrArg _) (congrArg _)

/-- A step that pays for nothing. -/
theorem Metered.bind_free (hx : Metered k x y fun _ n => n = k)
    (hf : ∀ a, Metered k (f a) (g a) R) : Metered k (x >>= f) (y >>= g) R :=
  hx.bind fun a _ hn => hn ▸ hf a

theorem Metered.map {h : α → β} (hx : Metered k x y fun a n => R (h a) n) :
    Metered k (h <$> x) (h <$> y) R := by
  rw [map_eq_pure_bind, map_eq_pure_bind]
  exact hx.bind fun _ _ hr => metered_pure hr

theorem Metered.ite {c : Prop} [Decidable c] {x' y' : Draft α} (hx : c → Metered k x y Q)
    (hy : ¬ c → Metered k x' y' Q) : Metered k (if c then x else x') (if c then y else y') Q := by
  split
  · exact hx ‹_›
  · exact hy ‹_›

/-! ## Single steps -/

theorem metered_pay (count : Nat) :
    Metered k (pay count) (pay count) fun _ n => n = k + count where
  paid {s s' a} hs hx := by
    rw [pay_of_unbounded (by rw [hs]), hs] at hx
    cases hx
    exact ⟨k + count, Nat.le_add_right _ _, rfl, rfl⟩
  follows {s bound} hs hle := by
    rw [pay_of_unbounded (by rw [hs]), hs]
    by_cases hn : k + count ≤ bound
    · have hspend : (s.within bound).ledger.spend count = .ok ⟨some bound, k + count⟩ := by
        rw [Ledger.spend_eq_ok]
        simp [State.within, hs, hn]
      unfold pay
      rw [hspend]
      exact .same hn
    · have hspend : (s.within bound).ledger.spend count = .error (.tooManyNodes bound) := by
        rw [Ledger.spend_eq_error]
        exact ⟨bound, rfl, by simp only [State.within, hs]; omega, rfl⟩
      unfold pay
      rw [hspend]
      exact .refused (Nat.not_le.1 hn) rfl

theorem Metered.pay_bind {count : Nat} {f g : Unit → Draft β}
    (hf : Metered (k + count) (f ()) (g ()) R) : Metered k (pay count >>= f) (pay count >>= g) R :=
  (metered_pay count).bind fun _ _ hn => hn ▸ hf

/-- A step that does not touch the ledger and succeeds. -/
theorem metered_of_eq_ok {x : Draft α} {a : State → α} {next : State → Nat}
    (hx : ∀ s, x s = .ok (a s, { s with nextParticle := next s }))
    (ha : ∀ s bound, a (s.within bound) = a s) (hnext : ∀ s bound, next (s.within bound) = next s) :
    Metered k x x fun _ n => n = k where
  paid {s s' b} hs h := by
    rw [hx] at h
    cases h
    exact ⟨k, Nat.le_refl k, hs, rfl⟩
  follows {s bound} hs hle := by
    rw [hx, hx, ha, hnext]
    exact .same (by rw [hs]; exact hle)

theorem metered_newParticle : Metered k newParticle newParticle fun _ n => n = k :=
  metered_of_eq_ok (fun _ => rfl) (fun _ _ => rfl) fun _ _ => rfl

theorem metered_startNumbering : Metered k startNumbering startNumbering fun _ n => n = k :=
  metered_of_eq_ok (fun _ => rfl) (fun _ _ => rfl) fun _ _ => rfl

theorem metered_require (check : Except Error Unit) :
    Metered k (require check) (require check) fun _ n => n = k where
  paid {s s' a} hs hx := by
    obtain ⟨-, rfl⟩ := require_eq_ok.1 hx
    exact ⟨k, Nat.le_refl k, hs, rfl⟩
  follows {s bound} hs hle := by
    cases check with
    | error e => exact .failed (.inl rfl)
    | ok _ => exact .same (by rw [hs]; exact hle)

theorem metered_refuse (e : Error) : Metered k (refuse e) (refuse e) Q where
  paid _ hx := by cases hx
  follows _ _ := .failed (.inl rfl)

/-- How many nodes were paid for does not depend on the bound. -/
theorem metered_spent (h : Nat → α) (hq : Q (h k) k) :
    Metered k (do return h (← get).ledger.spent) (do return h (← get).ledger.spent) Q where
  paid {s s' a} hs hx := by
    cases hx
    exact ⟨k, Nat.le_refl k, hs, by rw [hs]; exact hq⟩
  follows {s bound} hs hle := .same (a := h s.ledger.spent) (by rw [hs]; exact hle)

/-! ## Terms and groups -/

theorem metered_compose (c : Compositor) (total : Nat) (built : List Tree) :
    Metered k (compose c total built) (compose c total built) fun t n =>
      n + Tree.sizes built = k + Tree.sizes t.toList := by
  refine .pay_bind (metered_pure ?_)
  cases h : composed c (built.length < total) built with
  | none =>
    rw [composed_eq_none_iff] at h
    subst h
    rfl
  | some t =>
    have hsize := size_composed h
    simp only [Option.toList_some, Tree.sizes, hsize]
    omega

theorem metered_compactTerm (term : Term) (m : Multiplicity) :
    Metered k (compactTerm term m) (compactTerm term m) fun t n => n = k + t.size :=
  metered_newParticle.bind_free fun _ => .pay_bind (metered_pure rfl)

theorem metered_expandedTerm (purpose : Purpose) (term : Term) (m : Multiplicity) :
    Metered k (expandedTerm purpose term m) (expandedTerm purpose term m) fun t n =>
      n = k + t.size := by
  rw [expandedTerm_eq]
  exact metered_newParticle.bind_free fun _ => .pay_bind (metered_pure rfl)

theorem metered_expandedGroup (purpose : Purpose) (t : Tree) (m : Multiplicity) :
    Metered k (expandedGroup purpose t m) (expandedGroup purpose t m) fun t' n =>
      n + t.size = k + t'.size := by
  refine .pay_bind (metered_pure ?_)
  have hle := Tree.le_repeatedSize t.size (spelledOut purpose m)
  rw [Tree.size_repeated]
  omega

/-! ## Particles -/

section Particles

variable {limits limits' : Limits} {purpose : Purpose}

/-- Of the limits, only the depth matters to what a draft of a particle checks. -/
theorem inspect_congr (hd : limits'.depth = limits.depth) :
    inspect limits' = inspect limits := by
  funext depth m
  unfold inspect Limits.checkDepth
  rw [hd]

/-- A particle that is drawn up if it may occur. -/
theorem Metered.inspected {depth : Nat} {m : Multiplicity} {u v : Draft (Option α)}
    {P : Option α → Nat → Prop} (hd : limits'.depth = limits.depth) (h : Metered k u v P)
    (hp : P none k) :
    Metered k (do if ← inspect limits depth m then u else return none)
      (do if ← inspect limits' depth m then v else return none) P := by
  rw [inspect_congr hd]
  have hinspect : Metered k (inspect limits depth m) (inspect limits depth m) fun _ n => n = k :=
    (metered_require _).bind_free fun _ => (metered_require _).bind_free fun _ => metered_pure rfl
  exact hinspect.bind_free fun _ => .ite (fun _ => h) fun _ => metered_pure hp

mutual
theorem metered_compact (hd : limits'.depth = limits.depth) :
    ∀ (p : Particle) (depth k : Nat), Metered k (compact limits p depth) (compact limits' p depth)
      fun t n => n = k + Tree.sizes t.toList
  | .element name m, depth, k => by
    unfold compact
    exact .inspected hd (metered_compactTerm _ _).map rfl
  | .wildcard w, depth, k => by
    unfold compact
    exact .inspected hd (metered_compactTerm _ _).map rfl
  | .group c members m, depth, k => by
    unfold compact
    refine .inspected hd ?_ rfl
    refine (metered_require _).bind_free fun _ => ?_
    split
    · exact (metered_compactTerm _ _).map
    · refine (metered_compactAll hd members (depth + 1) k).bind fun built n hn => ?_
      refine (metered_compose _ _ _).imp fun t n' hn' => ?_
      omega
theorem metered_compactAll (hd : limits'.depth = limits.depth) :
    ∀ (ps : List Particle) (depth k : Nat), Metered k (compactAll limits ps depth)
      (compactAll limits' ps depth) fun ts n => n = k + Tree.sizes ts
  | [], depth, k => metered_pure rfl
  | p :: ps, depth, k => by
    unfold compactAll
    refine (metered_compact hd p depth k).bind fun t n hn => ?_
    refine (metered_compactAll hd ps depth n).bind fun ts n' hn' => metered_pure ?_
    rw [Tree.sizes_append, hn', hn, Nat.add_assoc]
end

mutual
theorem metered_expanded (hd : limits'.depth = limits.depth) :
    ∀ (p : Particle) (depth k : Nat), Metered k (expanded limits purpose p depth)
      (expanded limits' purpose p depth) fun r n => n = k + Tree.sizes (r.toList.map (·.1))
  | .element name m, depth, k => by
    unfold expanded
    refine .inspected hd ?_ rfl
    exact (metered_expandedTerm _ _ _).bind fun t n hn => metered_pure hn
  | .wildcard w, depth, k => by
    unfold expanded
    refine .inspected hd ?_ rfl
    exact (metered_expandedTerm _ _ _).bind fun t n hn => metered_pure hn
  | .group c members m, depth, k => by
    unfold expanded
    refine .inspected hd ?_ rfl
    refine (metered_require _).bind_free fun _ => ?_
    refine (metered_expandedAll hd members (depth + 1) k).bind fun built n₁ hn₁ => ?_
    refine (metered_compose _ _ _).bind fun t n₂ hn₂ => ?_
    cases t with
    | none => exact metered_pure (by simp [Tree.sizes] at hn₂ ⊢; omega)
    | some t =>
      refine (metered_expandedGroup _ _ _).bind fun t' n₃ hn₃ => metered_pure ?_
      simp [Tree.sizes] at hn₂ ⊢
      omega
theorem metered_expandedAll (hd : limits'.depth = limits.depth) :
    ∀ (ps : List Particle) (depth k : Nat), Metered k (expandedAll limits purpose ps depth)
      (expandedAll limits' purpose ps depth) fun rs n => n = k + Tree.sizes (rs.map (·.1))
  | [], depth, k => metered_pure rfl
  | p :: ps, depth, k => by
    unfold expandedAll
    refine (metered_expanded hd p depth k).bind fun r n hn => ?_
    refine (metered_expandedAll hd ps depth n).bind fun rs n' hn' => metered_pure ?_
    rw [List.map_append, Tree.sizes_append, hn', hn, Nat.add_assoc]
end

theorem metered_complete {root : Option Tree} {isApproximate : Bool} {n : Nat}
    (h : n = k + Tree.sizes root.toList) :
    Metered n (do return SyntaxTree.ofDraft root isApproximate (← get).ledger.spent)
      (do return SyntaxTree.ofDraft root isApproximate (← get).ledger.spent) fun t n =>
        t.nodeCount = n ∧ n = k + Tree.sizes t.root.toList := by
  refine metered_spent (fun spent => SyntaxTree.ofDraft root isApproximate spent) ?_
  rw [SyntaxTree.sizes_ofDraft]
  exact ⟨SyntaxTree.nodeCount_ofDraft, h⟩

theorem metered_syntaxTree (hd : limits'.depth = limits.depth) (p : Particle) (k : Nat) :
    Metered k (SyntaxTree.draft limits purpose p) (SyntaxTree.draft limits' purpose p) fun t n =>
      t.nodeCount = n ∧ n = k + Tree.sizes t.root.toList := by
  unfold SyntaxTree.draft
  refine metered_startNumbering.bind_free fun _ => .ite (fun _ => ?_) fun _ => ?_
  · exact (metered_compact hd p 1 k).bind fun t n hn => metered_complete hn
  · refine (metered_expanded hd p 1 k).bind fun r n hn => ?_
    cases r <;> exact metered_complete hn

theorem metered_allMembers (ps : List Particle) (k : Nat) :
    Metered k (allMembers ps) (allMembers ps) fun ts n =>
      n = k + Tree.sizes ts ∧ Tree.sizes ts = ps.countP fun p => !p.occurs.isNever := by
  induction ps generalizing k with
  | nil => exact metered_pure ⟨rfl, rfl⟩
  | cons p ps ih =>
    unfold allMembers
    split
    · exact metered_refuse _
    · refine (metered_require _).bind_free fun _ => .ite (fun hnever => ?_) fun hnever => ?_
      · refine (ih k).imp fun ts n hn => ?_
        simpa [hnever] using hn
      · refine metered_newParticle.bind_free fun i => .pay_bind ?_
        refine (ih (k + 1)).bind fun ts n hn => metered_pure ?_
        obtain ⟨rfl, hcount⟩ := hn
        rw [List.countP_cons_of_pos (by simpa using hnever), Tree.sizes, Tree.size, hcount]
        omega

theorem metered_allGroup (members : List Particle) (m : Multiplicity) (k : Nat) :
    Metered k (allGroup members m) (allGroup members m) fun t n => n = k + Tree.sizes t.toList ∧
      (m.isNever = false →
        Tree.sizes t.toList = members.countP (fun p => !p.occurs.isNever) + 1) := by
  unfold allGroup
  refine (metered_require _).bind_free fun _ => .ite (fun hnever => ?_) fun _ => ?_
  · exact metered_pure ⟨rfl, fun h => by simp [h] at hnever⟩
  · refine metered_startNumbering.bind_free fun _ => ?_
    refine (metered_allMembers members k).bind fun ts n hn => .pay_bind (metered_pure ?_)
    obtain ⟨rfl, hcount⟩ := hn
    exact ⟨rfl, fun _ => congrArg (· + 1) hcount⟩

end Particles

end Draft

/-! ## The tree that is drawn up -/

namespace Particle

variable {purpose : Purpose} {p : Particle}

/-- The tree that is drawn up for a particle, if it may occur. -/
def drawn (purpose : Purpose) : Particle → Option Tree
  | group .all members m => if m.isNever then none else some (.all (memberTrees members 0) m)
  | p => p.tree purpose

/-- The number of nodes of that tree. -/
def nodeCount (purpose : Purpose) (p : Particle) : Nat := Tree.sizes (p.drawn purpose).toList

theorem drawn_of_not_all (hp : p.isAllGroup = false) : p.drawn purpose = p.tree purpose := by
  apply notAll_cases hp <;> intros <;> rfl

theorem nodeCount_eq_zero_iff : p.nodeCount purpose = 0 ↔ p.drawn purpose = none := by
  unfold nodeCount
  cases p.drawn purpose with
  | none => simp [Tree.sizes]
  | some t => simp [Tree.sizes, t.size_pos.ne']

theorem model_eq_empty_iff : p.model purpose = .empty ↔ p.drawn purpose = none := by
  have htree : ∀ (isApproximate : Bool) (t : Option Tree),
      Model.ofTree isApproximate t = .empty ↔ t = none := by
    intro isApproximate t
    cases t <;> simp [Model.ofTree]
  cases hp : p.isAllGroup with
  | false => rw [model_of_not_all hp, drawn_of_not_all hp, htree]
  | true =>
    obtain ⟨members, m, rfl⟩ := exists_of_isAllGroup hp
    cases hn : m.isNever <;> simp [model, drawn, hn]

theorem drawn_eq_none_iff (hp : p.isAllGroup = false) :
    p.drawn purpose = none ↔ p.vanishes = true := by
  rw [drawn_of_not_all hp, tree]
  split
  · rename_i hc
    exact compactTree_eq_none_iff 0 hc
  · exact expandedTree_eq_none_iff purpose p 0

end Particle

/-! ## Builds -/

/-- What is known of a compilation when `n` nodes were paid for. -/
structure Compilation.IsPaid (purpose : Purpose) (p : Particle) (c : Compilation) (n : Nat) :
    Prop where
  /-- All nodes are those of the tree that is drawn up. -/
  eq_nodeCount : n = p.nodeCount purpose
  /-- The tree has that many nodes, and says so. -/
  tree : ∀ t, c.tree = some t → t.nodeCount = n ∧ Tree.sizes t.root.toList = n
  /-- The tree of an `all` group has one node for each member and one for the group. -/
  all : ∀ members m, p = .group .all members m → m.isNever = false →
    n = members.countP (fun p => !p.occurs.isNever) + 1

namespace Draft

variable {limits limits' : Limits} {purpose : Purpose}

theorem metered_allCompilation (members : List Particle) (m : Multiplicity) :
    Metered 0 (Compilation.allGroup members m) (Compilation.allGroup members m)
      (Compilation.IsPaid purpose (.group .all members m)) := by
  refine (metered_allGroup members m 0).attach.bind fun t n hn => ?_
  obtain ⟨⟨hpaid, hcount⟩, s, s', ht⟩ := hn
  obtain rfl := allGroup_eq_ok ht
  have hsize : n = (Particle.group .all members m).nodeCount purpose := by
    rw [hpaid, Nat.zero_add]
    rfl
  have hall : ∀ members' m', Particle.group .all members m = .group .all members' m' →
      m'.isNever = false → n = members'.countP (fun p => !p.occurs.isNever) + 1 := by
    intro members' m' he hn
    cases he
    rw [hpaid, hcount hn, Nat.zero_add]
  split <;> exact metered_pure ⟨hsize, nofun, hall⟩

theorem metered_ofParticle (hd : limits'.depth = limits.depth) (p : Particle) :
    Metered 0 (Compilation.ofParticle limits purpose p) (Compilation.ofParticle limits' purpose p)
      (Compilation.IsPaid purpose p) := by
  cases hp : p.isAllGroup with
  | true =>
    obtain ⟨members, m, rfl⟩ := Particle.exists_of_isAllGroup hp
    exact metered_allCompilation members m
  | false =>
    rw [Compilation.ofParticle_of_not_all hp, Compilation.ofParticle_of_not_all hp]
    refine ((metered_syntaxTree hd p 0).attach.imp fun t n hn => ?_).map
    obtain ⟨⟨hcount, hpaid⟩, s, s', ht⟩ := hn
    have htree : ∀ u, (Compilation.ofTree t).tree = some u → u = t := by
      intro u hu
      rw [Compilation.tree_ofTree] at hu
      exact (Option.some.inj hu).symm
    rw [Nat.zero_add] at hpaid
    refine ⟨?_, fun u hu => by rw [htree u hu]; exact ⟨hcount, hpaid.symm⟩, ?_⟩
    · obtain ⟨-, nodeCount, rfl⟩ := SyntaxTree.draft_eq_ok ht
      rw [hpaid, SyntaxTree.sizes_ofDraft, Particle.nodeCount, Particle.drawn_of_not_all hp]
    · rintro members m rfl
      cases hp

end Draft

namespace Builder

variable {limits limits' : Limits} {bound : Nat} {p : Particle} {purpose : Purpose}
  {c : Compilation}

theorem build_setLimits_fst (b : Builder) (limits : Limits) (p : Particle) (purpose : Purpose) :
    ((b.setLimits limits).build p purpose).1 =
      (Compilation.ofParticle limits purpose p).answer ⟨.ofLimits limits, 0, []⟩ := by
  have hclean : (b.setLimits limits).IsClean := rfl
  unfold build
  rw [hclean.run_fst (Draft.startsAnew_ofParticle _ _ p), run_eq]
  rfl

/-- Under a bound, a build comes to what it comes to without one, unless the tree has too many
nodes. -/
theorem build_of_ok (b b' : Builder) (hn : limits.nodeBound = none)
    (hd : limits'.depth = limits.depth) (hb : limits'.nodeBound = some bound)
    (h : ((b.setLimits limits).build p purpose).1 = .ok c) :
    c.IsPaid purpose p (p.nodeCount purpose) ∧ ((b'.setLimits limits').build p purpose).1 =
      if p.nodeCount purpose ≤ bound then .ok c else .error (.tooManyNodes bound) := by
  rw [build_setLimits_fst, Ledger.ofLimits, hn] at h
  obtain ⟨n, hpaid, hbound⟩ := (Draft.metered_ofParticle hd p).answer_of_ok rfl h
  obtain rfl := hpaid.eq_nodeCount
  refine ⟨hpaid, ?_⟩
  rw [build_setLimits_fst, Ledger.ofLimits, hb]
  exact hbound bound (Nat.zero_le _)

/-- A build that fails without a bound fails under one. -/
theorem build_of_error (b b' : Builder) (hn : limits.nodeBound = none)
    (hd : limits'.depth = limits.depth) (hb : limits'.nodeBound = some bound) {e : Error}
    (h : ((b.setLimits limits).build p purpose).1 = .error e) :
    ((b'.setLimits limits').build p purpose).1 = .error e ∨
      ((b'.setLimits limits').build p purpose).1 = .error (.tooManyNodes bound) := by
  rw [build_setLimits_fst, Ledger.ofLimits, hn] at h
  rw [build_setLimits_fst, Ledger.ofLimits, hb]
  exact (Draft.metered_ofParticle hd p).answer_of_error rfl h (Nat.zero_le _)

/-- Nothing is reported of a particle that is compiled. -/
theorem kept_of_ok (c : Compilation) (level : Level) :
    (Reporter.collector.absorb (buildEvents level (.ok c))).1.kept = [] := by
  rw [Reporter.kept_absorb_collector]
  refine List.filterMap_eq_nil_iff.2 fun e he => ?_
  cases e with
  | record => rfl
  | diagnostic d => exact absurd he Compilation.diagnostic_not_mem_events

/-- Too many nodes are reported once. -/
theorem kept_of_tooManyNodes (bound : Nat) (level : Level) :
    (Reporter.collector.absorb (buildEvents level (.error (.tooManyNodes bound)))).1.kept =
      [.nodeLimit bound] := by
  rw [Reporter.kept_absorb_collector]
  rfl

/-- What a particle is compiled to does not change when the bound is raised. -/
theorem build_of_le (b b' : Builder) {higher : Limits} {bound' : Nat}
    (hb : limits.nodeBound = some bound) (hb' : higher.nodeBound = some bound')
    (hd : higher.depth = limits.depth) (hle : bound ≤ bound')
    (h : ((b.setLimits limits).build p purpose).1 = .ok c) :
    ((b'.setLimits higher).build p purpose).1 = .ok c := by
  let free : Limits := { limits with nodes := none }
  have hfree : free.nodeBound = none := rfl
  have hdepth : limits.depth = free.depth := rfl
  cases hbuild : ((b.setLimits free).build p purpose).1 with
  | error e =>
    rcases build_of_error b b hfree hdepth hb hbuild with he | he <;> rw [he] at h <;> cases h
  | ok c' =>
    obtain ⟨-, hc⟩ := build_of_ok b b hfree hdepth hb hbuild
    obtain ⟨-, hc'⟩ := build_of_ok b b' hfree hd hb' hbuild
    rw [hc] at h
    split at h
    · rename_i hsize
      rw [hc', if_pos (hsize.trans hle), h]
    · cases h

/-- Take a particle that is compiled without a bound on the number of nodes. Under a bound, it is
compiled to the same model and nothing is reported if its tree has no more nodes than that;
otherwise it is refused, which is reported once. The ledger is cleared afterwards. The same comes of
making the nodes one at a time, so the nodes that are made are those of the tree. The model stays
the same when the bound is raised. -/
theorem build_under_bound (b b' : Builder) (level : Level) (hn : limits.nodeBound = none)
    (hd : limits'.depth = limits.depth) (hb : limits'.nodeBound = some bound)
    (h : ((b.setLimits limits).build p purpose).1 = .ok c) :
    let size := p.nodeCount purpose
    let r := (b'.setLimits limits').build p purpose
    let kept := (Reporter.collector.absorb (buildJournal level r)).1.kept
    (size ≤ bound → r.1 = .ok c ∧ kept = []) ∧
      (bound < size → r.1 = .error (.tooManyNodes bound) ∧ kept = [.nodeLimit bound]) ∧
      r.2.ledger.spent = 0 ∧
      (b'.setLimits limits').run (Assembly.ofParticle limits' purpose p).run =
        (r.1.map some, r.2) ∧
      (∀ t, c.tree = some t → t.nodeCount = size ∧ Tree.sizes t.root.toList = size) ∧
      (c.model = .empty ↔ size = 0) ∧
      (p.isAllGroup = false → (p.vanishes = true ↔ size = 0)) ∧
      (∀ members m, p = .group .all members m → m.isNever = false →
        size = members.countP (fun p => !p.occurs.isNever) + 1) ∧
      ∀ higher bound' c', higher.nodeBound = some bound' → higher.depth = limits.depth →
        bound ≤ bound' → r.1 = .ok c' → ((b'.setLimits higher).build p purpose).1 = .ok c' := by
  intro size r kept
  obtain ⟨hpaid, hr⟩ := build_of_ok b b' hn hd hb h
  have hmodel : c.model = p.model purpose := model_of_build (Prod.ext h rfl)
  have hnodes := run_ofParticle (b'.setLimits limits') p purpose fun _ _ => Nat.zero_le _
  refine ⟨fun hle => ?_, fun hlt => ?_, run_spent _ _, hnodes, hpaid.tree, ?_, fun hp => ?_,
    hpaid.all, fun higher bound' c' hb' hd' hle hr =>
      build_of_le b' b' hb hb' (hd'.trans hd.symm) hle hr⟩
  · rw [if_pos hle] at hr
    have hkept : kept = [] := by
      simp only [kept, r, buildJournal_eq, hr, kept_of_ok]
    exact ⟨hr, hkept⟩
  · rw [if_neg (Nat.not_le.2 hlt)] at hr
    have hkept : kept = [.nodeLimit bound] := by
      simp only [kept, r, buildJournal_eq, hr, kept_of_tooManyNodes]
    exact ⟨hr, hkept⟩
  · rw [hmodel, Particle.model_eq_empty_iff, Particle.nodeCount_eq_zero_iff]
  · rw [Particle.nodeCount_eq_zero_iff, Particle.drawn_eq_none_iff hp]

/-- `a` and `b` twice takes seven nodes: a bound of seven makes no difference, one of six does. -/
theorem build_under_bound_twice :
    let p : Particle := .group .sequence
      [.element (.bare "a") .once, .element (.bare "b") .once] ⟨2, some 2⟩
    let roomy : Limits := ⟨some 7, 1, 1000⟩
    let tight : Limits := ⟨some 6, 1, 1000⟩
    let refused := (new tight).build p .validation
    ∃ c, ((new .unlimited).build p .validation).1 = .ok c ∧ p.nodeCount .validation = 7 ∧
      ((new roomy).build p .validation).1 = .ok c ∧ refused.1 = .error (.tooManyNodes 6) ∧
      (Reporter.collector.absorb (buildJournal .warn refused)).1.kept = [.nodeLimit 6] ∧
      refused.2.ledger.spent = 0 := by
  intro p roomy tight refused
  have hbuild : ∃ c, ((new .unlimited).build p .validation).1 = .ok c := ⟨_, rfl⟩
  obtain ⟨c, h⟩ := hbuild
  have hfree : Limits.unlimited.nodeBound = none := rfl
  have hroomy : roomy.depth = Limits.unlimited.depth ∧ roomy.nodeBound = some 7 := ⟨rfl, rfl⟩
  have htight : tight.depth = Limits.unlimited.depth ∧ tight.nodeBound = some 6 := ⟨rfl, rfl⟩
  have hsize : p.nodeCount .validation = 7 := by
    let t : Tree := .joined .sequence (.leaf ⟨.element (.bare "a"), 0, 0⟩)
      (.leaf ⟨.element (.bare "b"), 1, 0⟩)
    have hdrawn : p.drawn .validation = some (t.repeated ⟨2, some 2⟩) := rfl
    rw [Particle.nodeCount, hdrawn, Option.toList_some, Tree.sizes, Tree.size_repeated]
    rfl
  obtain ⟨hsame, -⟩ :=
    build_under_bound (new .unlimited) (new roomy) .warn hfree hroomy.1 hroomy.2 h
  obtain ⟨-, hrefused, hspent, -⟩ :=
    build_under_bound (new .unlimited) (new tight) .warn hfree htight.1 htight.2 h
  rw [hsize] at hsame hrefused
  obtain ⟨herror, hkept⟩ := hrefused (by decide)
  exact ⟨c, h, hsize, (hsame (by decide)).1, herror, hkept, hspent⟩

end Builder

end ContentAutomata
