import ContentAutomata.Proofs.Tree.Adjacent
import ContentAutomata.Proofs.Tree.Kept

/-!
# Numbering trees whose nodes keep sets

Sets of positions that nodes keep are worth nothing once the positions change. So whoever numbers
the leaves anew has to see to it that every node below forgets what it keeps. A `Node` is a tree
with what its nodes keep; it can be numbered, and asked for the positions of any of its nodes.

Whatever is kept, and whatever was asked or numbered before: once the leaves were numbered anew,
every answer for one capacity is the set that belongs to the node, as read off the words of its
subtree.

Results:
* `forgets_renumber`: numbering makes every node forget what it keeps;
* `Node.serveAll_queries`: queries for one capacity keep what is kept right;
* `Node.positions_of_numbered`: the answers after numbering, through words of positions.
-/
namespace ContentAutomata

open ContentAutomata.Tree
open scoped Computability

/-! ## Numbering -/

namespace Memo

variable {α β : Type}

/-- The computation comes to `a`; it keeps nothing anew, and makes the nodes of `nodes` forget what
they keep. -/
def Forgets (x : StateM Memo α) (a : α) (nodes : Path → Prop) : Prop :=
  ∀ memo, (x.run memo).1 = a ∧ ∀ path side,
    ((x.run memo).2 path side = memo path side ∨ (x.run memo).2 path side = none) ∧
      (nodes path → (x.run memo).2 path side = none)

theorem forgets_pure (a : α) : Forgets (pure a) a fun _ => False :=
  fun _ => ⟨rfl, fun _ _ => ⟨.inl rfl, False.elim⟩⟩

theorem forgets_forget (path : Path) :
    Forgets (modify fun memo : Memo => memo.forget path) PUnit.unit (· = path) := by
  refine fun memo => ⟨rfl, fun path' side => ?_⟩
  change ((memo.forget path) path' side = _ ∨ (memo.forget path) path' side = _) ∧
    (_ → (memo.forget path) path' side = _)
  unfold forget
  by_cases h : path' = path
  · subst h
    simp
  · simp [h]

theorem Forgets.bind {x : StateM Memo α} {f : α → StateM Memo β} {a : α} {b : β}
    {nodes nodes' : Path → Prop} (hx : Forgets x a nodes) (hf : Forgets (f a) b nodes') :
    Forgets (x >>= f) b fun path => nodes path ∨ nodes' path := by
  intro memo
  obtain ⟨ha, hmemo⟩ := hx memo
  have hrun : (x >>= f).run memo = (f (x.run memo).1).run (x.run memo).2 := rfl
  rw [hrun, ha]
  obtain ⟨hb, hmemo'⟩ := hf (x.run memo).2
  refine ⟨hb, fun path side => ?_⟩
  obtain ⟨hstays, hnodes⟩ := hmemo path side
  obtain ⟨hstays', hnodes'⟩ := hmemo' path side
  refine ⟨?_, ?_⟩
  · rcases hstays' with h | h
    · rwa [h]
    · exact .inr h
  · rintro (h | h)
    · exact hstays'.elim (fun h' => h'.trans (hnodes h)) id
    · exact hnodes' h

theorem Forgets.mono {x : StateM Memo α} {a : α} {nodes nodes' : Path → Prop}
    (h : Forgets x a nodes) (hsub : ∀ path, nodes' path → nodes path) : Forgets x a nodes' :=
  fun memo => ⟨(h memo).1, fun path side =>
    ⟨((h memo).2 path side).1, fun hpath => ((h memo).2 path side).2 (hsub path hpath)⟩⟩

/-- The nodes at and below the one at `path`, whose subtree is `t`. -/
def Below (t : Tree) (path path' : Path) : Prop :=
  ∃ below u, path' = below ++ path ∧ t.at? below = some u

theorem below_cases {t : Tree} {path path' : Path} (h : Below t path path') :
    path' = path ∨ ∃ i u, t.children[i]? = some u ∧ Below u (i :: path) path' := by
  obtain ⟨below, v, rfl, hv⟩ := h
  rcases List.eq_nil_or_concat below with rfl | ⟨below, i, rfl⟩
  · exact .inl rfl
  · rw [List.concat_eq_append, at?_append] at hv
    obtain ⟨u, hu, hv⟩ := Option.bind_eq_some_iff.1 hv
    exact .inr ⟨i, u, by simpa [at?] using hu, below, v, by simp, hv⟩

/-- A node without children is all there is at and below it. -/
theorem eq_of_below {t : Tree} (ht : t.children = []) {path path' : Path}
    (h : Below t path path') : path' = path := by
  rcases below_cases h with h | ⟨i, u, hu, -⟩
  · exact h
  · rw [ht] at hu
    cases hu

mutual
/-- Numbering is what it is without anything kept, and makes all nodes forget what they keep. -/
theorem forgets_renumber : ∀ (t : Tree) (path : Path) (next : Nat),
    Forgets (renumber t path next) (t.number next) (Below t path)
  | .epsilon, path, next =>
    Forgets.mono ((forgets_forget path).bind (forgets_pure _)) fun _ h => .inl (eq_of_below rfl h)
  | .leaf l, path, next =>
    Forgets.mono ((forgets_forget path).bind (forgets_pure _)) fun _ h => .inl (eq_of_below rfl h)
  | .counted l m, path, next =>
    Forgets.mono ((forgets_forget path).bind (forgets_pure _)) fun _ h => .inl (eq_of_below rfl h)
  | .closure op t, path, next => by
    refine Forgets.mono ((forgets_forget path).bind ((forgets_renumber t (0 :: path) next).bind
      (forgets_pure _))) fun path' h => ?_
    rcases below_cases h with rfl | ⟨i, u, hu, h⟩
    · exact .inl rfl
    · match i, hu with
      | 0, rfl => exact .inr (.inl h)
  | .joined op l r, path, next => by
    refine Forgets.mono ((forgets_forget path).bind ((forgets_renumber l (0 :: path) next).bind
      ((forgets_renumber r (1 :: path) _).bind (forgets_pure _)))) fun path' h => ?_
    rcases below_cases h with rfl | ⟨i, u, hu, h⟩
    · exact .inl rfl
    · match i, hu with
      | 0, rfl => exact .inr (.inl h)
      | 1, rfl => exact .inr (.inr (.inl h))
  | .all ts m, path, next => by
    refine Forgets.mono ((forgets_forget path).bind ((forgets_renumberAll ts 0 path next).bind
      (forgets_pure _))) fun path' h => ?_
    rcases below_cases h with rfl | ⟨i, u, hu, h⟩
    · exact .inl rfl
    · exact .inr (.inl ⟨i, u, hu, by rwa [Nat.zero_add]⟩)
theorem forgets_renumberAll : ∀ (ts : List Tree) (i : Nat) (path : Path) (next : Nat),
    Forgets (renumberAll ts i path next) (numberAll ts next) fun path' =>
      ∃ j u, ts[j]? = some u ∧ Below u ((i + j) :: path) path'
  | [], i, path, next => by
    refine Forgets.mono (forgets_pure _) fun path' h => ?_
    obtain ⟨j, u, hu, -⟩ := h
    cases hu
  | t :: ts, i, path, next => by
    refine Forgets.mono ((forgets_renumber t (i :: path) next).bind
      ((forgets_renumberAll ts (i + 1) path _).bind (forgets_pure _))) fun path' h => ?_
    obtain ⟨j, u, hu, h⟩ := h
    cases j with
    | zero =>
      cases hu
      exact .inl h
    | succ j => exact .inr (.inl ⟨j, u, hu, by rwa [show i + 1 + j = i + (j + 1) by omega]⟩)
end

end Memo

namespace Tree

theorem getElem?_numberAll : ∀ {ts : List Tree} (next i : Nat) {u : Tree},
    (numberAll ts next).1[i]? = some u → ∃ v k, ts[i]? = some v ∧ (v.number k).1 = u
  | [], _, _, _, h => by cases h
  | t :: _, next, 0, _, h => ⟨t, next, rfl, Option.some.inj h⟩
  | t :: _, next, i + 1, _, h => getElem?_numberAll (t.number next).2 i h

/-- The children of a numbered tree are numbered children. -/
theorem children_number {t u : Tree} {next i : Nat} (h : (t.number next).1.children[i]? = some u) :
    ∃ v k, t.children[i]? = some v ∧ (v.number k).1 = u := by
  cases t with
  | epsilon => cases h
  | leaf l => cases h
  | counted l m => cases h
  | closure op t =>
    match i, h with
    | 0, h => exact ⟨t, next, rfl, Option.some.inj h⟩
  | joined op l r =>
    match i, h with
    | 0, h => exact ⟨l, next, rfl, Option.some.inj h⟩
    | 1, h => exact ⟨r, (l.number next).2, rfl, Option.some.inj h⟩
  | all ts m => exact getElem?_numberAll next i h

/-- The subtrees of a numbered tree are numbered subtrees. -/
theorem at?_number {t u : Tree} {next : Nat} {path : Path}
    (h : (t.number next).1.at? path = some u) :
    ∃ v k, t.at? path = some v ∧ (v.number k).1 = u := by
  induction path generalizing u with
  | nil => exact ⟨t, next, rfl, Option.some.inj h⟩
  | cons i path ih =>
    obtain ⟨u', hu', hi⟩ := Option.bind_eq_some_iff.1 h
    obtain ⟨v', k', hv', rfl⟩ := ih hu'
    obtain ⟨v, k, hv, rfl⟩ := children_number hi
    exact ⟨v, k, at?_child hv' hv, rfl⟩

mutual
/-- Of two numberings only the later one counts. -/
theorem number_number : ∀ (t : Tree) (j k : Nat), (t.number j).1.number k = t.number k
  | epsilon, _, _ => rfl
  | leaf _, _, _ => rfl
  | counted _ _, _, _ => rfl
  | closure _ t, j, k => by simp only [number, number_number t]
  | joined _ l r, j, k => by simp only [number, number_number l, number_number r]
  | all ts _, j, k => by simp only [number, numberAll_numberAll ts]
theorem numberAll_numberAll : ∀ (ts : List Tree) (j k : Nat),
    numberAll (numberAll ts j).1 k = numberAll ts k
  | [], _, _ => rfl
  | t :: ts, j, k => by simp only [numberAll, number_number t, numberAll_numberAll ts]
end

theorem IsExpression.number : ∀ {t : Tree} (next : Nat), t.IsExpression →
    (t.number next).1.IsExpression
  | epsilon, _, _ => trivial
  | leaf _, _, _ => trivial
  | counted _ _, _, h => h
  | closure _ t, next, h => IsExpression.number (t := t) next h
  | joined _ _ _, next, h => ⟨h.1.number next, h.2.number _⟩

/-- The subtrees of an expression are expressions. -/
theorem IsExpression.at? {t u : Tree} {path : Path} (h : t.IsExpression)
    (hu : t.at? path = some u) : u.IsExpression :=
  at?_inherit (fun _ _ h => h) (fun _ _ _ h => h) (fun _ _ h => h.elim) h hu

/-- The positions of a subtree are positions of the tree. -/
theorem Fits.at? {t u : Tree} {n : Nat} {path : Path} (h : t.Fits n) (hu : t.at? path = some u) :
    u.Fits n :=
  at?_inherit (P := (·.Fits n)) (fun _ _ h => h) (fun _ _ _ h => ⟨h.left, h.right⟩)
    (fun _ _ h => h.member) h hu

end Tree

/-! ## Trees with what their nodes keep -/

namespace Node

/-- Leaves the positions as they are, and asks for sets of one capacity. -/
def Request.IsQuery (n : Nat) : Request → Prop
  | number _ => False
  | ends _ n' _ => n' = n
  | follow n' _ _ => n' = n

/-- What the node at `path` answers, for sets of capacity `n`, is what there is to tell about the
positions in the words of `L`: whether there is the empty word, which positions words begin and end
with, and which directly follow which. -/
structure Tells (x : Node) (n : Nat) (path : Path) (L : Language Nat) : Prop where
  isNullable : ∃ b, x.isNullable path = some b ∧ (b = true ↔ [] ∈ L)
  first : ∃ s : WordSet n, (x.ends .first n path).1 = some ⟨n, s⟩ ∧ ∀ p, p ∈ s ↔ ∃ v, p :: v ∈ L
  last : ∃ s : WordSet n, (x.ends .last n path).1 = some ⟨n, s⟩ ∧ ∀ p, p ∈ s ↔ ∃ u, u ++ [p] ∈ L
  follow : ∃ table : Array (WordSet n),
    (x.follow n path (Array.replicate n (.empty n))).1 = some (table.map (BoundedSet.mk n)) ∧
      table.size = n ∧
      ∀ p q, (∃ s, table[p]? = some s ∧ q ∈ s) ↔ ∃ u v, u ++ p :: q :: v ∈ L

/-- All sets that the nodes keep are right for the capacity `n`. -/
def IsRight (x : Node) (n : Nat) : Prop := Query.IsRight x.tree n x.memo

section Serve

variable {α : Type} {x : Node} {n : Nat} {path : Path} {t : Tree}

theorem tree_ask {query : Tree → Path → Query α} : (x.ask path query).2.tree = x.tree := by
  unfold ask
  split <;> rfl

/-- Nodes that keep only right sets answer like a tree that keeps none, and still keep only right
sets afterwards. -/
theorem ask_eq {query : Tree → Path → Query α} {r : Option α} (hx : x.IsRight n)
    (ht : x.tree.at? path = some t) (hquery : Query.Answers x.tree n (query t path) r) :
    (x.ask path query).1 = r ∧ (x.ask path query).2.IsRight n := by
  unfold ask
  rw [ht]
  exact hquery x.memo hx

theorem isRight_ask {query : Tree → Path → Query α} (hx : x.IsRight n)
    (hquery : ∀ t, x.tree.at? path = some t → ∃ r, Query.Answers x.tree n (query t path) r) :
    (x.ask path query).2.IsRight n := by
  cases ht : x.tree.at? path with
  | none =>
    unfold ask
    rw [ht]
    exact hx
  | some t =>
    obtain ⟨r, hr⟩ := hquery t ht
    exact (ask_eq hx ht hr).2

/-- Numbering does not look at what is kept. -/
theorem tree_number (next : Nat) : (x.number next).tree = (x.tree.number next).1 :=
  congrArg Prod.fst (Memo.forgets_renumber x.tree [] next x.memo).1

/-- After numbering no node keeps anything. -/
theorem memo_number {next : Nat} (ht : (x.number next).tree.at? path = some t) (side : Side) :
    (x.number next).memo path side = none := by
  rw [tree_number] at ht
  obtain ⟨v, -, hv, -⟩ := at?_number ht
  exact ((Memo.forgets_renumber x.tree [] next x.memo).2 path side).2
    ⟨path, v, (List.append_nil path).symm, hv⟩

theorem isRight_number (next : Nat) : (x.number next).IsRight n := by
  intro path side t s ht hs
  rw [memo_number ht side] at hs
  cases hs

/-- Whatever is served, it is the same tree up to its positions. -/
theorem numbered_serve (request : Request) : (x.serve request).tree.numbered = x.tree.numbered := by
  cases request with
  | number next =>
    rw [serve, tree_number]
    exact congrArg Prod.fst (number_number x.tree next 0)
  | ends side n path => exact congrArg numbered tree_ask
  | follow n path table => exact congrArg numbered tree_ask

theorem numbered_serveAll (requests : List Request) :
    (x.serveAll requests).tree.numbered = x.tree.numbered := by
  induction requests generalizing x with
  | nil => rfl
  | cons request requests ih => exact ih.trans (numbered_serve request)

/-- Queries leave the positions as they are. -/
theorem tree_serve {request : Request} (h : request.IsQuery n) :
    (x.serve request).tree = x.tree := by
  cases request with
  | number next => exact h.elim
  | ends side n path => exact tree_ask
  | follow n path table => exact tree_ask

/-- After a query, what is kept is still right. -/
theorem isRight_serve {request : Request} (h : request.IsQuery n) (hx : x.IsRight n) :
    (x.serve request).IsRight n := by
  cases request with
  | number next => exact h.elim
  | ends side n' path =>
    cases h
    exact isRight_ask hx fun t ht => ⟨_, Query.answers_ends _ ht⟩
  | follow n' path table =>
    cases h
    exact isRight_ask hx fun t ht => ⟨_, Query.answers_follow _ ht⟩

theorem serveAll_queries {queries : List Request} (h : ∀ r ∈ queries, r.IsQuery n)
    (hx : x.IsRight n) : (x.serveAll queries).tree = x.tree ∧ (x.serveAll queries).IsRight n := by
  induction queries generalizing x with
  | nil => exact ⟨rfl, hx⟩
  | cons query queries ih =>
    obtain ⟨hquery, hqueries⟩ := List.forall_mem_cons.1 h
    obtain ⟨htree, hright⟩ := ih hqueries (isRight_serve hquery hx)
    exact ⟨htree.trans (tree_serve hquery), hright⟩

/-- As long as what is kept is right, a node tells about the words of its subtree. -/
theorem tells_of_isRight (hx : x.IsRight n) (h : x.tree.IsExpression)
    (hf : x.tree.Fits n) (ht : x.tree.at? path = some t) : x.Tells n path t.positionWords where
  isNullable := by
    refine ⟨t.isNullable, ?_, isNullable_iff_mem (h.at? ht)⟩
    rw [isNullable, ht]
    rfl
  first := by
    refine ⟨(t.first n).inWords, ?_, fun p => ?_⟩
    · exact (ask_eq hx ht (Query.answers_ends _ ht)).1.trans (first?_eq (hf.at? ht))
    · rw [PositionSet.mem_inWords]
      exact mem_first_iff (h.at? ht) (hf.at? ht)
  last := by
    refine ⟨(t.last n).inWords, ?_, fun p => ?_⟩
    · exact (ask_eq hx ht (Query.answers_ends _ ht)).1.trans (last?_eq (hf.at? ht))
    · rw [PositionSet.mem_inWords]
      exact mem_last_iff (h.at? ht) (hf.at? ht)
  follow := by
    refine ⟨(t.followTable n).map (·.inWords), ?_, ?_, fun p q => ?_⟩
    · have hfollow := follow?_eq (hf.at? ht) (Array.size_replicate (v := ∅))
      rw [FollowTable.bounded_replicate] at hfollow
      rw [Array.map_map]
      exact (ask_eq hx ht (Query.answers_follow _ ht)).1.trans hfollow
    · rw [Array.size_map, size_followTable]
    · rw [← mem_followTable_iff (h.at? ht) (hf.at? ht), FollowTable.mem_after_iff]
      simp

end Serve

/-- Whatever was kept, asked and numbered before: when the leaves have been numbered from 0, every
node tells about the words of its subtree, as often and in whatever order nodes are asked. -/
theorem positions_of_numbered (x : Node) (h : x.tree.IsExpression) (history queries : List Request)
    (hqueries : ∀ r ∈ queries, r.IsQuery (x.tree.leafCount + 1)) :
    let y := ((x.serveAll history).number 0).serveAll queries
    y.tree = x.tree.numbered ∧
      y.tree.leaves.map (·.1.position) = List.range x.tree.leafCount ∧
        ∀ path t, y.tree.at? path = some t →
          y.Tells (x.tree.leafCount + 1) path t.positionWords := by
  intro y
  obtain ⟨htree, hright⟩ := serveAll_queries hqueries (isRight_number (x := x.serveAll history) 0)
  have hnumbered : y.tree = x.tree.numbered :=
    htree.trans ((tree_number 0).trans (numbered_serveAll history))
  have hpositions := x.tree.positions_number 0
  refine ⟨hnumbered, ?_, fun path t ht => ?_⟩
  · rw [hnumbered, List.range_eq_range']
    exact hpositions
  · have hexpr : y.tree.IsExpression := hnumbered ▸ h.number 0
    have hfits : y.tree.Fits (x.tree.leafCount + 1) := by
      rw [hnumbered]
      exact fun l hl => Nat.lt_succ_of_lt (fits_of_positions hpositions l hl)
    exact tells_of_isRight hright hexpr hfits ht

/-- `a*` before at most two times `b`. The root keeps a wrong set, and hands it out, until the
leaves are numbered; then words are known to begin with either leaf. -/
theorem positions_of_numbered_stale :
    let a : Tree := .leaf ⟨.element (.bare "a"), 0, 7⟩
    let b : Tree := .counted ⟨.element (.bare "b"), 1, 7⟩ ⟨0, some 2⟩
    let x : Node := ⟨.joined .sequence (.closure .star a) b, fun _ _ => some (.empty 0)⟩
    let y := ((x.serveAll [.number 5, .ends .last 9 [1]]).number 0).serveAll [.follow 3 [] #[]]
    (x.ends .first 3 []).1 = some (.empty 0) ∧
      ∃ s : WordSet 3, (y.ends .first 3 []).1 = some ⟨3, s⟩ ∧ 0 ∈ s ∧ 1 ∈ s := by
  intro a b x y
  obtain ⟨htree, -, htells⟩ := positions_of_numbered x ⟨trivial, rfl, rfl⟩
    [.number 5, .ends .last 9 [1]] [.follow 3 [] #[]]
    fun r hr => List.mem_singleton.1 hr ▸ (rfl : 3 = x.tree.leafCount + 1)
  obtain ⟨s, hs, hmem⟩ := (htells [] y.tree rfl).first
  have hstar : ∀ w : List Nat, w = [] ∨ w = [0] → w ∈ ({[0]} : Language Nat)∗ := by
    rintro w (rfl | rfl)
    · exact Language.nil_mem_kstar _
    · exact (le_kstar : ({[0]} : Language Nat) ≤ _) rfl
  have hadmits : ∀ k ≤ 2, (⟨0, some 2⟩ : Multiplicity).Admits k :=
    fun k hk => ⟨Nat.zero_le k, fun max hmax => Option.some.inj hmax ▸ hk⟩
  refine ⟨rfl, s, hs, (hmem 0).2 ⟨[], ?_⟩, (hmem 1).2 ⟨[], ?_⟩⟩
  · rw [htree]
    exact Language.append_mem_mul (hstar [0] (.inr rfl)) ⟨0, hadmits 0 (by decide), rfl⟩
  · rw [htree]
    exact Language.append_mem_mul (hstar [] (.inl rfl))
      ⟨1, hadmits 1 (by decide), (pow_one ({[1]} : Language Nat)).symm ▸ rfl⟩

end Node

end ContentAutomata
