import ContentAutomata.Particle
import ContentAutomata.Tree.Ledger
import ContentAutomata.Tree.Repeat

/-!
# From a particle to a syntax tree

Two shapes of tree are drawn up. If counters can stand in for every multiplicity
(`Particle.isCountable`), the tree is *compact*: a repeated term is one counted leaf, whatever its
bounds. Otherwise it is *expanded*: multiplicities are spelled out as copies, so `e{2,3}` becomes
`e , e , e?`. When the tree only serves to find ambiguities, the expanded shape squeezes large
multiplicities, and the tree is marked as approximate.

Particles are checked as they are met, in document order: that they are not nested too deeply, that
their bounds are in order, that no `all` group stands inside another group. Terms are numbered in
the same order. Every node is paid for when it is made.

What was counted outlives a refusal: a `Draft.Failure` holds what was kept track of when it arose. A
tree therefore starts the numbering of its terms anew, and a payment that is refused forgets those
before it. Such a refusal is reported on the spot, and what was said stays said.

Results:
* `size_composed`: what is paid for joining the members of a group is the number of nodes added.
-/
namespace ContentAutomata

/-- What a tree is wanted for. -/
inductive Purpose where
  /-- To validate children. -/
  | validation
  /-- To find ambiguities. -/
  | attribution
  deriving DecidableEq, Repr

/-- What drawing up a tree keeps track of. -/
structure Draft.State where
  ledger : Ledger
  /-- The number of the next term. -/
  nextParticle : Nat
  /-- What was said so far. -/
  said : List Event
  deriving DecidableEq, Repr

/-- Why a tree was not drawn up, and what was kept track of until then. -/
structure Draft.Failure where
  error : Error
  state : Draft.State

/-- A step in drawing up a tree. -/
abbrev Draft := StateT Draft.State (Except Draft.Failure)

namespace Draft

/-- Pays for `count` nodes. A refusal is reported and forgets all payments. Mirrors
`node_count_check`. -/
def pay (count : Nat) : Draft Unit := fun s =>
  match s.ledger.spend count with
  | .ok ledger => .ok ((), { s with ledger })
  | .error e => .error ⟨e, { s with ledger := s.ledger.clear, said := s.said ++ e.events }⟩

/-- Numbers the terms that follow from 0. -/
def startNumbering : Draft Unit := fun s => .ok ((), { s with nextParticle := 0 })

/-- The number for a term. Mirrors `next_particle_id`. -/
def newParticle : Draft Nat := fun s =>
  .ok (s.nextParticle, { s with nextParticle := s.nextParticle + 1 })

/-- Fails if a check fails. -/
def require (check : Except Error Unit) : Draft Unit := fun s =>
  match check with
  | .ok () => .ok ((), s)
  | .error e => .error ⟨e, s⟩

/-- Fails with an error. -/
def refuse {α : Type} (e : Error) : Draft α := fun s => .error ⟨e, s⟩

/-- Refuses bounds that are out of order. Mirrors `checked_occurs`. -/
def requireOrdered (m : Multiplicity) : Draft Unit := require (m.check.mapError .ofFault)

/-- Checks a particle's depth and bounds; whether it may occur at all. Mirrors how
`check_model_depth` and `checked_occurs` are called for each particle. -/
def inspect (limits : Limits) (depth : Nat) (m : Multiplicity) : Draft Bool := do
  require (limits.checkDepth depth)
  requireOrdered m
  return !m.isNever

/-- Refuses an `all` group. Mirrors `check_nested_all`. -/
def refuseAll (c : Compositor) : Draft Unit :=
  require (if c = .all then .error (.ofFault .nestedAll) else .ok ())

/-! ## Groups -/

/-- The nodes of a group, from those of the members that did not vanish: joined from the left, and
for a choice with the empty word as one more branch if a member vanished. -/
def composed (c : Compositor) (someVanished : Bool) : List Tree → Option Tree
  | [] => none
  | t :: ts =>
    match c with
    | .choice =>
      let t := ts.foldl (.joined .choice) t
      some (if someVanished then .joined .choice t .epsilon else t)
    | _ => some (ts.foldl (.joined .sequence) t)

/-- The number of nodes that joining `count` trees adds. -/
def composedCost (c : Compositor) (someVanished : Bool) (count : Nat) : Nat :=
  if count = 0 then 0
  else count - 1 + (if c = .choice ∧ someVanished = true then 2 else 0)

/-- Joins the members of a group that did not vanish, `total` being the number of all members.
Mirrors `combine`. -/
def compose (c : Compositor) (total : Nat) (built : List Tree) : Draft (Option Tree) := do
  let someVanished := built.length < total
  pay (composedCost c someVanished built.length)
  return composed c someVanished built

theorem size_foldl_joined (op : Connective) (t : Tree) (ts : List Tree) :
    (ts.foldl (.joined op) t).size = t.size + Tree.sizes ts + ts.length := by
  induction ts generalizing t with
  | nil => simp [Tree.sizes]
  | cons u us ih =>
    simp only [List.foldl_cons, ih, Tree.size, Tree.sizes, List.length_cons]
    omega

theorem size_composed {c : Compositor} {someVanished : Bool} {built : List Tree} {t : Tree}
    (h : composed c someVanished built = some t) :
    t.size = Tree.sizes built + composedCost c someVanished built.length := by
  cases built with
  | nil => simp [composed] at h
  | cons u us =>
    cases c <;> cases someVanished <;>
      simp only [composed, Option.some.injEq, if_true, if_false, Bool.false_eq_true] at h <;>
      subst h <;>
      simp [Tree.size, size_foldl_joined, Tree.sizes, composedCost]
    omega

/-! ## The compact shape -/

/-- The nodes of a repeated term where a counter may check its bounds. -/
def countedTerm (leaf : Leaf) (m : Multiplicity) : Tree :=
  if m = .once then .leaf leaf
  else if m = .optional then .closure .optional (.leaf leaf)
  else if m = .zeroOrMore then .closure .star (.leaf leaf)
  else if m = .oneOrMore then .closure .plus (.leaf leaf)
  else .counted leaf m

/-- Draws up a repeated term in the compact shape. Mirrors `compact_leaf`. -/
def compactTerm (term : Term) (m : Multiplicity) : Draft Tree := do
  let particle ← newParticle
  let t := countedTerm ⟨term, particle, 0⟩ m
  pay t.size
  return t

/-- The term of a list's only particle. -/
def onlyTerm? : List Particle → Option Term
  | [p] => p.term?
  | _ => none

mutual
/-- Draws up a particle in the compact shape; `none` if it vanishes. Mirrors
`build_compact_syntax_tree`. -/
def compact (limits : Limits) : Particle → (depth : Nat) → Draft (Option Tree)
  | .element name m, depth => do
    if ← inspect limits depth m then some <$> compactTerm (.element name) m else return none
  | .wildcard w, depth => do
    if ← inspect limits depth w.occurs then some <$> compactTerm (.wildcard w) w.occurs
    else return none
  | .group c members m, depth => do
    if ← inspect limits depth m then
      refuseAll c
      match onlyTerm? members, m.isOnce with
      | some term, false => some <$> compactTerm term m
      | _, _ =>
        let built ← compactAll limits members (depth + 1)
        compose c members.length built
    else return none
/-- Draws up those particles of a list that do not vanish in the compact shape. -/
def compactAll (limits : Limits) : List Particle → (depth : Nat) → Draft (List Tree)
  | [], _ => return []
  | p :: ps, depth => do
    let t ← compact limits p depth
    let ts ← compactAll limits ps depth
    return t.toList ++ ts
end

/-! ## The expanded shape -/

/-- The multiplicity to spell out. Mirrors how `build_syntax_tree` changes a range. -/
def spelledOut : Purpose → Multiplicity → Multiplicity
  | .validation, m => m
  | .attribution, m => m.squeezed

/-- Whether spelling out the multiplicity is an approximation. -/
def isApproximate : Purpose → Multiplicity → Bool
  | .validation, _ => false
  | .attribution, m => m.isRepeated

/-- Draws up a repeated term in the expanded shape. Mirrors what `build_syntax_tree` does with a
term. -/
def expandedTerm (purpose : Purpose) (term : Term) (m : Multiplicity) : Draft Tree := do
  let particle ← newParticle
  pay 1
  let t := Tree.leaf ⟨term, particle, 0⟩
  let m := spelledOut purpose m
  match purpose with
  | .validation =>
    pay (Tree.repeatedSize t.size m - t.size)
    return t.repeated m
  | .attribution =>
    let t' := t.repeatedFreely m
    pay (t'.size - t.size)
    return t'

/-- Repeats the nodes of a group in the expanded shape. Mirrors `expand_content_model`. -/
def expandedGroup (purpose : Purpose) (t : Tree) (m : Multiplicity) : Draft Tree := do
  let m := spelledOut purpose m
  pay (Tree.repeatedSize t.size m - t.size)
  return t.repeated m

mutual
/-- Draws up a particle in the expanded shape, and whether that is an approximation; `none` if the
particle vanishes. Mirrors `build_syntax_tree`. -/
def expanded (limits : Limits) (purpose : Purpose) :
    Particle → (depth : Nat) → Draft (Option (Tree × Bool))
  | .element name m, depth => do
    if ← inspect limits depth m then
      let t ← expandedTerm purpose (.element name) m
      return some (t, isApproximate purpose m)
    else return none
  | .wildcard w, depth => do
    if ← inspect limits depth w.occurs then
      let t ← expandedTerm purpose (.wildcard w) w.occurs
      return some (t, isApproximate purpose w.occurs)
    else return none
  | .group c members m, depth => do
    if ← inspect limits depth m then
      refuseAll c
      let built ← expandedAll limits purpose members (depth + 1)
      match ← compose c members.length (built.map (·.1)) with
      | none => return none
      | some t =>
        let t ← expandedGroup purpose t m
        return some (t, isApproximate purpose m || built.any (·.2))
    else return none
/-- Draws up those particles of a list that do not vanish in the expanded shape. -/
def expandedAll (limits : Limits) (purpose : Purpose) :
    List Particle → (depth : Nat) → Draft (List (Tree × Bool))
  | [], _ => return []
  | p :: ps, depth => do
    let t ← expanded limits purpose p depth
    let ts ← expandedAll limits purpose ps depth
    return t.toList ++ ts
end

/-! ## `all` groups -/

/-- Draws up the members of an `all` group that may occur. Mirrors the loop of `create_all_cm`. -/
def allMembers : List Particle → Draft (List Tree)
  | [] => return []
  | p :: ps => do
    match p.term? with
    | none => refuse (.ofFault .groupInAll)
    | some term =>
      requireOrdered p.occurs
      if p.occurs.isNever then allMembers ps
      else
        let particle ← newParticle
        pay 1
        let rest ← allMembers ps
        return .counted ⟨term, particle, 0⟩ p.occurs :: rest

/-- Draws up an `all` group; `none` if it may not occur. Mirrors `create_all_cm`. -/
def allGroup (members : List Particle) (m : Multiplicity) : Draft (Option Tree) := do
  requireOrdered m
  if m.isNever then return none
  startNumbering
  let ts ← allMembers members
  pay 1
  return some (.all ts m)

end Draft

/-! ## Complete trees -/

/-- The syntax tree of a content model. Mirrors `ContentModelTree`. -/
structure SyntaxTree where
  /-- The tree, its leaves numbered from 0; `none` if the particle vanishes. -/
  root : Option Tree
  /-- The number of leaves. -/
  leafCount : Nat
  /-- The number of nodes paid for. -/
  nodeCount : Nat
  /-- Whether multiplicities were squeezed, so that the tree only serves to find ambiguities. -/
  isApproximate : Bool

namespace SyntaxTree

/-- The complete tree for what was drawn up. -/
def ofDraft (root : Option Tree) (isApproximate : Bool) (nodeCount : Nat) : SyntaxTree :=
  match root with
  | none => ⟨none, 0, nodeCount, isApproximate⟩
  | some t =>
    let (t, leafCount) := t.number 0
    ⟨some t, leafCount, nodeCount, isApproximate⟩

/-- Draws up the syntax tree of a particle. Mirrors `syntax_tree`. -/
def draft (limits : Limits) (purpose : Purpose) (p : Particle) : Draft SyntaxTree := do
  Draft.startNumbering
  let (root, isApproximate) ←
    if p.isCountable then do
      pure (← Draft.compact limits p 1, false)
    else
      match ← Draft.expanded limits purpose p 1 with
      | some (t, isApproximate) => pure (some t, isApproximate)
      | none => pure (none, false)
  return ofDraft root isApproximate (← get).ledger.spent

/-- What is said when a syntax tree is complete. -/
def events (t : SyntaxTree) : List Event :=
  (if t.isApproximate then [.debug "occurrence ranges approximated for the UPA check"] else []) ++
    [.debug ("content model tree: " ++ toString t.leafCount ++ " positions, " ++
      toString t.nodeCount ++ " nodes")]

end SyntaxTree

end ContentAutomata
