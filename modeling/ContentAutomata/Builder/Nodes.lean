import ContentAutomata.Builder
import ContentAutomata.Tree.Assembly

/-!
# Compiling a particle node by node

A particle can be compiled in the way its terms, groups and repetitions are put together by hand:
each node is paid for when it is made, after the nodes below it.
-/
namespace ContentAutomata.Assembly

variable (limits : Limits) (purpose : Purpose)

mutual
/-- A particle in the compact shape; `none` if it vanishes. Mirrors `build_compact_syntax_tree`. -/
def compact : Particle → (depth : Nat) → Assembly (Option Tree)
  | .element name m, depth => do
    if ← Draft.inspect limits depth m then some <$> newCounted (.element name) m else return none
  | .wildcard w, depth => do
    if ← Draft.inspect limits depth w.occurs then some <$> newCounted (.wildcard w) w.occurs
    else return none
  | .group c members m, depth => do
    if ← Draft.inspect limits depth m then
      Draft.refuseAll c
      match Draft.onlyTerm? members, m.isOnce with
      | some term, false => some <$> newCounted term m
      | _, _ =>
        let built ← compactAll members (depth + 1)
        joinMembers c (built.length < members.length) built
    else return none
/-- Those particles of a list that do not vanish, in the compact shape. -/
def compactAll : List Particle → (depth : Nat) → Assembly (List Tree)
  | [], _ => return []
  | p :: ps, depth => do
    let t ← compact p depth
    let ts ← compactAll ps depth
    return t.toList ++ ts
end

mutual
/-- A particle in the expanded shape, and whether that is an approximation; `none` if the particle
vanishes. Mirrors `build_syntax_tree`. -/
def expanded : Particle → (depth : Nat) → Assembly (Option (Tree × Bool))
  | .element name m, depth => do
    if ← Draft.inspect limits depth m then
      let t ← newRepeated purpose (.element name) m
      return some (t, Draft.isApproximate purpose m)
    else return none
  | .wildcard w, depth => do
    if ← Draft.inspect limits depth w.occurs then
      let t ← newRepeated purpose (.wildcard w) w.occurs
      return some (t, Draft.isApproximate purpose w.occurs)
    else return none
  | .group c members m, depth => do
    if ← Draft.inspect limits depth m then
      Draft.refuseAll c
      let built ← expandedAll members (depth + 1)
      match ← joinMembers c (built.length < members.length) (built.map (·.1)) with
      | none => return none
      | some t =>
        let t ← spell t (Draft.spelledOut purpose m)
        return some (t, Draft.isApproximate purpose m || built.any (·.2))
    else return none
/-- Those particles of a list that do not vanish, in the expanded shape. -/
def expandedAll : List Particle → (depth : Nat) → Assembly (List (Tree × Bool))
  | [], _ => return []
  | p :: ps, depth => do
    let t ← expanded p depth
    let ts ← expandedAll ps depth
    return t.toList ++ ts
end

/-- The syntax tree of a particle. Mirrors `syntax_tree`. -/
def syntaxTree (p : Particle) : Assembly SyntaxTree := do
  Draft.startNumbering
  let (root, isApproximate) ←
    if p.isCountable then do
      pure (← compact limits p 1, false)
    else
      match ← expanded limits purpose p 1 with
      | some (t, isApproximate) => pure (some t, isApproximate)
      | none => pure (none, false)
  return .ofDraft root isApproximate (← get).ledger.spent

/-- The members of an `all` group that may occur. Mirrors the loop of `create_all_cm`. -/
def allMembers : List Particle → Assembly (List Tree)
  | [] => return []
  | p :: ps => do
    match p.term? with
    | none => Draft.refuse (.ofFault .groupInAll)
    | some term =>
      Draft.requireOrdered p.occurs
      if p.occurs.isNever then allMembers ps
      else
        let particle ← Draft.newParticle
        let t ← make (.counted ⟨term, particle, 0⟩ p.occurs)
        let ts ← allMembers ps
        return t :: ts

/-- An `all` group; `none` if it may not occur. Mirrors `create_all_cm`. -/
def allGroup (members : List Particle) (m : Multiplicity) : Assembly (Option Tree) := do
  Draft.requireOrdered m
  if m.isNever then return none
  Draft.startNumbering
  let ts ← allMembers members
  return some (← make (.all ts m))

/-- The compilation of a particle. Mirrors `CmBuilder.compile`. -/
def ofParticle : Particle → Assembly Compilation
  | .group .all members m => do
    match ← allGroup members m with
    | some t => return ⟨none, .all (.ofTree t)⟩
    | none => return ⟨none, .empty⟩
  | p => Compilation.ofTree <$> syntaxTree limits purpose p

end ContentAutomata.Assembly
