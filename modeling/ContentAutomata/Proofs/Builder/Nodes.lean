import ContentAutomata.Builder.Nodes
import ContentAutomata.Proofs.Tree.Assembly

/-!
# A particle compiled node by node and in sums

A draft pays for nodes in sums. It does the same in every respect as compiling the particle node by
node: the same tree comes out, after the same payments, or the same refusal, whatever the bound.

Results:
* `performs_compact`, `performs_expanded`, `performs_allGroup`: the three ways to draw up a
  particle;
* `run_ofParticle`: a builder that has a particle compiled node by node returns the same and is left
  in the same state.
-/
namespace ContentAutomata

namespace Assembly

variable {α : Type} {limits : Limits} {purpose : Purpose}

/-- A particle is put together if its bounds are in order and it may occur. -/
theorem Performs.inspected {depth : Nat} {m : Multiplicity} {u : Assembly (Option α)}
    {v : Draft (Option α)} (h : m.isOrdered = true → Performs u v) :
    Performs (do if ← Draft.inspect limits depth m then u else return none)
      (do if ← Draft.inspect limits depth m then v else return none) := by
  have hinspect : Performs (liftM (Draft.inspect limits depth m)) (Draft.inspect limits depth m) :=
    performs_lift fun h => by rw [(Draft.inspect_eq_ok.1 h).2.2.2]
  refine hinspect.bind fun hok => .ite (fun _ => ?_) fun _ => performs_pure _
  exact h (Draft.inspect_eq_ok.1 hok).2.1

mutual
theorem performs_compact : ∀ (p : Particle) (depth : Nat),
    Performs (compact limits p depth) (Draft.compact limits p depth)
  | .element name m, depth => by
    unfold compact Draft.compact
    exact .inspected fun _ => (performs_newCounted _ _).map _
  | .wildcard w, depth => by
    unfold compact Draft.compact
    exact .inspected fun _ => (performs_newCounted _ _).map _
  | .group c members m, depth => by
    unfold compact Draft.compact
    refine .inspected fun _ => (performs_require _).bind fun _ => ?_
    -- a counter stands in for a repeated group only if the group holds a single term
    have hjoined := (performs_compactAll members (depth + 1)).bind fun {built _ _} _ =>
      performs_joinMembers c members.length built
    cases Draft.onlyTerm? members with
    | none => exact hjoined
    | some term =>
      cases m.isOnce with
      | true => exact hjoined
      | false => exact (performs_newCounted _ _).map _
theorem performs_compactAll : ∀ (ps : List Particle) (depth : Nat),
    Performs (compactAll limits ps depth) (Draft.compactAll limits ps depth)
  | [], _ => performs_pure _
  | p :: ps, depth => by
    unfold compactAll Draft.compactAll
    exact (performs_compact p depth).bind fun _ =>
      (performs_compactAll ps depth).bind fun _ => performs_pure _
end

mutual
theorem performs_expanded : ∀ (p : Particle) (depth : Nat),
    Performs (expanded limits purpose p depth) (Draft.expanded limits purpose p depth)
  | .element name m, depth => by
    unfold expanded Draft.expanded
    exact .inspected fun ho => (performs_newRepeated _ _ ho).bind fun _ => performs_pure _
  | .wildcard w, depth => by
    unfold expanded Draft.expanded
    exact .inspected fun ho => (performs_newRepeated _ _ ho).bind fun _ => performs_pure _
  | .group c members m, depth => by
    unfold expanded Draft.expanded
    refine .inspected fun ho => (performs_require _).bind fun _ => ?_
    refine (performs_expandedAll members (depth + 1)).bind fun {built _ _} _ => ?_
    have hjoined := performs_joinMembers c members.length (built.map (·.1))
    rw [List.length_map] at hjoined
    refine hjoined.bind fun {t _ _} _ => ?_
    cases t with
    | none => exact performs_pure _
    | some t => exact (performs_spell _ _ ho).bind fun _ => performs_pure _
theorem performs_expandedAll : ∀ (ps : List Particle) (depth : Nat),
    Performs (expandedAll limits purpose ps depth) (Draft.expandedAll limits purpose ps depth)
  | [], _ => performs_pure _
  | p :: ps, depth => by
    unfold expandedAll Draft.expandedAll
    exact (performs_expanded p depth).bind fun _ =>
      (performs_expandedAll ps depth).bind fun _ => performs_pure _
end

theorem performs_get : Performs (liftM (get : Draft Draft.State)) get :=
  performs_lift fun h => by
    cases h
    rfl

theorem performs_complete (root : Option Tree) (isApproximate : Bool) :
    Performs (do return .ofDraft root isApproximate (← get).ledger.spent)
      (do return SyntaxTree.ofDraft root isApproximate (← get).ledger.spent) :=
  performs_get.bind fun _ => performs_pure _

theorem performs_syntaxTree (p : Particle) :
    Performs (syntaxTree limits purpose p) (SyntaxTree.draft limits purpose p) := by
  unfold syntaxTree SyntaxTree.draft
  refine performs_startNumbering.bind fun _ => .ite (fun _ => ?_) fun _ => ?_
  · exact (performs_compact p 1).bind fun _ => performs_complete _ _
  · refine (performs_expanded p 1).bind fun {r _ _} _ => ?_
    cases r <;> exact performs_complete _ _

theorem performs_allMembers (ps : List Particle) :
    Performs (allMembers ps) (Draft.allMembers ps) := by
  induction ps with
  | nil => exact performs_pure _
  | cons p ps ih =>
    unfold allMembers Draft.allMembers
    cases p.term? with
    | none => exact performs_refuse _
    | some term =>
      refine (performs_require _).bind fun _ => .ite (fun _ => ih) fun _ => ?_
      exact performs_newParticle.bind fun _ => .make_bind (ih.bind fun _ => performs_pure _)

theorem performs_allGroup (members : List Particle) (m : Multiplicity) :
    Performs (allGroup members m) (Draft.allGroup members m) := by
  refine (performs_require _).bind fun _ => .ite (fun _ => performs_pure _) fun _ => ?_
  exact performs_startNumbering.bind fun _ =>
    (performs_allMembers members).bind fun _ => .make_bind (performs_pure _)

theorem performs_ofParticle (p : Particle) :
    Performs (ofParticle limits purpose p) (Compilation.ofParticle limits purpose p) := by
  cases p with
  | element => exact (performs_syntaxTree _).map _
  | wildcard => exact (performs_syntaxTree _).map _
  | group c members m =>
    cases c with
    | sequence => exact (performs_syntaxTree _).map _
    | choice => exact (performs_syntaxTree _).map _
    | all =>
      refine (performs_allGroup members m).bind fun {t _ _} _ => ?_
      cases t <;> exact performs_pure _

end Assembly

/-- Node by node or in sums, a build comes to the same and leaves the same behind. -/
theorem Builder.run_ofParticle (b : Builder) (p : Particle) (purpose : Purpose)
    (hb : ∀ bound, b.ledger.bound = some bound → b.ledger.spent ≤ bound) :
    b.run (Assembly.ofParticle b.limits purpose p).run =
      ((b.build p purpose).1.map some, (b.build p purpose).2) := by
  have hs : b.start.IsWithinBound := hb
  have hrun : (Assembly.ofParticle b.limits purpose p).run b.start =
      Compilation.ofParticle b.limits purpose p b.start >>= fun r => .ok (some r.1, r.2) :=
    (Assembly.performs_ofParticle p).run_eq hs
  unfold build run
  rw [hrun]
  cases Compilation.ofParticle b.limits purpose p b.start <;> rfl

end ContentAutomata
