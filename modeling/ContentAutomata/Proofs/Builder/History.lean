import ContentAutomata.ComplexType

/-!
# A builder carries no history

Two counters outlive what a builder draws up: the payments for nodes and the numbering of terms. The
first is cleared after every particle, whether it was compiled or refused. The second is left as it
is, so the next particle finds what the last one left; it does not matter, since numbering starts
anew before the first term is numbered.

The answers to a series of requests are therefore those of builders that have not compiled anything,
under the limits that are in force at each request.

Results:
* `isOrderly_ofParticle`: drawing up a tree leaves the bound of the ledger as it is, and says no
  more than what it comes to has to say;
* `treeJournal_eq`, `buildJournal_eq`: all that a builder says follows from the outcome;
* `startsAnew_ofParticle`: what is drawn up does not depend on where the last numbering ended;
* `Compilation.diagnostic_not_mem_events`: nothing is reported of a particle that is compiled;
* `respond_eq_new`: whatever was asked before, a builder answers as a new one would.
-/
namespace ContentAutomata

namespace Draft

variable {α β : Type} {x : Draft α} {f : α → Draft β}

/-- What a draft returns, or why it was refused. -/
def answer (x : Draft α) (s : State) : Except Error α :=
  match x s with
  | .ok (a, _) => .ok a
  | .error failure => .error failure.error

/-- What is kept track of after a draft, whether it was refused or not. -/
def final (x : Draft α) (s : State) : State :=
  match x s with
  | .ok (_, s') => s'
  | .error failure => failure.state

theorem answer_bind (s : State) :
    (x >>= f).answer s = match x s with
      | .ok r => (f r.1).answer r.2
      | .error failure => .error failure.error := by
  have e : (x >>= f) s = x s >>= fun r => f r.1 r.2 := rfl
  unfold answer
  rw [e]
  cases x s <;> rfl

theorem final_bind (s : State) :
    (x >>= f).final s = match x s with
      | .ok r => (f r.1).final r.2
      | .error failure => failure.state := by
  have e : (x >>= f) s = x s >>= fun r => f r.1 r.2 := rfl
  unfold final
  rw [e]
  cases x s <;> rfl

/-! ## What a draft leaves behind -/

/-- What was said for the sake of an outcome: too many nodes are reported, and nothing else is. -/
def reported : Except Error α → List Event
  | .ok _ => []
  | .error e => e.events

/-- The draft changes nothing about how many nodes there may be, and says no more than what it comes
to has to say. -/
structure IsOrderly (x : Draft α) : Prop where
  bound : ∀ s, (x.final s).ledger.bound = s.ledger.bound
  said : ∀ s, (x.final s).said = s.said ++ reported (x.answer s)

/-- A step that succeeds, and touches neither the bound nor what was said. -/
theorem isOrderly_of_eq_ok {a : State → α} {next : State → State} (hx : ∀ s, x s = .ok (a s, next s))
    (hbound : ∀ s, (next s).ledger.bound = s.ledger.bound) (hsaid : ∀ s, (next s).said = s.said) :
    x.IsOrderly where
  bound s := by rw [final, hx, hbound]
  said s := by rw [final, answer, hx, hsaid, reported, List.append_nil]

theorem isOrderly_pure (a : α) : IsOrderly (pure a : Draft α) :=
  isOrderly_of_eq_ok (fun _ => rfl) (fun _ => rfl) fun _ => rfl

theorem IsOrderly.bind (hx : x.IsOrderly) (hf : ∀ a, (f a).IsOrderly) :
    (x >>= f).IsOrderly where
  bound s := by
    have hs := hx.bound s
    rw [final_bind]
    unfold final at hs
    cases h : x s with
    | error failure =>
      rw [h] at hs
      exact hs
    | ok r =>
      rw [h] at hs
      exact ((hf r.1).bound r.2).trans hs
  said s := by
    have hs := hx.said s
    rw [final_bind, answer_bind]
    unfold final answer at hs
    cases h : x s with
    | error failure =>
      rw [h] at hs
      exact hs
    | ok r =>
      rw [h, reported, List.append_nil] at hs
      exact ((hf r.1).said r.2).trans (by rw [hs])

theorem IsOrderly.map (hx : x.IsOrderly) (g : α → β) : (g <$> x).IsOrderly := by
  rw [map_eq_pure_bind]
  exact hx.bind fun a => isOrderly_pure (g a)

theorem IsOrderly.ite {c : Prop} [Decidable c] {y : Draft α} (hx : x.IsOrderly)
    (hy : y.IsOrderly) : (if c then x else y).IsOrderly := by
  split
  · exact hx
  · exact hy

theorem isOrderly_get : IsOrderly (get : Draft State) :=
  isOrderly_of_eq_ok (fun _ => rfl) (fun _ => rfl) fun _ => rfl

theorem isOrderly_newParticle : newParticle.IsOrderly :=
  isOrderly_of_eq_ok (fun _ => rfl) (fun _ => rfl) fun _ => rfl

theorem isOrderly_startNumbering : startNumbering.IsOrderly :=
  isOrderly_of_eq_ok (fun _ => rfl) (fun _ => rfl) fun _ => rfl

/-- A payment is reported exactly when it is refused. -/
theorem isOrderly_pay (count : Nat) : (pay count).IsOrderly := by
  constructor
  · intro s
    unfold final pay
    cases h : s.ledger.spend count with
    | error e => rfl
    | ok ledger =>
      obtain ⟨-, rfl⟩ := Ledger.spend_eq_ok.1 h
      rfl
  · intro s
    unfold final answer pay
    cases s.ledger.spend count with
    | error e => rfl
    | ok ledger => exact (List.append_nil _).symm

theorem isOrderly_refuse {e : Error} (he : e.events = []) : (refuse e : Draft α).IsOrderly where
  bound _ := rfl
  said s := by simp [final, answer, refuse, reported, he]

theorem isOrderly_require {check : Except Error Unit} (h : ∀ e, check = .error e → e.events = []) :
    (require check).IsOrderly := by
  cases check with
  | error e => exact isOrderly_refuse (h e rfl)
  | ok _ => exact isOrderly_of_eq_ok (fun _ => rfl) (fun _ => rfl) fun _ => rfl

theorem isOrderly_checkDepth (limits : Limits) (depth : Nat) :
    (require (limits.checkDepth depth)).IsOrderly := by
  refine isOrderly_require fun e he => ?_
  unfold Limits.checkDepth at he
  split at he
  · cases he
  · cases he
    rfl

theorem isOrderly_requireOrdered (m : Multiplicity) : (requireOrdered m).IsOrderly := by
  refine isOrderly_require fun e he => ?_
  cases h : m.check with
  | error fault =>
    rw [h] at he
    cases he
    rfl
  | ok _ =>
    rw [h] at he
    cases he

theorem isOrderly_refuseAll (c : Compositor) : (refuseAll c).IsOrderly := by
  refine isOrderly_require fun e he => ?_
  split at he
  · cases he
    rfl
  · cases he

theorem isOrderly_inspect (limits : Limits) (depth : Nat) (m : Multiplicity) :
    (inspect limits depth m).IsOrderly :=
  (isOrderly_checkDepth _ _).bind fun _ => (isOrderly_requireOrdered _).bind fun _ =>
    isOrderly_pure _

theorem isOrderly_compose (c : Compositor) (total : Nat) (built : List Tree) :
    (compose c total built).IsOrderly :=
  (isOrderly_pay _).bind fun _ => isOrderly_pure _

theorem isOrderly_compactTerm (term : Term) (m : Multiplicity) :
    (compactTerm term m).IsOrderly :=
  isOrderly_newParticle.bind fun _ => (isOrderly_pay _).bind fun _ => isOrderly_pure _

theorem isOrderly_expandedTerm (purpose : Purpose) (term : Term) (m : Multiplicity) :
    (expandedTerm purpose term m).IsOrderly := by
  refine isOrderly_newParticle.bind fun _ => (isOrderly_pay _).bind fun _ => ?_
  cases purpose <;> exact (isOrderly_pay _).bind fun _ => isOrderly_pure _

theorem isOrderly_expandedGroup (purpose : Purpose) (t : Tree) (m : Multiplicity) :
    (expandedGroup purpose t m).IsOrderly :=
  (isOrderly_pay _).bind fun _ => isOrderly_pure _

section Particles

variable {limits : Limits} {purpose : Purpose}

mutual
theorem isOrderly_compact : ∀ (p : Particle) (depth : Nat), (compact limits p depth).IsOrderly
  | .element name m, depth => by
    unfold compact
    refine (isOrderly_inspect _ _ _).bind fun _ => .ite ?_ (isOrderly_pure _)
    exact (isOrderly_compactTerm _ _).map _
  | .wildcard w, depth => by
    unfold compact
    refine (isOrderly_inspect _ _ _).bind fun _ => .ite ?_ (isOrderly_pure _)
    exact (isOrderly_compactTerm _ _).map _
  | .group c members m, depth => by
    unfold compact
    refine (isOrderly_inspect _ _ _).bind fun _ => .ite ?_ (isOrderly_pure _)
    refine (isOrderly_refuseAll _).bind fun _ => ?_
    split
    · exact (isOrderly_compactTerm _ _).map _
    · exact (isOrderly_compactAll members _).bind fun _ => isOrderly_compose _ _ _
theorem isOrderly_compactAll : ∀ (ps : List Particle) (depth : Nat),
    (compactAll limits ps depth).IsOrderly
  | [], _ => isOrderly_pure _
  | p :: ps, depth =>
    (isOrderly_compact p depth).bind fun _ =>
      (isOrderly_compactAll ps depth).bind fun _ => isOrderly_pure _
end

mutual
theorem isOrderly_expanded : ∀ (p : Particle) (depth : Nat),
    (expanded limits purpose p depth).IsOrderly
  | .element name m, depth => by
    unfold expanded
    refine (isOrderly_inspect _ _ _).bind fun _ => .ite ?_ (isOrderly_pure _)
    exact (isOrderly_expandedTerm _ _ _).bind fun _ => isOrderly_pure _
  | .wildcard w, depth => by
    unfold expanded
    refine (isOrderly_inspect _ _ _).bind fun _ => .ite ?_ (isOrderly_pure _)
    exact (isOrderly_expandedTerm _ _ _).bind fun _ => isOrderly_pure _
  | .group c members m, depth => by
    unfold expanded
    refine (isOrderly_inspect _ _ _).bind fun _ => .ite ?_ (isOrderly_pure _)
    refine (isOrderly_refuseAll _).bind fun _ => (isOrderly_expandedAll members _).bind fun _ =>
      (isOrderly_compose _ _ _).bind fun _ => ?_
    split
    · exact isOrderly_pure _
    · exact (isOrderly_expandedGroup _ _ _).bind fun _ => isOrderly_pure _
theorem isOrderly_expandedAll : ∀ (ps : List Particle) (depth : Nat),
    (expandedAll limits purpose ps depth).IsOrderly
  | [], _ => isOrderly_pure _
  | p :: ps, depth =>
    (isOrderly_expanded p depth).bind fun _ =>
      (isOrderly_expandedAll ps depth).bind fun _ => isOrderly_pure _
end

theorem isOrderly_allMembers : ∀ ps : List Particle, (allMembers ps).IsOrderly
  | [] => isOrderly_pure _
  | p :: ps => by
    unfold allMembers
    split
    · exact isOrderly_refuse rfl
    · refine (isOrderly_requireOrdered _).bind fun _ => .ite (isOrderly_allMembers ps) ?_
      exact isOrderly_newParticle.bind fun _ => (isOrderly_pay _).bind fun _ =>
        (isOrderly_allMembers ps).bind fun _ => isOrderly_pure _

theorem isOrderly_allGroup (members : List Particle) (m : Multiplicity) :
    (allGroup members m).IsOrderly := by
  refine (isOrderly_requireOrdered _).bind fun _ => .ite (isOrderly_pure _) ?_
  exact isOrderly_startNumbering.bind fun _ => (isOrderly_allMembers members).bind fun _ =>
    (isOrderly_pay _).bind fun _ => isOrderly_pure _

theorem isOrderly_syntaxTree (p : Particle) :
    (SyntaxTree.draft limits purpose p).IsOrderly := by
  unfold SyntaxTree.draft
  refine isOrderly_startNumbering.bind fun _ => .ite ?_ ?_
  · refine (isOrderly_compact p 1).bind fun _ => (isOrderly_pure _).bind fun _ => ?_
    exact isOrderly_get.bind fun _ => isOrderly_pure _
  · refine (isOrderly_expanded p 1).bind fun r => ?_
    cases r <;> exact (isOrderly_pure _).bind fun _ => isOrderly_get.bind fun _ =>
      isOrderly_pure _

theorem isOrderly_ofParticle (p : Particle) :
    (Compilation.ofParticle limits purpose p).IsOrderly := by
  unfold Compilation.ofParticle
  split
  · refine (isOrderly_allGroup _ _).bind fun t => ?_
    cases t <;> exact isOrderly_pure _
  · exact (isOrderly_syntaxTree _).map _

end Particles

/-! ## Where the last numbering ended does not matter -/

/-- What the draft returns is the same wherever the numbering of terms stands at its start. -/
def StartsAnew (x : Draft α) : Prop :=
  ∀ s next, x.answer { s with nextParticle := next } = x.answer s

theorem startsAnew_pure (a : α) : StartsAnew (pure a : Draft α) := fun _ _ => rfl

theorem startsAnew_startNumbering_bind (f : Unit → Draft β) : (startNumbering >>= f).StartsAnew :=
  fun _ _ => rfl

theorem StartsAnew.ite {c : Prop} [Decidable c] {y : Draft α} (hx : x.StartsAnew)
    (hy : y.StartsAnew) : (if c then x else y).StartsAnew := by
  split
  · exact hx
  · exact hy

theorem StartsAnew.require_bind {f : Unit → Draft β} (check : Except Error Unit)
    (hf : (f ()).StartsAnew) : (require check >>= f).StartsAnew := by
  intro s next
  cases check with
  | error e => rfl
  | ok _ => exact hf s next

theorem StartsAnew.bind (hx : x.StartsAnew) (hf : ∀ a s s', (f a).answer s = (f a).answer s') :
    (x >>= f).StartsAnew := by
  intro s next
  have hs := hx s next
  rw [answer_bind, answer_bind]
  unfold answer at hs
  cases h : x { s with nextParticle := next } <;> cases h' : x s <;>
    simp only [h, h', Except.error.injEq, Except.ok.injEq, reduceCtorEq] at hs ⊢
  case error.error => exact hs
  case ok.ok r r' =>
    rw [hs]
    exact hf _ _ _

theorem startsAnew_syntaxTree (limits : Limits) (purpose : Purpose) (p : Particle) :
    (SyntaxTree.draft limits purpose p).StartsAnew :=
  startsAnew_startNumbering_bind _

theorem startsAnew_allGroup (members : List Particle) (m : Multiplicity) :
    (allGroup members m).StartsAnew :=
  .require_bind _ (.ite (startsAnew_pure _) (startsAnew_startNumbering_bind _))

theorem startsAnew_ofParticle (limits : Limits) (purpose : Purpose) (p : Particle) :
    (Compilation.ofParticle limits purpose p).StartsAnew := by
  unfold Compilation.ofParticle
  split
  · refine (startsAnew_allGroup _ _).bind fun t _ _ => ?_
    cases t <;> rfl
  · rw [map_eq_pure_bind]
    exact (startsAnew_syntaxTree _ _ _).bind fun _ _ _ => rfl

end Draft

/-! ## What is said -/

theorem Automaton.diagnostic_not_mem_events {a : Automaton} {level : Level} {d : Diagnostic} :
    .diagnostic d ∉ a.events level := by
  intro h
  rcases List.mem_append.1 h with h | h
  · split at h
    · obtain ⟨x, -, hx⟩ := List.mem_map.1 h
      cases hx
    · cases h
  · cases List.mem_singleton.1 h

theorem SyntaxTree.diagnostic_not_mem_events {t : SyntaxTree} {d : Diagnostic} :
    .diagnostic d ∉ t.events := by
  intro h
  rcases List.mem_append.1 h with h | h
  · split at h
    · cases List.mem_singleton.1 h
    · cases h
  · cases List.mem_singleton.1 h

/-- Nothing is reported while a particle is compiled, unless it is refused. -/
theorem Compilation.diagnostic_not_mem_events {c : Compilation} {level : Level} {d : Diagnostic} :
    .diagnostic d ∉ c.events level := by
  intro h
  rcases List.mem_append.1 h with h | h
  · split at h
    · exact absurd h SyntaxTree.diagnostic_not_mem_events
    · cases h
  · split at h
    · cases h
    · exact absurd h Automaton.diagnostic_not_mem_events
    · cases List.mem_singleton.1 h

/-! ## Requests to a builder -/

/-- Something that a builder is asked for. -/
inductive Request where
  /-- The model of a particle. -/
  | build (p : Particle) (purpose : Purpose)
  /-- The syntax tree of a particle. -/
  | syntaxTree (p : Particle) (purpose : Purpose)
  /-- The content model of a type, whatever the type keeps. -/
  | contentModel (t : ComplexType) (purpose : Purpose)
  /-- A change of the limits. -/
  | setLimits (limits : Limits)

/-- What a builder answers. -/
inductive Answer where
  | model (outcome : Except Error Compilation)
  | syntaxTree (outcome : Except Error SyntaxTree)
  | contentModel (model : Except Error (Option Model))
  | limitsSet

namespace Builder

/-- What comes of a request. -/
structure Reply where
  answer : Answer
  /-- What is said on the way. -/
  events : List Event
  /-- The builder afterwards. -/
  builder : Builder

/-- Serves a request; what is said reaches up to the given level of detail. -/
def respond (level : Level) (b : Builder) : Request → Reply
  | .build p purpose =>
    let (outcome, b) := b.build p purpose
    ⟨.model outcome, buildJournal level (outcome, b), b⟩
  | .syntaxTree p purpose =>
    let (outcome, b) := b.syntaxTree p purpose
    ⟨.syntaxTree outcome, treeJournal (outcome, b), b⟩
  | .contentModel t purpose =>
    let reply := t.compile b purpose
    ⟨.contentModel reply.model, reply.journal level, reply.builder⟩
  | .setLimits limits => ⟨.limitsSet, [], b.setLimits limits⟩

/-- The builder after a series of requests. -/
def serve (level : Level) (b : Builder) (requests : List Request) : Builder :=
  requests.foldl (fun b request => (b.respond level request).builder) b

/-- The limits in force after a series of requests that began under the given ones. -/
def limitsAfter (limits : Limits) (requests : List Request) : Limits :=
  requests.foldl (fun limits request =>
    match request with
    | .setLimits limits => limits
    | _ => limits) limits

/-! ## Every request finds a clean builder -/

/-- Nothing is left in the ledger, and its bound is that of the limits in force. -/
def IsClean (b : Builder) : Prop := b.ledger = .ofLimits b.limits

variable {α : Type} {b : Builder}

theorem isClean_new (limits : Limits) : (new limits).IsClean := rfl

theorem run_eq (b : Builder) (draft : Draft α) :
    b.run draft = (draft.answer b.start, b.resume (draft.final b.start)) := by
  unfold run Draft.answer Draft.final
  cases draft b.start <;> rfl

/-- What was said while something was drawn up is what the outcome has to say. -/
theorem said_run (b : Builder) {draft : Draft α} (hd : draft.IsOrderly) :
    (b.run draft).2.said = Draft.reported (b.run draft).1 := by
  rw [run_eq]
  exact hd.said b.start

/-- All that is said follows from the outcome. -/
theorem treeJournal_eq (b : Builder) (p : Particle) (purpose : Purpose) :
    treeJournal (b.syntaxTree p purpose) = treeEvents (b.syntaxTree p purpose).1 := by
  rw [treeJournal, syntaxTree, said_run b (Draft.isOrderly_syntaxTree p)]
  cases (b.run (SyntaxTree.draft b.limits purpose p)).1 with
  | ok t => rfl
  | error e => exact List.append_nil _

theorem buildJournal_eq (b : Builder) (p : Particle) (purpose : Purpose) (level : Level) :
    buildJournal level (b.build p purpose) = buildEvents level (b.build p purpose).1 := by
  rw [buildJournal, build, said_run b (Draft.isOrderly_ofParticle p)]
  cases (b.run (Compilation.ofParticle b.limits purpose p)).1 with
  | ok c => rfl
  | error e => rfl

theorem IsClean.run (h : b.IsClean) {draft : Draft α} (hd : draft.IsOrderly) :
    (b.run draft).2.IsClean := by
  have hbound := hd.bound b.start
  rw [run_eq]
  simp only [IsClean, resume, Ledger.clear, Ledger.ofLimits] at hbound ⊢
  rw [hbound, start, h]
  rfl

/-- A clean builder draws up what a new one would. -/
theorem IsClean.run_fst (h : b.IsClean) {draft : Draft α} (hd : draft.StartsAnew) :
    (b.run draft).1 = ((new b.limits).run draft).1 := by
  rw [run_eq, run_eq, start, h]
  exact (hd ⟨.ofLimits b.limits, b.nextParticle, []⟩ 0).symm

theorem IsClean.respond (h : b.IsClean) (level : Level) (request : Request) :
    (b.respond level request).builder.IsClean := by
  cases request with
  | build p purpose => exact h.run (Draft.isOrderly_ofParticle p)
  | syntaxTree p purpose => exact h.run (Draft.isOrderly_syntaxTree p)
  | contentModel t purpose =>
    simp only [Builder.respond, ComplexType.compile]
    split
    · split
      · exact h.run (Draft.isOrderly_ofParticle _)
      · exact h
    · exact h
  | setLimits limits => rfl

theorem limits_respond (b : Builder) (level : Level) (request : Request) :
    (b.respond level request).builder.limits = limitsAfter b.limits [request] := by
  cases request with
  | build p purpose => exact run_limits _ _
  | syntaxTree p purpose => exact run_limits _ _
  | contentModel t purpose =>
    simp only [Builder.respond, ComplexType.compile, limitsAfter, List.foldl_cons, List.foldl_nil]
    split
    · split
      · exact run_limits _ _
      · rfl
    · rfl
  | setLimits limits => rfl

/-- What a series of requests leaves behind. -/
theorem IsClean.serve (h : b.IsClean) (level : Level) (requests : List Request) :
    (b.serve level requests).IsClean ∧
      (b.serve level requests).limits = limitsAfter b.limits requests := by
  induction requests generalizing b with
  | nil => exact ⟨h, rfl⟩
  | cons request requests ih =>
    obtain ⟨hclean, hlimits⟩ := ih (h.respond level request)
    exact ⟨hclean, hlimits.trans (by rw [limits_respond]; rfl)⟩

/-- A clean builder answers as a new one would, and says the same on the way. -/
theorem IsClean.respond_eq (h : b.IsClean) (level : Level) (request : Request) :
    (b.respond level request).answer = ((new b.limits).respond level request).answer ∧
      (b.respond level request).events = ((new b.limits).respond level request).events := by
  have hbuild : ∀ p purpose, (b.build p purpose).1 = ((new b.limits).build p purpose).1 :=
    fun p purpose => h.run_fst (Draft.startsAnew_ofParticle _ _ p)
  have htree : ∀ p purpose, (b.syntaxTree p purpose).1 = ((new b.limits).syntaxTree p purpose).1 :=
    fun p purpose => h.run_fst (Draft.startsAnew_syntaxTree _ _ p)
  have hbuildJournal : ∀ p purpose, buildJournal level (b.build p purpose) =
      buildJournal level ((new b.limits).build p purpose) := fun p purpose => by
    rw [buildJournal_eq, buildJournal_eq, hbuild]
  have htreeJournal : ∀ p purpose, treeJournal (b.syntaxTree p purpose) =
      treeJournal ((new b.limits).syntaxTree p purpose) := fun p purpose => by
    rw [treeJournal_eq, treeJournal_eq, htree]
  cases request with
  | build p purpose => exact ⟨congrArg Answer.model (hbuild p purpose), hbuildJournal p purpose⟩
  | syntaxTree p purpose =>
    exact ⟨congrArg Answer.syntaxTree (htree p purpose), htreeJournal p purpose⟩
  | contentModel t purpose =>
    simp only [Builder.respond, ComplexType.compile]
    split
    · split
      · exact ⟨by rw [hbuild], hbuildJournal _ purpose⟩
      · exact ⟨rfl, rfl⟩
    · exact ⟨rfl, rfl⟩
  | setLimits limits => exact ⟨rfl, rfl⟩

/-- Whatever a builder was asked for before, it answers as a new builder would under the limits in
force, says the same on the way, and has no payments left afterwards. -/
theorem respond_eq_new (level : Level) (limits : Limits) (requests : List Request)
    (request : Request) :
    let b := (new limits).serve level requests
    let fresh := new (limitsAfter limits requests)
    (b.respond level request).answer = (fresh.respond level request).answer ∧
      (b.respond level request).events = (fresh.respond level request).events ∧
      (b.respond level request).builder.ledger.spent = 0 := by
  intro b fresh
  obtain ⟨hclean, hlimits⟩ := (isClean_new limits).serve level requests
  obtain ⟨hanswer, hevents⟩ := hclean.respond_eq level request
  have hfresh : new b.limits = fresh := congrArg new hlimits
  rw [hfresh] at hanswer hevents
  refine ⟨hanswer, hevents, ?_⟩
  rw [hclean.respond level request]
  rfl

end Builder

end ContentAutomata
