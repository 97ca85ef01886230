import ContentAutomata.Builder
import ContentAutomata.Proofs.Language.Particle

/-!
# The tree that a particle comes to

Drawing up a tree can be refused, because of a limit or of a fault in the schema. If it is not
refused, limits leave no trace: the tree is the one that two plain functions give, `compactTree` for
the compact shape and `expandedTree` for the expanded one, and as many numbers were handed out as
the particle has terms.

Results:
* `expandedTree_eq_none_iff`: there is no expanded tree exactly when the particle vanishes;
* `compact_eq_ok`, `expanded_eq_ok`: what a draft that succeeds has drawn up, and whether it is an
  approximation;
* `allGroup_eq_ok`: the same for an `all` group;
* `inspected_eq_ok`: a particle is drawn up if its bounds are in order and it may occur.
-/
namespace ContentAutomata

namespace Draft

/-! ## Steps of a draft that succeeds -/

section Steps

variable {α β : Type} {s s' : State}

theorem bind_eq_ok {x : Draft α} {f : α → Draft β} {r : β × State} :
    (x >>= f) s = .ok r ↔ ∃ a s', x s = .ok (a, s') ∧ f a s' = .ok r := by
  have e : (x >>= f) s = x s >>= fun p => f p.1 p.2 := rfl
  rw [e]
  cases h : x s with
  | error e => simp [bind, Except.bind]
  | ok p => exact ⟨fun hr => ⟨p.1, p.2, rfl, hr⟩, fun ⟨a, s', hp, hr⟩ => by cases hp; exact hr⟩

theorem pure_eq_ok {a : α} {r : α × State} : (pure a : Draft α) s = .ok r ↔ r = (a, s) := by
  have e : (pure a : Draft α) s = .ok (a, s) := rfl
  rw [e, Except.ok.injEq, eq_comm]

theorem map_eq_ok {f : α → β} {x : Draft α} {r : β × State} :
    (f <$> x) s = .ok r ↔ ∃ a s', x s = .ok (a, s') ∧ r = (f a, s') := by
  rw [map_eq_pure_bind, bind_eq_ok]
  simp only [pure_eq_ok]

theorem require_eq_ok {check : Except Error Unit} {u : Unit} :
    require check s = .ok (u, s') ↔ check = .ok () ∧ s' = s := by
  unfold require
  split <;> simp [*, eq_comm]

theorem requireOrdered_eq_ok {m : Multiplicity} {u : Unit} :
    requireOrdered m s = .ok (u, s') ↔ m.isOrdered = true ∧ s' = s := by
  unfold requireOrdered
  rw [require_eq_ok, ← Multiplicity.check_eq_ok_iff]
  cases m.check <;> simp [Except.mapError]

theorem inspect_eq_ok {limits : Limits} {depth : Nat} {m : Multiplicity} {b : Bool} :
    inspect limits depth m s = .ok (b, s') ↔
      limits.checkDepth depth = .ok () ∧ m.isOrdered = true ∧ b = !m.isNever ∧ s' = s := by
  simp only [inspect, bind_eq_ok, pure_eq_ok, require_eq_ok, requireOrdered_eq_ok]
  constructor
  · intro hx
    obtain ⟨_, _, ⟨hd, rfl⟩, _, _, ⟨ho, rfl⟩, h⟩ := hx
    cases h
    exact ⟨hd, ho, rfl, rfl⟩
  · intro hx
    obtain ⟨hd, ho, rfl, rfl⟩ := hx
    exact ⟨(), _, ⟨hd, rfl⟩, (), _, ⟨ho, rfl⟩, rfl⟩

/-- A particle that was inspected is drawn up if it may occur. -/
theorem inspected_eq_ok {limits : Limits} {depth : Nat} {m : Multiplicity}
    {x : Draft (Option α)} {r : Option α × State} :
    (do if ← inspect limits depth m then x else return none : Draft (Option α)) s = .ok r ↔
      limits.checkDepth depth = .ok () ∧ m.isOrdered = true ∧
        if m.isNever then r = (none, s) else x s = .ok r := by
  simp only [bind_eq_ok, inspect_eq_ok]
  constructor
  · intro h
    obtain ⟨_, _, ⟨hd, ho, rfl, rfl⟩, h⟩ := h
    refine ⟨hd, ho, ?_⟩
    cases hn : m.isNever <;> simpa [hn, pure_eq_ok] using h
  · intro h
    obtain ⟨hd, ho, h⟩ := h
    refine ⟨_, _, ⟨hd, ho, rfl, rfl⟩, ?_⟩
    cases hn : m.isNever <;> simpa [hn, pure_eq_ok] using h

theorem refuseAll_eq_ok {c : Compositor} {u : Unit} :
    refuseAll c s = .ok (u, s') ↔ c ≠ .all ∧ s' = s := by
  unfold refuseAll
  rw [require_eq_ok]
  split <;> simp [*]

theorem newParticle_eq_ok {i : Nat} :
    newParticle s = .ok (i, s') ↔
      i = s.nextParticle ∧ s' = { s with nextParticle := s.nextParticle + 1 } := by
  simp [newParticle, eq_comm]

theorem startNumbering_eq_ok {u : Unit} :
    startNumbering s = .ok (u, s') ↔ s' = { s with nextParticle := 0 } := by
  simp [startNumbering, eq_comm]

theorem nextParticle_of_pay {count : Nat} {u : Unit} (h : pay count s = .ok (u, s')) :
    s'.nextParticle = s.nextParticle := by
  unfold pay at h
  split at h
  · cases h
    rfl
  · cases h

theorem compose_eq_ok {c : Compositor} {total : Nat} {built : List Tree} {t : Option Tree}
    (h : compose c total built s = .ok (t, s')) :
    t = composed c (built.length < total) built ∧ s'.nextParticle = s.nextParticle := by
  simp only [compose, bind_eq_ok, pure_eq_ok] at h
  obtain ⟨_, s₁, hp, h⟩ := h
  cases h
  exact ⟨rfl, nextParticle_of_pay hp⟩

end Steps

end Draft

/-! ## The trees as plain functions -/

namespace Particle

mutual
/-- Whether no tree is refused for a fault in the particle itself: all bounds that matter are in
order, and no group that may occur is an `all` group. -/
def isWellFormed : Particle → Bool
  | element _ m => m.isOrdered
  | wildcard w => w.occurs.isOrdered
  | group c members m => m.isOrdered && (m.isNever || (c != .all && allWellFormed members))
/-- Whether every particle of a list is well formed. -/
def allWellFormed : List Particle → Bool
  | [] => true
  | p :: ps => p.isWellFormed && allWellFormed ps
end

mutual
/-- The compact tree of a particle whose first term has the number `next`. -/
def compactTree : Particle → (next : Nat) → Option Tree
  | element name m, next =>
    if m.isNever then none else some (Draft.countedTerm ⟨.element name, next, 0⟩ m)
  | wildcard w, next =>
    if w.occurs.isNever then none else some (Draft.countedTerm ⟨.wildcard w, next, 0⟩ w.occurs)
  | group c members m, next =>
    if m.isNever then none
    else
      match Draft.onlyTerm? members, m.isOnce with
      | some term, false => some (Draft.countedTerm ⟨term, next, 0⟩ m)
      | _, _ =>
        let built := compactTrees members next
        Draft.composed c (built.length < members.length) built
/-- The compact trees of those particles of a list that do not vanish. -/
def compactTrees : List Particle → (next : Nat) → List Tree
  | [], _ => []
  | p :: ps, next => (p.compactTree next).toList ++ compactTrees ps (next + p.terms.length)
end

/-- The expanded tree of a term that occurs as often as `m` says. -/
def expandedTermTree (purpose : Purpose) (l : Leaf) (m : Multiplicity) : Tree :=
  match purpose with
  | .validation => (Tree.leaf l).repeated (Draft.spelledOut .validation m)
  | .attribution => (Tree.leaf l).repeatedFreely (Draft.spelledOut .attribution m)

mutual
/-- The expanded tree of a particle whose first term has the number `next`. -/
def expandedTree (purpose : Purpose) : Particle → (next : Nat) → Option Tree
  | element name m, next =>
    if m.isNever then none else some (expandedTermTree purpose ⟨.element name, next, 0⟩ m)
  | wildcard w, next =>
    if w.occurs.isNever then none
    else some (expandedTermTree purpose ⟨.wildcard w, next, 0⟩ w.occurs)
  | group c members m, next =>
    if m.isNever then none
    else
      let built := expandedTrees purpose members next
      (Draft.composed c (built.length < members.length) built).map
        (·.repeated (Draft.spelledOut purpose m))
/-- The expanded trees of those particles of a list that do not vanish. -/
def expandedTrees (purpose : Purpose) : List Particle → (next : Nat) → List Tree
  | [], _ => []
  | p :: ps, next =>
    (p.expandedTree purpose next).toList ++ expandedTrees purpose ps (next + p.terms.length)
end

/-- The trees of those members of an `all` group that may occur, the first of which has the number
`next`. -/
def memberTrees : List Particle → (next : Nat) → List Tree
  | [], _ => []
  | p :: ps, next =>
    match p.term?, p.occurs.isNever with
    | some term, false => .counted ⟨term, next, 0⟩ p.occurs :: memberTrees ps (next + 1)
    | _, _ => memberTrees ps next

end Particle

/-! ## Vanishing -/

theorem Draft.composed_eq_none_iff {c : Compositor} {someVanished : Bool} {built : List Tree} :
    Draft.composed c someVanished built = none ↔ built = [] := by
  cases built with
  | nil => simp [Draft.composed]
  | cons t ts => cases c <;> simp [Draft.composed]

namespace Particle

mutual
theorem expandedTree_eq_none_iff (purpose : Purpose) : ∀ (p : Particle) (next : Nat),
    p.expandedTree purpose next = none ↔ p.vanishes = true
  | element name m, next => by simp [expandedTree, vanishes]
  | wildcard w, next => by simp [expandedTree, vanishes]
  | group c members m, next => by
    have hlen := length_expandedTrees purpose members next
    cases hn : m.isNever with
    | true => simp [expandedTree, vanishes, hn]
    | false =>
      simp only [expandedTree, vanishes, hn, Bool.false_eq_true, if_false, Bool.false_or,
        Option.map_eq_none_iff, Draft.composed_eq_none_iff, ← List.length_eq_zero_iff, hlen]
      simp [allVanish_eq]
theorem length_expandedTrees (purpose : Purpose) : ∀ (ps : List Particle) (next : Nat),
    (expandedTrees purpose ps next).length = ps.countP (fun p => !p.vanishes)
  | [], next => rfl
  | p :: ps, next => by
    have ih := length_expandedTrees purpose ps (next + p.terms.length)
    have hp := expandedTree_eq_none_iff purpose p next
    cases h : p.expandedTree purpose next <;> simp_all [expandedTrees]
end

theorem composed_expandedTrees_eq_none_iff (purpose : Purpose) (c : Compositor)
    (members : List Particle) (next : Nat) :
    Draft.composed c ((expandedTrees purpose members next).length < members.length)
      (expandedTrees purpose members next) = none ↔ allVanish members = true := by
  rw [Draft.composed_eq_none_iff, ← List.length_eq_zero_iff, length_expandedTrees]
  simp [allVanish_eq]

mutual
/-- Whether the expanded tree of a particle is an approximation: some multiplicity in it was not
spelled out as it stands. -/
def isApproximated (purpose : Purpose) : Particle → Bool
  | element _ m => !m.isNever && Draft.isApproximate purpose m
  | wildcard w => !w.occurs.isNever && Draft.isApproximate purpose w.occurs
  | group _ members m =>
    !(m.isNever || allVanish members) &&
      (Draft.isApproximate purpose m || anyApproximated purpose members)
/-- Whether the expanded tree of some particle of a list is an approximation. -/
def anyApproximated (purpose : Purpose) : List Particle → Bool
  | [] => false
  | p :: ps => p.isApproximated purpose || anyApproximated purpose ps
end

end Particle

/-! ## What a draft has drawn up -/

namespace Draft

variable {limits : Limits} {purpose : Purpose} {depth : Nat} {s s' : State}

theorem compactTerm_eq_ok {term : Term} {m : Multiplicity} {t : Tree}
    (h : compactTerm term m s = .ok (t, s')) :
    t = countedTerm ⟨term, s.nextParticle, 0⟩ m ∧ s'.nextParticle = s.nextParticle + 1 := by
  simp only [compactTerm, bind_eq_ok, newParticle_eq_ok, pure_eq_ok] at h
  obtain ⟨_, _, ⟨rfl, rfl⟩, _, s₁, hp, h⟩ := h
  cases h
  exact ⟨rfl, nextParticle_of_pay hp⟩

/-- What a term in the compact shape comes to. -/
theorem inspected_compactTerm {term : Term} {m : Multiplicity} {t : Option Tree}
    (h : if m.isNever then (t, s') = (none, s) else (some <$> compactTerm term m) s = .ok (t, s')) :
    t = (if m.isNever then none else some (countedTerm ⟨term, s.nextParticle, 0⟩ m)) ∧
      s'.nextParticle = s.nextParticle + (if m.isNever then [] else [term]).length := by
  cases hn : m.isNever with
  | true =>
    rw [if_pos hn] at h
    cases h
    exact ⟨rfl, rfl⟩
  | false =>
    rw [if_neg (by simp [hn]), map_eq_ok] at h
    obtain ⟨u, s₁, hu, h⟩ := h
    cases h
    obtain ⟨rfl, hk⟩ := compactTerm_eq_ok hu
    exact ⟨rfl, hk⟩

theorem terms_length_of_isTerm {p : Particle} (h : p.isTerm = true)
    (hn : p.occurs.isNever = false) : p.terms.length = 1 := by
  cases p with
  | element name m => simp_all [Particle.terms, Particle.occurs]
  | wildcard w => simp_all [Particle.terms, Particle.occurs]
  | group c ms m => simp [Particle.isTerm, Particle.term?] at h

theorem isWellFormed_of_isTerm {p : Particle} (h : p.isTerm = true)
    (ho : p.occurs.isOrdered = true) : p.isWellFormed = true := by
  cases p with
  | element name m => exact ho
  | wildcard w => exact ho
  | group c ms m => simp [Particle.isTerm, Particle.term?] at h

theorem isWellFormed_group {c : Compositor} {members : List Particle} {m : Multiplicity}
    (ho : m.isOrdered = true) (hc : c ≠ .all) (h : Particle.allWellFormed members = true) :
    (Particle.group c members m).isWellFormed = true := by
  simp [Particle.isWellFormed, ho, hc, h]

/-- A group that a counter stands in for holds nothing, or a single term. -/
theorem repeated_group_cases {c : Compositor} {members : List Particle} {m : Multiplicity}
    (h : (Particle.group c members m).isCountable = true) (ho : m.isOnce = false) :
    members = [] ∨ ∃ p, members = [p] ∧ p.isTerm = true ∧ p.occurs = .once := by
  simp only [Particle.isCountable, ho, Bool.false_eq_true, if_false] at h
  match members, h with
  | [], _ => exact .inl rfl
  | [p], h =>
    rw [Bool.and_eq_true] at h
    exact .inr ⟨p, rfl, h.1, Multiplicity.isOnce_iff.1 h.2⟩

theorem allCountable_of_isOnce {c : Compositor} {members : List Particle} {m : Multiplicity}
    (h : (Particle.group c members m).isCountable = true) (ho : m.isOnce = true) :
    Particle.allCountable members = true := by
  simp only [Particle.isCountable, ho, if_true, Bool.and_eq_true] at h
  exact h.2

mutual
theorem compact_eq_ok : ∀ {p : Particle} {depth : Nat} {s s' : State} {t : Option Tree},
    p.isCountable = true → compact limits p depth s = .ok (t, s') →
      p.isWellFormed = true ∧ t = p.compactTree s.nextParticle ∧
        s'.nextParticle = s.nextParticle + p.terms.length
  | .element name m, depth, s, s', t, _, h => by
    unfold compact at h
    rw [inspected_eq_ok] at h
    unfold Particle.isWellFormed Particle.compactTree Particle.terms
    exact ⟨h.2.1, inspected_compactTerm h.2.2⟩
  | .wildcard w, depth, s, s', t, _, h => by
    unfold compact at h
    rw [inspected_eq_ok] at h
    unfold Particle.isWellFormed Particle.compactTree Particle.terms
    exact ⟨h.2.1, inspected_compactTerm h.2.2⟩
  | .group c members m, depth, s, s', t, hc, h => by
    unfold compact at h
    rw [inspected_eq_ok] at h
    obtain ⟨-, hord, h⟩ := h
    split at h
    · rename_i hn
      cases h
      simp [Particle.compactTree, Particle.terms, Particle.isWellFormed, hord, hn]
    · rename_i hn
      simp only [bind_eq_ok, refuseAll_eq_ok] at h
      obtain ⟨_, _, ⟨hc', rfl⟩, h⟩ := h
      simp only [Particle.compactTree, Particle.terms, hn, Bool.false_eq_true, if_false]
      cases ho : m.isOnce with
      | true =>
        have hall := allCountable_of_isOnce hc ho
        cases hterm : onlyTerm? members <;> simp only [hterm, ho, bind_eq_ok] at h ⊢ <;>
          obtain ⟨built, s₁, hb, h⟩ := h <;>
          obtain ⟨rfl, hk⟩ := compose_eq_ok h <;>
          obtain ⟨hw, rfl, hk'⟩ := compactAll_eq_ok hall hb <;>
          exact ⟨isWellFormed_group hord hc' hw, rfl, hk.trans hk'⟩
      | false =>
        rcases repeated_group_cases hc ho with rfl | ⟨p, rfl, hp, honce⟩
        · simp only [onlyTerm?, compactAll, bind_eq_ok, pure_eq_ok] at h ⊢
          obtain ⟨built, s₁, hb, h⟩ := h
          cases hb
          exact ⟨isWellFormed_group hord hc' rfl, compose_eq_ok h⟩
        · obtain ⟨term, hterm⟩ := Option.isSome_iff_exists.1 hp
          simp only [onlyTerm?, hterm, ho, map_eq_ok] at h ⊢
          obtain ⟨t, s₁, ht, h⟩ := h
          cases h
          obtain ⟨rfl, hk⟩ := compactTerm_eq_ok ht
          have hlen := terms_length_of_isTerm hp (by rw [honce]; rfl)
          have hw := isWellFormed_of_isTerm hp (by rw [honce]; rfl)
          exact ⟨isWellFormed_group hord hc' (by simp [Particle.allWellFormed, hw]), rfl,
            by simp [Particle.termsOf, hlen, hk]⟩
theorem compactAll_eq_ok : ∀ {ps : List Particle} {depth : Nat} {s s' : State} {ts : List Tree},
    Particle.allCountable ps = true → compactAll limits ps depth s = .ok (ts, s') →
      Particle.allWellFormed ps = true ∧ ts = Particle.compactTrees ps s.nextParticle ∧
        s'.nextParticle = s.nextParticle + (Particle.termsOf ps).length
  | [], depth, s, s', ts, _, h => by
    unfold compactAll at h
    rw [pure_eq_ok] at h
    cases h
    simp [Particle.compactTrees, Particle.termsOf, Particle.allWellFormed]
  | p :: ps, depth, s, s', ts, hc, h => by
    simp only [Particle.allCountable, Bool.and_eq_true] at hc
    simp only [compactAll, bind_eq_ok, pure_eq_ok] at h
    obtain ⟨t, s₁, ht, us, s₂, hu, h⟩ := h
    cases h
    obtain ⟨hw, rfl, hk⟩ := compact_eq_ok hc.1 ht
    obtain ⟨hws, rfl, hk'⟩ := compactAll_eq_ok hc.2 hu
    rw [hk] at hk' ⊢
    simp [Particle.compactTrees, Particle.termsOf, Particle.allWellFormed, hw, hws, hk',
      Nat.add_assoc]
end

theorem expandedTerm_eq_ok {term : Term} {m : Multiplicity} {t : Tree}
    (h : expandedTerm purpose term m s = .ok (t, s')) :
    t = Particle.expandedTermTree purpose ⟨term, s.nextParticle, 0⟩ m ∧
      s'.nextParticle = s.nextParticle + 1 := by
  simp only [expandedTerm, bind_eq_ok, newParticle_eq_ok] at h
  obtain ⟨_, _, ⟨rfl, rfl⟩, _, s₁, hp, h⟩ := h
  have h₁ := nextParticle_of_pay hp
  cases purpose <;> simp only [bind_eq_ok, pure_eq_ok] at h <;>
    obtain ⟨_, s₂, hp, h⟩ := h <;> cases h <;>
    exact ⟨rfl, (nextParticle_of_pay hp).trans h₁⟩

/-- What a term in the expanded shape comes to. -/
theorem inspected_expandedTerm {term : Term} {m : Multiplicity} {r : Option (Tree × Bool)}
    (h : if m.isNever then (r, s') = (none, s) else
      (do
        let t ← expandedTerm purpose term m
        return some (t, isApproximate purpose m) : Draft (Option (Tree × Bool))) s = .ok (r, s')) :
    r.map (·.1) = (if m.isNever then none
        else some (Particle.expandedTermTree purpose ⟨term, s.nextParticle, 0⟩ m)) ∧
      r.any (·.2) = (!m.isNever && isApproximate purpose m) ∧
      s'.nextParticle = s.nextParticle + (if m.isNever then [] else [term]).length := by
  cases hn : m.isNever with
  | true =>
    rw [if_pos hn] at h
    cases h
    exact ⟨rfl, rfl, rfl⟩
  | false =>
    simp only [hn, Bool.false_eq_true, if_false, bind_eq_ok, pure_eq_ok] at h
    obtain ⟨t, s₁, ht, h⟩ := h
    cases h
    obtain ⟨rfl, hk⟩ := expandedTerm_eq_ok ht
    exact ⟨rfl, rfl, hk⟩

theorem expandedGroup_eq_ok {t t' : Tree} {m : Multiplicity}
    (h : expandedGroup purpose t m s = .ok (t', s')) :
    t' = t.repeated (spelledOut purpose m) ∧ s'.nextParticle = s.nextParticle := by
  simp only [expandedGroup, bind_eq_ok, pure_eq_ok] at h
  obtain ⟨_, s₁, hp, h⟩ := h
  cases h
  exact ⟨rfl, nextParticle_of_pay hp⟩

mutual
theorem expanded_eq_ok : ∀ {p : Particle} {depth : Nat} {s s' : State} {r : Option (Tree × Bool)},
    expanded limits purpose p depth s = .ok (r, s') →
      p.isWellFormed = true ∧ r.map (·.1) = p.expandedTree purpose s.nextParticle ∧
        r.any (·.2) = p.isApproximated purpose ∧
        s'.nextParticle = s.nextParticle + p.terms.length
  | .element name m, depth, s, s', r, h => by
    unfold expanded at h
    rw [inspected_eq_ok] at h
    unfold Particle.isWellFormed Particle.expandedTree Particle.isApproximated Particle.terms
    exact ⟨h.2.1, inspected_expandedTerm h.2.2⟩
  | .wildcard w, depth, s, s', r, h => by
    unfold expanded at h
    rw [inspected_eq_ok] at h
    unfold Particle.isWellFormed Particle.expandedTree Particle.isApproximated Particle.terms
    exact ⟨h.2.1, inspected_expandedTerm h.2.2⟩
  | .group c members m, depth, s, s', r, h => by
    unfold expanded at h
    rw [inspected_eq_ok] at h
    obtain ⟨-, hord, h⟩ := h
    split at h
    · rename_i hn
      cases h
      simp [Particle.expandedTree, Particle.isApproximated, Particle.terms, Particle.isWellFormed,
        hord, hn]
    · rename_i hn
      simp only [bind_eq_ok, refuseAll_eq_ok] at h
      obtain ⟨_, s₀, ⟨hc', rfl⟩, built, s₁, hb, u, s₂, hu, h⟩ := h
      obtain ⟨hw, hb, happrox, hk⟩ := expandedAll_eq_ok hb
      obtain ⟨rfl, hk'⟩ := compose_eq_ok hu
      have hvanish := Particle.composed_expandedTrees_eq_none_iff purpose c members s₀.nextParticle
      simp only [Particle.expandedTree, Particle.isApproximated, Particle.terms, hn,
        Bool.false_eq_true, if_false, Bool.false_or, ← hb, List.length_map] at h hvanish ⊢
      cases hcomp : composed c (built.length < members.length) (built.map (·.1)) with
      | none =>
        simp only [hcomp, pure_eq_ok] at h
        cases h
        exact ⟨isWellFormed_group hord hc' hw, rfl, by simp [hvanish.1 hcomp], hk'.trans hk⟩
      | some t =>
        simp only [hcomp, bind_eq_ok, pure_eq_ok] at h
        obtain ⟨t', s₃, ht, h⟩ := h
        cases h
        obtain ⟨rfl, hk''⟩ := expandedGroup_eq_ok ht
        have hstays : Particle.allVanish members = false := by
          simpa [hcomp] using hvanish
        exact ⟨isWellFormed_group hord hc' hw, rfl, by simp [hstays, happrox],
          hk''.trans (hk'.trans hk)⟩
theorem expandedAll_eq_ok : ∀ {ps : List Particle} {depth : Nat} {s s' : State}
    {rs : List (Tree × Bool)}, expandedAll limits purpose ps depth s = .ok (rs, s') →
      Particle.allWellFormed ps = true ∧
        rs.map (·.1) = Particle.expandedTrees purpose ps s.nextParticle ∧
        rs.any (·.2) = Particle.anyApproximated purpose ps ∧
        s'.nextParticle = s.nextParticle + (Particle.termsOf ps).length
  | [], depth, s, s', rs, h => by
    unfold expandedAll at h
    rw [pure_eq_ok] at h
    cases h
    simp [Particle.expandedTrees, Particle.termsOf, Particle.allWellFormed,
      Particle.anyApproximated]
  | p :: ps, depth, s, s', rs, h => by
    simp only [expandedAll, bind_eq_ok, pure_eq_ok] at h
    obtain ⟨r, s₁, hr, us, s₂, hu, h⟩ := h
    cases h
    obtain ⟨hw, hr, happrox, hk⟩ := expanded_eq_ok hr
    obtain ⟨hws, hu, happrox', hk'⟩ := expandedAll_eq_ok hu
    rw [hk] at hk' hu
    rw [List.map_append, hu, Particle.expandedTrees, ← hr]
    refine ⟨by simp [Particle.allWellFormed, hw, hws], ?_, ?_,
      by simp [Particle.termsOf, hk', Nat.add_assoc]⟩
    · cases r <;> rfl
    · rw [List.any_append, happrox', Particle.anyApproximated, ← happrox]
      cases r <;> simp
end

/-! ## `all` groups -/

theorem allMembers_eq_ok : ∀ {ps : List Particle} {s s' : State} {ts : List Tree},
    allMembers ps s = .ok (ts, s') → ts = Particle.memberTrees ps s.nextParticle
  | [], s, s', ts, h => by
    unfold allMembers at h
    rw [pure_eq_ok] at h
    cases h
    rfl
  | p :: ps, s, s', ts, h => by
    unfold allMembers at h
    unfold Particle.memberTrees
    cases hterm : p.term? with
    | none =>
      rw [hterm] at h
      cases h
    | some term =>
      simp only [hterm, bind_eq_ok, requireOrdered_eq_ok] at h
      obtain ⟨_, s₁, ⟨-, rfl⟩, h⟩ := h
      cases hn : p.occurs.isNever with
      | true =>
        rw [hn, if_pos rfl] at h
        exact allMembers_eq_ok h
      | false =>
        simp only [hn, Bool.false_eq_true, if_false, bind_eq_ok, newParticle_eq_ok,
          pure_eq_ok] at h
        obtain ⟨_, s₂, ⟨rfl, rfl⟩, _, s₃, hp, rest, s₄, hrest, h⟩ := h
        cases h
        have hk := nextParticle_of_pay hp
        rw [allMembers_eq_ok hrest, hk]

theorem allGroup_eq_ok {members : List Particle} {m : Multiplicity} {t : Option Tree}
    (h : allGroup members m s = .ok (t, s')) :
    t = if m.isNever then none else some (.all (Particle.memberTrees members 0) m) := by
  simp only [allGroup, bind_eq_ok, requireOrdered_eq_ok] at h
  obtain ⟨_, s₁, ⟨-, rfl⟩, h⟩ := h
  cases hn : m.isNever with
  | true =>
    simp only [hn, if_true, pure_eq_ok] at h
    cases h
    rfl
  | false =>
    simp only [hn, Bool.false_eq_true, if_false, bind_eq_ok, startNumbering_eq_ok,
      pure_eq_ok] at h
    obtain ⟨_, s₂, rfl, ts, s₃, hts, _, s₄, -, h⟩ := h
    cases h
    rw [allMembers_eq_ok hts]
    rfl

end Draft

end ContentAutomata
