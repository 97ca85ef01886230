import ContentAutomata.Term

/-!
# Particles: the content model as a schema writes it

A particle is an element, a wildcard or a model group, with a multiplicity. A model group composes
its members in sequence, by choice, or in any order (`all`).

Two things about a particle decide how it is compiled. It *vanishes* if it contributes no child at
all: it may not occur, or it is a group all of whose members vanish. And it *can be counted* if a
counter at run time can stand in for every multiplicity in it, so that none has to be spelled out
as copies: only a single element or wildcard may be repeated.

Results:
* `allVanish_eq`: the members of a group vanish together when each of them does.
-/
namespace ContentAutomata

/-- How a model group composes its members. Mirrors `ModelType`. -/
inductive Compositor where
  | sequence | choice | all
  deriving DecidableEq, Repr

/-- How a compositor is written. -/
def Compositor.text : Compositor → String
  | sequence => "sequence"
  | choice => "choice"
  | all => "all"

/-- An element, a wildcard or a model group, and how often it may occur. Mirrors `GroupParticle`. -/
inductive Particle where
  | element (name : Name) (occurs : Multiplicity)
  | wildcard (wildcard : Wildcard)
  | group (compositor : Compositor) (members : List Particle) (occurs : Multiplicity)
  deriving Repr

namespace Particle

/-- The empty sequence. -/
instance : Inhabited Particle := ⟨group .sequence [] .once⟩

/-- How often the particle may occur. -/
def occurs : Particle → Multiplicity
  | element _ occurs => occurs
  | wildcard w => w.occurs
  | group _ _ occurs => occurs

/-- What the particle matches a child against, if it is no group. Mirrors `particle_term`. -/
def term? : Particle → Option Term
  | element name _ => some (.element name)
  | wildcard w => some (.wildcard w)
  | group _ _ _ => none

/-- Whether the particle is an element or a wildcard. -/
def isTerm (p : Particle) : Bool := p.term?.isSome

/-! ## Vanishing -/

mutual
/-- Whether the particle contributes no child at all. Mirrors `vanishes`. -/
def vanishes : Particle → Bool
  | element _ occurs => occurs.isNever
  | wildcard w => w.occurs.isNever
  | group _ members occurs => occurs.isNever || allVanish members
/-- Whether every particle of a list vanishes. -/
def allVanish : List Particle → Bool
  | [] => true
  | p :: ps => p.vanishes && allVanish ps
end

theorem allVanish_eq (ps : List Particle) : allVanish ps = ps.all vanishes := by
  induction ps with
  | nil => rfl
  | cons p ps ih => simp [allVanish, ih]

/-! ## Counting -/

/-- Whether a counter is needed to check a lower bound: the multiplicity has one, and is neither
"exactly once" nor "at least once". -/
def needsCounter (m : Multiplicity) : Bool := 0 < m.min && m != .once && m != .oneOrMore

mutual
/-- Whether some element or wildcard of the particle, or a group around just one, needs a counter.
Mirrors `has_counted_leaf`. -/
def hasCounter : Particle → Bool
  | element _ occurs => needsCounter occurs
  | wildcard w => needsCounter w.occurs
  | group _ members occurs => (members.length == 1 && needsCounter occurs) || anyHasCounter members
/-- Whether some particle of a list needs a counter. -/
def anyHasCounter : List Particle → Bool
  | [] => false
  | p :: ps => p.hasCounter || anyHasCounter ps
end

theorem anyHasCounter_eq (ps : List Particle) : anyHasCounter ps = ps.any hasCounter := by
  induction ps with
  | nil => rfl
  | cons p ps ih => simp [anyHasCounter, ih]

mutual
/-- Whether counters can stand in for every multiplicity of the particle. A repeated group must hold
nothing, or one element or wildcard that occurs once; and no branch of a choice may need a counter
if another branch vanishes. Mirrors `use_repeating_leaf_nodes`. -/
def isCountable : Particle → Bool
  | element _ _ => true
  | wildcard _ => true
  | group compositor members occurs =>
    if occurs.isOnce then
      !(compositor == .choice && members.any vanishes && members.any hasCounter) &&
        allCountable members
    else
      match members with
      | [] => true
      | [p] => p.isTerm && p.occurs.isOnce
      | _ => false
/-- Whether every particle of a list can be counted. -/
def allCountable : List Particle → Bool
  | [] => true
  | p :: ps => p.isCountable && allCountable ps
end

theorem allCountable_eq (ps : List Particle) : allCountable ps = ps.all isCountable := by
  induction ps with
  | nil => rfl
  | cons p ps ih => simp [allCountable, ih]

end Particle

end ContentAutomata
