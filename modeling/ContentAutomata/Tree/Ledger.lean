import ContentAutomata.Journal
import ContentAutomata.Limits
import ContentAutomata.Tree.Basic

/-!
# Paying for nodes

Every node of a tree is paid for. The ledger knows how many nodes were paid for and how many there
may be; a payment beyond the bound is refused with `Error.tooManyNodes`, and what is said then is
`Error.events`: a warning in the log and a fatal diagnostic.

A `Workshop` makes single nodes for a caller who assembles a tree by hand. It also hands out
positions to leaves, in the order in which they are made.

Results:
* `spend_eq_ok`: a payment is accepted exactly when the sum stays within the bound;
* `spend_add`: paying in two parts is paying the sum at once;
* `make_refused`: a refused node leaves the workshop as new.
-/
namespace ContentAutomata

/-- How many nodes were paid for, and how many there may be. -/
structure Ledger where
  /-- The number of nodes there may be, `none` for any number. -/
  bound : Option Nat
  /-- The number of nodes paid for. -/
  spent : Nat
  deriving DecidableEq, Repr

namespace Ledger

/-- The ledger under the given limits, before the first payment. -/
def ofLimits (limits : Limits) : Ledger := ⟨limits.nodeBound, 0⟩

/-- The ledger with its payments forgotten. -/
def clear (l : Ledger) : Ledger := { l with spent := 0 }

/-- Pays for `count` nodes. Mirrors the count of `node_count_check`. -/
def spend (l : Ledger) (count : Nat) : Except Error Ledger :=
  match l.bound with
  | some bound =>
    if l.spent + count ≤ bound then .ok { l with spent := l.spent + count }
    else .error (.tooManyNodes bound)
  | none => .ok { l with spent := l.spent + count }

theorem spend_eq_ok {l l' : Ledger} {count : Nat} :
    l.spend count = .ok l' ↔
      (∀ bound, l.bound = some bound → l.spent + count ≤ bound) ∧
        l' = { l with spent := l.spent + count } := by
  unfold spend
  split
  · rename_i bound h
    split <;> rename_i hle <;> simp [h, hle, eq_comm]
  · rename_i h
    simp [h, eq_comm]

theorem spend_eq_error {l : Ledger} {count : Nat} {e : Error} :
    l.spend count = .error e ↔
      ∃ bound, l.bound = some bound ∧ bound < l.spent + count ∧ e = .tooManyNodes bound := by
  unfold spend
  split
  · rename_i bound h
    split
    · rename_i hle
      simp only [h, Option.some.injEq, reduceCtorEq, false_iff, not_exists, not_and]
      rintro b rfl hlt
      omega
    · rename_i hle
      simp only [h, Option.some.injEq, Except.error.injEq, exists_eq_left']
      exact ⟨fun e => ⟨by omega, e.symm⟩, fun e => e.2.symm⟩
  · rename_i h
    simp [h]

theorem spend_add (l : Ledger) (a b : Nat) :
    (l.spend a).bind (·.spend b) = l.spend (a + b) := by
  cases l with
  | mk bound spent =>
    cases bound with
    | none => simp [spend, Except.bind, Nat.add_assoc]
    | some bound =>
      simp only [spend]
      by_cases h1 : spent + a ≤ bound
      · simp [h1, Except.bind, Nat.add_assoc]
      · have h2 : ¬ spent + (a + b) ≤ bound := by omega
        simp [h1, h2, Except.bind]

end Ledger

/-- What is said when an error arises while a tree is made. -/
def Error.events : Error → List Event
  | .tooManyNodes bound =>
    [.warn ("content model node limit of " ++ toString bound ++ " exceeded, compilation aborted"),
      .diagnostic (.nodeLimit bound)]
  | _ => []

/-! ## Single nodes -/

/-- Makes nodes one at a time. Mirrors `NodeFactory`. -/
structure Workshop where
  ledger : Ledger
  /-- The position of the next leaf. -/
  nextPosition : Nat
  deriving DecidableEq, Repr

namespace Workshop

/-- The workshop under the given limits, before the first node. -/
def ofLimits (limits : Limits) : Workshop := ⟨.ofLimits limits, 0⟩

/-- The workshop with its nodes and positions forgotten. -/
def clear (w : Workshop) : Workshop := ⟨w.ledger.clear, 0⟩

/-- Pays for a node that is no leaf. A refusal forgets all nodes and positions. -/
def make (w : Workshop) (node : Tree) : Except Error Tree × Workshop :=
  match w.ledger.spend 1 with
  | .ok ledger => (.ok node, { w with ledger })
  | .error e => (.error e, w.clear)

/-- Makes a leaf, or a counted leaf if a range is given, at the next position. Mirrors `leaf` and
`repeating_leaf`. -/
def makeLeaf (w : Workshop) (term : Term) (particle : Nat) (range : Option Multiplicity) :
    Except Error Tree × Workshop :=
  let leaf : Leaf := ⟨term, particle, w.nextPosition⟩
  let node := match range with
    | some m => Tree.counted leaf m
    | none => Tree.leaf leaf
  match w.ledger.spend 1 with
  | .ok ledger => (.ok node, ⟨ledger, w.nextPosition + 1⟩)
  | .error e => (.error e, w.clear)

theorem make_refused {w : Workshop} {node : Tree} {e : Error} (h : (w.make node).1 = .error e) :
    (w.make node).2 = w.clear := by
  unfold make at h ⊢
  split at h
  · cases h
  · rename_i h'
    simp

end Workshop

end ContentAutomata
