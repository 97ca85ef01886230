import ContentAutomata.Tree.Draft

/-!
# Putting trees together node by node

A draft pays for the nodes of a repetition, of a term or of a group in one sum. Here the same trees
are put together the way it is done by hand: every node is paid for when it is made, a given tree is
used once and copied otherwise, counts are words, and a difference of words that falls below zero is
a failure.
-/
namespace ContentAutomata

/-- Putting something together; `none` if a count falls below zero on the way. -/
abbrev Assembly := OptionT Draft

namespace Assembly

/-! ## Nodes and copies -/

/-- Makes a node. Mirrors `node_count_check`. -/
def make (t : Tree) : Assembly Tree := do
  Draft.pay 1
  return t

mutual
/-- A copy of a tree. Mirrors `copy_node`. -/
def copy : Tree → Assembly Tree
  | .epsilon => make .epsilon
  | .leaf l => make (.leaf l)
  | .counted l m => make (.counted l m)
  | .closure op t => do
    let t ← copy t
    make (.closure op t)
  | .joined op l r => do
    let l ← copy l
    let r ← copy r
    make (.joined op l r)
  | .all ts m => do
    let ts ← copyAll ts
    make (.all ts m)
/-- A copy of each tree of a list. -/
def copyAll : List Tree → Assembly (List Tree)
  | [] => return []
  | t :: ts => do
    let t ← copy t
    let ts ← copyAll ts
    return t :: ts
end

/-- The difference of two counts, which must not fall below zero. -/
def subtract (a b : UInt32) : Assembly UInt32 := if b ≤ a then return a - b else failure

theorem toNat_half (count : UInt32) : (count / 2).toNat = count.toNat / 2 := UInt32.toNat_div _ _

theorem half_le (count : UInt32) : count / 2 ≤ count := by
  rw [UInt32.le_iff_toNat_le, toNat_half]
  omega

theorem toNat_rest (count : UInt32) :
    (count - count / 2).toNat = count.toNat - count.toNat / 2 := by
  rw [UInt32.toNat_sub_of_le _ _ (half_le count), toNat_half]

theorem lt_toNat {count : UInt32} (h : ¬ count ≤ 1) : 1 < count.toNat := by
  rw [UInt32.le_iff_toNat_le, UInt32.toNat_one] at h
  omega

/-- `count` copies of a tree in sequence, joined by halves; at least one. Mirrors `multi_copies`. -/
def manyCopies (t : Tree) (count : UInt32) : Assembly Tree :=
  if h : count ≤ 1 then copy t
  else if count / 2 ≤ count then do
    let l ← manyCopies t (count / 2)
    let r ← manyCopies t (count - count / 2)
    make (.joined .sequence l r)
  else failure
termination_by count.toNat
decreasing_by
  · have hlt := lt_toNat h
    rw [toNat_half]
    omega
  · have hlt := lt_toNat h
    rw [toNat_rest]
    omega

/-- `count` trees in sequence, joined by halves, of which the first is the given one and the others
are copies of it; at least one. Mirrors `multi_nodes`. -/
def instances (t : Tree) (count : UInt32) : Assembly Tree :=
  if h : count ≤ 1 then return t
  else do
    let rest ← subtract count (count / 2)
    let r ← manyCopies t rest
    let l ← instances t (count / 2)
    make (.joined .sequence l r)
termination_by count.toNat
decreasing_by
  have hlt := lt_toNat h
  rw [toNat_half]
  omega

/-! ## Repetitions -/

/-- The tree repeated as often as the multiplicity says. Mirrors `expand_content_model`. -/
def spell (t : Tree) (m : Multiplicity) : Assembly Tree :=
  if m = .once then return t
  else if m = .optional then make (.closure .optional t)
  else if m = .zeroOrMore then make (.closure .star t)
  else if m = .oneOrMore then make (.closure .plus t)
  else match m.max with
    | none => do
      let tail ← make (.closure .plus (← copy t))
      let head ← instances t (← subtract m.min 1)
      make (.joined .sequence head tail)
    | some max =>
      if m.min = 0 then do
        let t ← make (.closure .optional t)
        instances t max
      else if m.min = max then instances t m.min
      else do
        let optional ← make (.closure .optional (← copy t))
        let tail ← instances optional (← subtract max m.min)
        let head ← instances t m.min
        make (.joined .sequence head tail)

/-- The tree of a single term repeated as often as the multiplicity says, or for ever. Mirrors
`expand_content_model` where a leaf is approximated. -/
def spellFreely (t : Tree) (m : Multiplicity) : Assembly Tree :=
  if m = .once then return t
  else if m = .optional then make (.closure .optional t)
  else if m.min = 0 then make (.closure .star t)
  else make (.closure .plus t)

/-! ## Terms and groups -/

/-- A repeated term where a counter may check its bounds. Mirrors the cases of `compact_leaf`. -/
def countedTerm (l : Leaf) (m : Multiplicity) : Assembly Tree :=
  if m = .once then make (.leaf l)
  else if m = .optional then do make (.closure .optional (← make (.leaf l)))
  else if m = .zeroOrMore then do make (.closure .star (← make (.leaf l)))
  else if m = .oneOrMore then do make (.closure .plus (← make (.leaf l)))
  else make (.counted l m)

/-- A repeated term with the next number, where a counter may check its bounds. Mirrors
`compact_leaf`. -/
def newCounted (term : Term) (m : Multiplicity) : Assembly Tree := do
  let particle ← Draft.newParticle
  countedTerm ⟨term, particle, 0⟩ m

/-- A repeated term where the multiplicity is spelled out. -/
def repeatedTerm (purpose : Purpose) (l : Leaf) (m : Multiplicity) : Assembly Tree := do
  let t ← make (.leaf l)
  match purpose with
  | .validation => spell t (Draft.spelledOut .validation m)
  | .attribution => spellFreely t (Draft.spelledOut .attribution m)

/-- A repeated term with the next number, where the multiplicity is spelled out. Mirrors what
`build_syntax_tree` does with a term. -/
def newRepeated (purpose : Purpose) (term : Term) (m : Multiplicity) : Assembly Tree := do
  let particle ← Draft.newParticle
  repeatedTerm purpose ⟨term, particle, 0⟩ m

/-- A tree joined with others, from the left. -/
def joinAll (op : Connective) (t : Tree) : List Tree → Assembly Tree
  | [] => return t
  | u :: us => do joinAll op (← make (.joined op t u)) us

/-- The members of a group that did not vanish, with the empty word as one more branch of a choice
if a member vanished. Mirrors `combine`. -/
def joinMembers (c : Compositor) (someVanished : Bool) : List Tree → Assembly (Option Tree)
  | [] => return none
  | t :: ts =>
    match c with
    | .choice => do
      let t ← joinAll .choice t ts
      if someVanished then return some (← make (.joined .choice t (← make .epsilon)))
      else return some t
    | _ => some <$> joinAll .sequence t ts

end Assembly

end ContentAutomata
