import ContentAutomata.Proofs.Builder.Refusals
import ContentAutomata.Proofs.Run.Compiled
import ContentAutomata.Proofs.Tree.Order

/-!
# Vanishing particles and empty words

Whether a particle contributes any child is asked of the particle (`Particle.vanishes`), and decided
once more by either way to draw it up, which leaves out the members that come to nothing. All of
them agree with what the particle means: it vanishes exactly when its only word is the empty one.

Nothing that vanishes leaves a trace in a tree, with one exception. A choice among members of which
some vanish may be passed over, so its tree has the empty word as its last branch; and that is the
only place for the empty word.

Results:
* `vanishes_iff_attributions`: a particle vanishes exactly when its only word is the empty one;
* `emptyBranches_compactTree`, `emptyBranches_expandedTree`: where the empty word stands in a tree;
* `Builder.syntaxTree_vanishing`: both for the trees that a builder draws up.
-/
namespace ContentAutomata

open ContentAutomata.Tree

/-! ## Where the empty word stands -/

namespace Tree

/-- Every empty word in the tree is the right branch of a choice of which `stands` holds. -/
inductive EmptyBranches (stands : Tree → Prop) : Tree → Prop
  | leaf (l : Leaf) : EmptyBranches stands (.leaf l)
  | counted (l : Leaf) (m : Multiplicity) : EmptyBranches stands (.counted l m)
  | closure (op : Closure) {t : Tree} (body : EmptyBranches stands t) :
    EmptyBranches stands (.closure op t)
  | joined (op : Connective) {l r : Tree} (left : EmptyBranches stands l)
    (right : EmptyBranches stands r) : EmptyBranches stands (.joined op l r)
  | orEmpty {t : Tree} (body : EmptyBranches stands t)
    (choice : stands (.joined .choice t .epsilon)) :
    EmptyBranches stands (.joined .choice t .epsilon)

namespace EmptyBranches

variable {stands stands' : Tree → Prop} {t : Tree}

theorem mono (h : ∀ u, stands u → stands' u) (ht : t.EmptyBranches stands) :
    t.EmptyBranches stands' := by
  induction ht with
  | leaf l => exact .leaf l
  | counted l m => exact .counted l m
  | closure op _ ih => exact .closure op ih
  | joined op _ _ ihl ihr => exact .joined op ihl ihr
  | orEmpty _ choice ih => exact .orEmpty ih (h _ choice)

/-- A tree is more than empty words. -/
theorem exists_has (ht : t.EmptyBranches stands) : ∃ l, t.Has l := by
  induction ht with
  | leaf l => exact ⟨l, has_leaf.2 rfl⟩
  | counted l m => exact ⟨l, has_counted.2 rfl⟩
  | closure op _ ih => exact ih
  | joined op _ _ ih _ =>
    obtain ⟨l, hl⟩ := ih
    exact ⟨l, has_joined.2 (.inl hl)⟩
  | orEmpty _ _ ih =>
    obtain ⟨l, hl⟩ := ih
    exact ⟨l, has_joined.2 (.inl hl)⟩

/-- Numbering the leaves moves no branch. -/
theorem number (ht : t.EmptyBranches stands) (k : Nat) :
    (t.number k).1.EmptyBranches fun u => ∃ v j, stands v ∧ u = (v.number j).1 := by
  induction ht generalizing k with
  | leaf l => exact .leaf _
  | counted l m => exact .counted _ m
  | closure op _ ih => exact .closure op (ih k)
  | joined op _ _ ihl ihr => exact .joined op (ihl k) (ihr _)
  | orEmpty _ choice ih => exact .orEmpty (ih k) ⟨_, k, choice, rfl⟩

theorem copies (ht : t.EmptyBranches stands) (count : Nat) :
    (t.copies count).EmptyBranches stands := by
  induction count using Nat.strongRecOn with
  | ind count ih =>
    unfold Tree.copies
    split
    · exact ht
    · exact .joined .sequence (ih _ (by omega)) (ih _ (by omega))

theorem repeated (ht : t.EmptyBranches stands) (m : Multiplicity) :
    (t.repeated m).EmptyBranches stands := by
  have hopt : (Tree.closure .optional t).EmptyBranches stands := .closure .optional ht
  unfold Tree.repeated
  repeat' split
  all_goals first
    | exact ht
    | exact .closure _ ht
    | exact hopt.copies _
    | exact ht.copies _
    | exact .joined .sequence (ht.copies _) (.closure .plus ht)
    | exact .joined .sequence (ht.copies _) (hopt.copies _)

theorem repeatedFreely (ht : t.EmptyBranches stands) (m : Multiplicity) :
    (t.repeatedFreely m).EmptyBranches stands := by
  unfold Tree.repeatedFreely
  repeat' split
  all_goals first
    | exact ht
    | exact .closure _ ht

theorem foldl_joined (op : Connective) {ts : List Tree} (ht : t.EmptyBranches stands)
    (hts : ∀ u ∈ ts, u.EmptyBranches stands) : (ts.foldl (.joined op) t).EmptyBranches stands := by
  induction ts generalizing t with
  | nil => exact ht
  | cons u us ih =>
    obtain ⟨hu, hus⟩ := List.forall_mem_cons.1 hts
    exact ih (.joined op ht hu) hus

end EmptyBranches

end Tree

variable {stands : Tree → Prop}

theorem Draft.emptyBranches_countedTerm (l : Leaf) (m : Multiplicity) :
    (Draft.countedTerm l m).EmptyBranches stands := by
  unfold Draft.countedTerm
  repeat' split
  all_goals first
    | exact .leaf l
    | exact .closure _ (.leaf l)
    | exact .counted l m

theorem Particle.emptyBranches_expandedTermTree (purpose : Purpose) (l : Leaf) (m : Multiplicity) :
    (Particle.expandedTermTree purpose l m).EmptyBranches stands := by
  cases purpose with
  | validation => exact (EmptyBranches.leaf l).repeated _
  | attribution => exact (EmptyBranches.leaf l).repeatedFreely _

/-- The empty word that joining the members of a group adds is the last branch of the choice. -/
theorem Draft.emptyBranches_composed {c : Compositor} {someVanished : Bool} {built : List Tree}
    {t : Tree} (hbuilt : ∀ u ∈ built, u.EmptyBranches stands)
    (ht : Draft.composed c someVanished built = some t)
    (hstands : c = .choice → someVanished = true → stands t) : t.EmptyBranches stands := by
  cases built with
  | nil => cases ht
  | cons u us =>
    obtain ⟨hu, hus⟩ := List.forall_mem_cons.1 hbuilt
    cases c with
    | sequence =>
      cases ht
      exact hu.foldl_joined .sequence hus
    | all =>
      cases ht
      exact hu.foldl_joined .sequence hus
    | choice =>
      cases someVanished with
      | false =>
        cases ht
        exact hu.foldl_joined .choice hus
      | true =>
        cases ht
        exact .orEmpty (hu.foldl_joined .choice hus) (hstands rfl rfl)

/-! ## Choices that may be passed over -/

namespace Particle

/-- The node stands for a choice group at one of the places, some of whose members vanish and others
do not: it is the choice among what `draw` makes of the members, or nothing. -/
inductive StandsForChoice (draw : List Particle → (next : Nat) → List Tree) (places : List Place) :
    Tree → Prop
  | intro {depth next : Nat} {members : List Particle} {m : Multiplicity} {t : Tree}
    (place_mem : ⟨depth, group .choice members m⟩ ∈ places) (occurs : m.isNever = false)
    (vanished : ∃ q ∈ members, q.vanishes = true) (present : ∃ q ∈ members, q.vanishes = false)
    (drawn : Draft.composed .choice true (draw members next) = some t) :
    StandsForChoice draw places t

variable {draw : List Particle → (next : Nat) → List Tree} {c : Compositor}
  {members : List Particle} {m : Multiplicity} {next depth : Nat} {t : Tree}

theorem StandsForChoice.mono {places places' : List Place} (h : ∀ x ∈ places, x ∈ places')
    (ht : StandsForChoice draw places t) : StandsForChoice draw places' t := by
  cases ht with
  | intro place_mem occurs vanished present drawn =>
    exact .intro (h _ place_mem) occurs vanished present drawn

/-- Trees of members stay as they are when the members are joined to a group. -/
theorem emptyBranches_group (hn : m.isNever = false)
    (hlen : (draw members next).length = members.countP (fun p => !p.vanishes))
    (hmembers : ∀ u ∈ draw members next,
      u.EmptyBranches (StandsForChoice draw (placesOf mayOccur members (depth + 1))))
    (ht : Draft.composed c ((draw members next).length < members.length) (draw members next) =
      some t) :
    t.EmptyBranches (StandsForChoice draw ((group c members m).places mayOccur depth)) := by
  have hplaces : (group c members m).places mayOccur depth =
      ⟨depth, group c members m⟩ :: placesOf mayOccur members (depth + 1) := by
    simp [places, mayOccur, hn]
  refine Draft.emptyBranches_composed (fun u hu => ?_) ht ?_
  · exact (hmembers u hu).mono fun v => StandsForChoice.mono fun x hx => by simp [hplaces, hx]
  · rintro rfl hless
    rw [hless] at ht
    refine .intro (by rw [hplaces]; exact List.mem_cons_self) hn ?_ ?_ ht
    · -- fewer trees than members: some member has none
      rw [decide_eq_true_iff, hlen, List.countP_lt_length_iff] at hless
      simpa using hless
    · have hne : draw members next ≠ [] := fun e => by simp [e, Draft.composed] at ht
      rw [← List.length_pos_iff, hlen, List.countP_pos_iff] at hne
      simpa using hne

mutual
theorem emptyBranches_compactTree : ∀ {p : Particle} {next depth : Nat} {t : Tree},
    p.isCountable = true → p.compactTree next = some t →
      t.EmptyBranches (StandsForChoice compactTrees (p.places mayOccur depth))
  | element name m, next, depth, t, _, h => by
    cases hn : m.isNever <;> simp only [compactTree, hn, Bool.false_eq_true, if_false, if_true,
      reduceCtorEq, Option.some.injEq] at h
    exact h ▸ Draft.emptyBranches_countedTerm _ m
  | wildcard w, next, depth, t, _, h => by
    cases hn : w.occurs.isNever <;> simp only [compactTree, hn, Bool.false_eq_true, if_false,
      if_true, reduceCtorEq, Option.some.injEq] at h
    exact h ▸ Draft.emptyBranches_countedTerm _ w.occurs
  | group c members m, next, depth, t, hc, h => by
    cases hn : m.isNever with
    | true => simp [compactTree, hn] at h
    | false =>
      cases ho : m.isOnce with
      | true =>
        have hall := Draft.allCountable_of_isOnce hc ho
        cases Multiplicity.isOnce_iff.1 ho
        rw [compactTree_once] at h
        exact emptyBranches_group hn (length_compactTrees next hall)
          (emptyBranches_compactTrees hall) h
      | false =>
        rcases Draft.repeated_group_cases hc ho with rfl | ⟨p, rfl, hp, -⟩
        · rw [compactTree_nil] at h
          cases h
        · obtain ⟨term, hterm⟩ := Option.isSome_iff_exists.1 hp
          rw [compactTree_repeated hn ho hterm] at h
          cases h
          exact Draft.emptyBranches_countedTerm _ m
theorem emptyBranches_compactTrees : ∀ {ps : List Particle} {next depth : Nat},
    allCountable ps = true → ∀ t ∈ compactTrees ps next,
      t.EmptyBranches (StandsForChoice compactTrees (placesOf mayOccur ps depth))
  | [], next, depth, _, t, h => by simp [compactTrees] at h
  | p :: ps, next, depth, hc, t, h => by
    simp only [allCountable, Bool.and_eq_true] at hc
    unfold compactTrees at h
    rw [List.mem_append, Option.mem_toList] at h
    rcases h with h | h
    · exact (emptyBranches_compactTree hc.1 h).mono fun u =>
        StandsForChoice.mono fun x => List.mem_append_left _
    · exact (emptyBranches_compactTrees hc.2 t h).mono fun u =>
        StandsForChoice.mono fun x => List.mem_append_right _
end

mutual
theorem emptyBranches_expandedTree {purpose : Purpose} :
    ∀ {p : Particle} {next depth : Nat} {t : Tree}, p.expandedTree purpose next = some t →
      t.EmptyBranches (StandsForChoice (expandedTrees purpose) (p.places mayOccur depth))
  | element name m, next, depth, t, h => by
    cases hn : m.isNever <;> simp only [expandedTree, hn, Bool.false_eq_true, if_false, if_true,
      reduceCtorEq, Option.some.injEq] at h
    exact h ▸ emptyBranches_expandedTermTree purpose _ m
  | wildcard w, next, depth, t, h => by
    cases hn : w.occurs.isNever <;> simp only [expandedTree, hn, Bool.false_eq_true, if_false,
      if_true, reduceCtorEq, Option.some.injEq] at h
    exact h ▸ emptyBranches_expandedTermTree purpose _ w.occurs
  | group c members m, next, depth, t, h => by
    cases hn : m.isNever with
    | true => simp [expandedTree, hn] at h
    | false =>
      simp only [expandedTree, hn, Bool.false_eq_true, if_false, Option.map_eq_some_iff] at h
      obtain ⟨u, hu, rfl⟩ := h
      exact (emptyBranches_group hn (length_expandedTrees purpose members next)
        emptyBranches_expandedTrees hu).repeated _
theorem emptyBranches_expandedTrees {purpose : Purpose} : ∀ {ps : List Particle} {next depth : Nat},
    ∀ t ∈ expandedTrees purpose ps next,
      t.EmptyBranches (StandsForChoice (expandedTrees purpose) (placesOf mayOccur ps depth))
  | [], next, depth, t, h => by simp [expandedTrees] at h
  | p :: ps, next, depth, t, h => by
    unfold expandedTrees at h
    rw [List.mem_append, Option.mem_toList] at h
    rcases h with h | h
    · exact (emptyBranches_expandedTree h).mono fun u =>
        StandsForChoice.mono fun x => List.mem_append_left _
    · exact (emptyBranches_expandedTrees t h).mono fun u =>
        StandsForChoice.mono fun x => List.mem_append_right _
end

/-! ## The empty word alone -/

/-- A particle that does not vanish admits a child. -/
theorem exists_mem_attributions {p : Particle} (hw : p.isWellFormed = true)
    (hv : p.vanishes = false) : ∃ u ∈ p.attributions, u ≠ [] := by
  have hlang : languageOf? (leafLetter fun i _ => {[i]}) (p.expandedTree .validation 0) =
      p.attributions := language_expandedTree hw
  cases ht : p.expandedTree .validation 0 with
  | none =>
    rw [(expandedTree_eq_none_iff .validation p 0).1 ht] at hv
    cases hv
  | some t =>
    rw [ht] at hlang
    have hbranches : t.EmptyBranches
        (StandsForChoice (expandedTrees .validation) (p.places mayOccur 1)) :=
      emptyBranches_expandedTree ht
    obtain ⟨l, hl⟩ := hbranches.exists_has
    obtain ⟨w, hw, hlw⟩ := exists_mem_words_of_has (isPlain_expandedTree ht).isRegular hl
    refine ⟨w.map (·.particle), ?_, fun e => ?_⟩
    · exact hlang ▸ mem_attributions_iff_words.2 ⟨w, hw, rfl⟩
    · rw [List.map_eq_nil_iff.1 e] at hlw
      cases hlw

/-- A particle vanishes exactly when its only word is the empty one. -/
theorem vanishes_iff_attributions {p : Particle} (hw : p.isWellFormed = true) :
    p.vanishes = true ↔ p.attributions = 1 := by
  constructor
  · intro h
    have hlang : languageOf? (leafLetter fun i _ => {[i]}) (p.expandedTree .validation 0) =
        p.attributions := language_expandedTree hw
    rw [← hlang, (expandedTree_eq_none_iff .validation p 0).2 h]
    rfl
  · intro h
    cases hv : p.vanishes with
    | true => rfl
    | false =>
      obtain ⟨u, hu, hne⟩ := exists_mem_attributions hw hv
      rw [h] at hu
      exact absurd hu hne

end Particle

/-! ## What is drawn up -/

/-- There is no tree exactly when the particle vanishes; in a tree, the empty word stands only as
the right branch of a choice of which `stands` holds. -/
structure Tree.ShowsVanishing (root : Option Tree) (p : Particle) (stands : Tree → Prop) :
    Prop where
  eq_none_iff : root = none ↔ p.vanishes = true
  emptyBranches : ∀ t, root = some t → t.EmptyBranches stands

namespace Particle

/-- How the members of a group are drawn up in the tree of the particle. -/
def drawnMembers (p : Particle) (purpose : Purpose) : List Particle → (next : Nat) → List Tree :=
  if p.isCountable then compactTrees else expandedTrees purpose

/-- The node is one that stands for a choice group of the particle, some of whose members vanish and
others do not, with its leaves numbered. -/
def NumbersChoice (p : Particle) (purpose : Purpose) (t : Tree) : Prop :=
  ∃ u k, StandsForChoice (p.drawnMembers purpose) p.livePlaces u ∧ t = (u.number k).1

theorem showsVanishing_compactTree {p : Particle} (hc : p.isCountable = true) (next : Nat) :
    ShowsVanishing (p.compactTree next) p (StandsForChoice compactTrees p.livePlaces) :=
  ⟨compactTree_eq_none_iff next hc, fun _ => emptyBranches_compactTree hc⟩

theorem showsVanishing_expandedTree (purpose : Purpose) (p : Particle) (next : Nat) :
    ShowsVanishing (p.expandedTree purpose next) p
      (StandsForChoice (expandedTrees purpose) p.livePlaces) :=
  ⟨expandedTree_eq_none_iff purpose p next, fun _ => emptyBranches_expandedTree⟩

/-- Whichever shape was chosen. -/
theorem showsVanishing_tree (purpose : Purpose) (p : Particle) :
    ShowsVanishing (p.tree purpose) p
      (StandsForChoice (p.drawnMembers purpose) p.livePlaces) := by
  unfold tree drawnMembers
  split
  · rename_i hc
    exact showsVanishing_compactTree hc 0
  · exact showsVanishing_expandedTree purpose p 0

end Particle

theorem SyntaxTree.root_ofDraft (root : Option Tree) (isApproximate : Bool) (nodeCount : Nat) :
    (ofDraft root isApproximate nodeCount).root = root.map Tree.numbered := by
  cases root <;> rfl

namespace Builder

/-- Vanishing is judged alike by the particle, by what it means, by the tree that a builder returns,
and by either way to draw it up, under whatever limits. -/
theorem syntaxTree_vanishing {b b' : Builder} {p : Particle} {purpose : Purpose} {t : SyntaxTree}
    (h : b.syntaxTree p purpose = (.ok t, b')) :
    (p.vanishes = true ↔ p.attributions = 1) ∧
      ShowsVanishing t.root p (p.NumbersChoice purpose) ∧
      (p.isCountable = true → ∀ limits depth s s' root,
        Draft.compact limits p depth s = .ok (root, s') →
          ShowsVanishing root p
            (Particle.StandsForChoice Particle.compactTrees p.livePlaces)) ∧
      ∀ purpose' limits depth s s' r,
        Draft.expanded limits purpose' p depth s = .ok (r, s') →
          ShowsVanishing (r.map (·.1)) p
            (Particle.StandsForChoice (Particle.expandedTrees purpose') p.livePlaces) := by
  obtain ⟨s, hd⟩ := run_eq_ok h
  obtain ⟨hw, nodeCount, rfl⟩ := SyntaxTree.draft_eq_ok hd
  have htree := p.showsVanishing_tree purpose
  refine ⟨Particle.vanishes_iff_attributions hw, ⟨?_, ?_⟩, ?_, ?_⟩
  · rw [SyntaxTree.root_ofDraft, Option.map_eq_none_iff, htree.eq_none_iff]
  · intro root hroot
    rw [SyntaxTree.root_ofDraft, Option.map_eq_some_iff] at hroot
    obtain ⟨u, hu, rfl⟩ := hroot
    exact (htree.emptyBranches u hu).number 0
  · intro hc limits depth s s' root hr
    obtain ⟨-, rfl, -⟩ := Draft.compact_eq_ok hc hr
    exact Particle.showsVanishing_compactTree hc _
  · intro purpose' limits depth s s' r hr
    obtain ⟨-, hr, -⟩ := Draft.expanded_eq_ok hr
    rw [hr]
    exact Particle.showsVanishing_expandedTree purpose' p _

/-- A choice between `b` and `a`, which may not occur, has a tree in which it may be passed over. -/
theorem syntaxTree_vanishing_choice :
    let p : Particle := .group .choice
      [.element (.bare "a") .never, .element (.bare "b") .once] .once
    ∃ t b', (Builder.new .default).syntaxTree p .validation = (.ok t, b') ∧
      p.attributions ≠ 1 ∧ ∃ root, t.root = some root ∧
        root.EmptyBranches (p.NumbersChoice .validation) := by
  intro p
  have h : (Builder.new .default).syntaxTree p .validation = (.ok _, _) := rfl
  obtain ⟨hlang, hroot, -⟩ := syntaxTree_vanishing h
  exact ⟨_, _, h, fun e => absurd (hlang.2 e) (by decide), _, rfl, hroot.emptyBranches _ rfl⟩

end Builder

end ContentAutomata
