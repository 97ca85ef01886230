import ContentAutomata.Checker
import ContentAutomata.Proofs.Builder.Soundness
import ContentAutomata.Proofs.Tree.Spelling
import ContentAutomata.Proofs.Tree.Squeezing

/-!
# Finding ambiguities costs no more than validating

To find ambiguities, multiplicities are squeezed before they are spelled out. That takes away copies
and closures and never adds any, whatever is repeated: the tree has at most as many nodes and at
most as many leaves as the one that serves to validate. A single term is the exception that needs a
look of its own, as it gets a closure where there was none before; but then it stands in for two
copies.

So limits that suffice to validate suffice to find ambiguities, and a type whose model could be
compiled is never refused on its check for the size of a tree.

Results:
* `repeatedSize_add_one`: the number of nodes of a repetition, by its copies and closures;
* `copyCount_squeezed_le`, `closureCount_squeezed_le`: squeezing takes away copies and closures;
* `atMost_expandedTree`: the tree to find ambiguities is no larger;
* `Builder.attribution_of_validation`: what can be compiled to validate can be checked.
-/
namespace ContentAutomata

open ContentAutomata.Tree

/-! ## What a multiplicity costs -/

namespace Multiplicity

/-- How many closures a multiplicity is spelled out with: one for each copy that may be left out,
and one for repetition without a bound. -/
def closureCount (m : Multiplicity) : Nat :=
  match m.max with
  | some max => max.toNat - m.min.toNat
  | none => 1

variable {m : Multiplicity}

theorem copyCount_pos (hn : m.isNever = false) : 0 < m.copyCount := by
  unfold copyCount
  cases hmax : m.max with
  | none => exact Nat.lt_of_lt_of_le Nat.one_pos (Nat.le_max_right _ _)
  | some max => exact pos_of_max hn hmax

/-- What needs neither two copies nor a closure occurs once. -/
theorem eq_once_of_counts (ho : m.isOrdered = true) (hn : m.isNever = false)
    (hcopies : m.copyCount ≤ 1) (hclosures : m.closureCount = 0) : m = once := by
  have hpos := copyCount_pos hn
  obtain ⟨min, max⟩ := m
  cases max with
  | none => cases hclosures
  | some max =>
    simp only [copyCount, closureCount] at hcopies hclosures hpos
    have hmax : max = 1 := UInt32.toNat_inj.1 (by rw [UInt32.toNat_one]; omega)
    subst hmax
    rcases eq_once_or_optional ho rfl with h | h
    · exact h
    · cases h
      cases hclosures

theorem copyCount_squeezed_le (ho : m.isOrdered = true) (hn : m.isNever = false) :
    m.squeezed.copyCount ≤ m.copyCount := by
  rcases squeezed_cases ho with ⟨-, h⟩ | ⟨he, hmin, h⟩ | ⟨hmin, hmax, h⟩ | ⟨-, hmax, h⟩ <;> rw [h]
  · have he' : m.max = some m.min := he
    simpa [copyCount, he'] using one_lt_iff.1 hmin
  · exact copyCount_pos hn
  · obtain ⟨b, hb, hlt⟩ := (Option.any_eq_true _ _).1 hmax
    simpa [copyCount, hb] using one_lt_iff.1 (of_decide_eq_true hlt)

theorem closureCount_squeezed_le (ho : m.isOrdered = true) :
    m.squeezed.closureCount ≤ m.closureCount := by
  rcases squeezed_cases ho with ⟨-, h⟩ | ⟨-, -, h⟩ | ⟨-, hmax, h⟩ | ⟨he, hmax, h⟩ <;> rw [h]
  · exact Nat.zero_le _
  · simp [closureCount, oneOrMore, hmax]
  · obtain ⟨b, hb, hlt⟩ := (Option.any_eq_true _ _).1 hmax
    have hb' : 2 ≤ b.toNat := one_lt_iff.1 (of_decide_eq_true hlt)
    have hle : m.min.toNat ≤ b.toNat := UInt32.le_iff_toNat_le.1 (isOrdered_iff.1 ho b hb)
    have hne : m.min.toNat ≠ b.toNat := fun e => he (by rw [IsExact, hb, UInt32.toNat_inj.1 e])
    simp only [closureCount, hb]
    split
    · rw [UInt32.toNat_one]
      change 2 - 1 ≤ _
      omega
    · change 2 - m.min.toNat ≤ _
      omega

end Multiplicity

namespace Tree

theorem copiesSize_add_one (size count : Nat) (h : 0 < count) :
    copiesSize size count + 1 = count * (size + 1) := by
  unfold copiesSize
  split
  · have hone : count = 1 := by omega
    rw [hone, Nat.one_mul]
  · have hpos : 0 < count * (size + 1) := Nat.mul_pos h (Nat.succ_pos size)
    omega

/-- Each copy takes its nodes and one to join it to the others, and each closure one more. -/
theorem repeatedSize_add_one (size : Nat) {m : Multiplicity} (ho : m.isOrdered = true)
    (hn : m.isNever = false) :
    repeatedSize size m + 1 = m.copyCount * (size + 1) + m.closureCount := by
  unfold repeatedSize
  split
  · rename_i h
    subst h
    simp [Multiplicity.copyCount, Multiplicity.closureCount, Multiplicity.once]
  split
  · rename_i h
    subst h
    simp [Multiplicity.copyCount, Multiplicity.closureCount, Multiplicity.optional]
  unfold Multiplicity.copyCount Multiplicity.closureCount
  cases hmax : m.max with
  | none =>
    dsimp only
    split
    · rename_i h0
      simp [h0]
    split
    · rename_i h1
      simp [h1]
    · rename_i h0 h1
      have hmin : m.min.toNat ≠ 0 := fun e => h0 (UInt32.toNat_inj.1 e)
      have hmin' : m.min.toNat ≠ 1 := fun e => h1 (UInt32.toNat_inj.1 e)
      have hcopies := copiesSize_add_one size (m.min.toNat - 1) (by omega)
      obtain ⟨k, hk⟩ : ∃ k, m.min.toNat = k + 1 := ⟨m.min.toNat - 1, by omega⟩
      rw [hk, Nat.add_sub_cancel] at hcopies
      rw [hk, Nat.max_eq_left (by omega), Nat.add_sub_cancel, Nat.succ_mul]
      omega
  | some max =>
    have hpos := Multiplicity.pos_of_max hn hmax
    have hle := UInt32.le_iff_toNat_le.1 (Multiplicity.isOrdered_iff.1 ho max hmax)
    dsimp only
    split
    · rename_i h0
      rw [copiesSize_add_one _ _ hpos, h0, UInt32.toNat_zero, Nat.sub_zero, Nat.mul_succ]
    split
    · rename_i he
      rw [copiesSize_add_one _ _ hpos, he, Nat.sub_self]
      rfl
    · rename_i h0 hne
      have hmin : m.min.toNat ≠ 0 := fun e => h0 (UInt32.toNat_inj.1 e)
      have hlt : m.min.toNat ≠ max.toNat := fun e => hne (UInt32.toNat_inj.1 e)
      have hfirst := copiesSize_add_one size m.min.toNat (by omega)
      have hrest := copiesSize_add_one (size + 1) (max.toNat - m.min.toNat) (by omega)
      obtain ⟨k, hk⟩ : ∃ k, max.toNat = m.min.toNat + k := ⟨max.toNat - m.min.toNat, by omega⟩
      rw [hk, Nat.add_sub_cancel_left] at hrest ⊢
      rw [Nat.mul_succ] at hrest
      rw [Nat.add_mul]
      omega

/-- Squeezing a multiplicity takes nodes away, and fewer nodes are repeated to fewer. -/
theorem repeatedSize_squeezed_le {size size' : Nat} (h : size ≤ size') {m : Multiplicity}
    (ho : m.isOrdered = true) (hn : m.isNever = false) :
    repeatedSize size m.squeezed ≤ repeatedSize size' m := by
  have hsqueezed := Multiplicity.resembles_squeezed ho
  have hleft := repeatedSize_add_one size (hsqueezed.isOrdered ho) (hsqueezed.isNever.trans hn)
  have hright := repeatedSize_add_one size' ho hn
  have hmul : m.squeezed.copyCount * (size + 1) ≤ m.copyCount * (size' + 1) :=
    Nat.mul_le_mul (Multiplicity.copyCount_squeezed_le ho hn) (Nat.succ_le_succ h)
  have hclosures := Multiplicity.closureCount_squeezed_le ho
  omega

/-- What is not asked for just once takes one more node at least. -/
theorem lt_repeatedSize (size : Nat) {m : Multiplicity} (ho : m.isOrdered = true)
    (hn : m.isNever = false) (hm : m ≠ .once) : size < repeatedSize size m := by
  have hcount := repeatedSize_add_one size ho hn
  have hpos := Multiplicity.copyCount_pos hn
  by_cases hcopies : m.copyCount ≤ 1
  · have hone : m.copyCount = 1 := by omega
    have hclosures : m.closureCount ≠ 0 := fun e =>
      hm (Multiplicity.eq_once_of_counts ho hn hcopies e)
    rw [hone, Nat.one_mul] at hcount
    omega
  · have hmul : 2 * (size + 1) ≤ m.copyCount * (size + 1) :=
      Nat.mul_le_mul_right _ (by omega)
    omega

/-! ## Trees that are no larger -/

/-- The first trees have at most as many nodes and at most as many leaves as the second. -/
structure AtMost (ts us : List Tree) : Prop where
  size : sizes ts ≤ sizes us
  leafCount : (leavesOf ts).length ≤ (leavesOf us).length

theorem AtMost.refl (ts : List Tree) : AtMost ts ts := ⟨Nat.le_refl _, Nat.le_refl _⟩

theorem leavesOf_toList (t : Option Tree) : leavesOf t.toList = leaves? t := by
  simpa [leavesOf] using leavesOf_append t []

theorem AtMost.append {t u : Option Tree} {ts us : List Tree} (h : AtMost t.toList u.toList)
    (h' : AtMost ts us) : AtMost (t.toList ++ ts) (u.toList ++ us) where
  size := by
    rw [sizes_append, sizes_append]
    exact Nat.add_le_add h.size h'.size
  leafCount := by
    have hleaves := h.leafCount
    rw [leavesOf_toList, leavesOf_toList] at hleaves
    rw [leavesOf_append, leavesOf_append, List.length_append, List.length_append]
    exact Nat.add_le_add hleaves h'.leafCount

/-- Joining the members of a group adds the same to either. -/
theorem AtMost.composed {ts us : List Tree} (h : AtMost ts us) (hlen : ts.length = us.length)
    (c : Compositor) (someVanished : Bool) :
    AtMost (Draft.composed c someVanished ts).toList
      (Draft.composed c someVanished us).toList where
  size := by
    have hsizes := h.size
    cases ht : Draft.composed c someVanished ts with
    | none => exact Nat.zero_le _
    | some t =>
      cases hu : Draft.composed c someVanished us with
      | none =>
        have hts : ts = [] := by
          rw [← List.length_eq_zero_iff, hlen, List.length_eq_zero_iff]
          exact Draft.composed_eq_none_iff.1 hu
        rw [Draft.composed_eq_none_iff.2 hts] at ht
        cases ht
      | some u =>
        simp only [Option.toList_some, sizes, Draft.size_composed ht, Draft.size_composed hu, hlen]
        omega
  leafCount := by
    rw [leavesOf_toList, leavesOf_toList, Draft.leaves_composed, Draft.leaves_composed]
    exact h.leafCount

/-- Repeating fewer nodes and leaves, and less often, makes fewer. -/
theorem AtMost.repeated {t u : Option Tree} (h : AtMost t.toList u.toList) {m : Multiplicity}
    (ho : m.isOrdered = true) (hn : m.isNever = false) :
    AtMost (t.map (·.repeated m.squeezed)).toList (u.map (·.repeated m)).toList := by
  obtain ⟨hsize, hleaves⟩ := h
  cases t with
  | none => exact ⟨Nat.zero_le _, Nat.zero_le _⟩
  | some t =>
    cases u with
    | none =>
      have hpos := t.size_pos
      simp only [Option.toList_some, Option.toList_none, sizes] at hsize
      omega
    | some u =>
      have hsqueezed := Multiplicity.resembles_squeezed ho
      simp only [Option.toList_some, sizes, leavesOf, List.append_nil] at hsize hleaves
      constructor
      · simp only [Option.map_some, Option.toList_some, sizes, size_repeated]
        exact repeatedSize_squeezed_le hsize ho hn
      · simp only [Option.map_some, Option.toList_some, leavesOf, List.append_nil,
          leaves_repeated t (hsqueezed.isOrdered ho) (hsqueezed.isNever.trans hn),
          leaves_repeated u ho hn, List.length_flatten, List.map_replicate, List.sum_replicate_nat]
        exact Nat.mul_le_mul (Multiplicity.copyCount_squeezed_le ho hn) hleaves

theorem leaves_repeatedFreely (t : Tree) (m : Multiplicity) :
    (t.repeatedFreely m).leaves = t.leaves := by
  unfold repeatedFreely
  repeat' split
  all_goals rfl

/-- A term that goes on for ever takes the place of two copies at least. -/
theorem atMost_expandedTermTree (l : Leaf) {m : Multiplicity} (ho : m.isOrdered = true)
    (hn : m.isNever = false) :
    AtMost [Particle.expandedTermTree .attribution l m]
      [Particle.expandedTermTree .validation l m] := by
  by_cases hm : m = .once
  · subst hm
    exact .refl _
  · constructor
    · simp only [Particle.expandedTermTree, Draft.spelledOut, sizes, size_repeated]
      have hle := size_repeatedFreely_le (leaf l) m.squeezed
      have hlt := lt_repeatedSize (leaf l).size ho hn hm
      omega
    · simp only [Particle.expandedTermTree, Draft.spelledOut, leavesOf, List.append_nil,
        leaves_repeatedFreely, leaves_repeated _ ho hn, List.length_flatten, List.map_replicate,
        List.sum_replicate_nat]
      exact Nat.le_mul_of_pos_left _ (Multiplicity.copyCount_pos hn)

end Tree

namespace Particle

mutual
/-- The tree to find ambiguities is no larger than the one to validate. -/
theorem atMost_expandedTree : ∀ {p : Particle} (next : Nat), p.isWellFormed = true →
    AtMost (p.expandedTree .attribution next).toList (p.expandedTree .validation next).toList
  | element name m, next, hw => by
    unfold expandedTree
    cases hn : m.isNever with
    | true => exact .refl _
    | false => exact atMost_expandedTermTree _ hw hn
  | wildcard w, next, hw => by
    unfold expandedTree
    cases hn : w.occurs.isNever with
    | true => exact .refl _
    | false => exact atMost_expandedTermTree _ hw hn
  | group c members m, next, hw => by
    unfold expandedTree
    cases hn : m.isNever with
    | true => exact .refl _
    | false =>
      simp only [isWellFormed, hn, Bool.false_or, Bool.and_eq_true] at hw
      have hmembers := atMost_expandedTrees next hw.2.2
      have hlen : (expandedTrees .attribution members next).length =
          (expandedTrees .validation members next).length := by
        rw [length_expandedTrees, length_expandedTrees]
      rw [if_neg Bool.false_ne_true, if_neg Bool.false_ne_true]
      simp only [hlen]
      exact (hmembers.composed hlen c _).repeated hw.1 hn
theorem atMost_expandedTrees : ∀ {ps : List Particle} (next : Nat), allWellFormed ps = true →
    AtMost (expandedTrees .attribution ps next) (expandedTrees .validation ps next)
  | [], _, _ => .refl _
  | p :: ps, next, hw => by
    simp only [allWellFormed, Bool.and_eq_true] at hw
    exact (atMost_expandedTree next hw.1).append (atMost_expandedTrees _ hw.2)
end

/-- The number of leaves of the tree that is drawn up. -/
def leafCount (purpose : Purpose) (p : Particle) : Nat := (leavesOf (p.drawn purpose).toList).length

theorem atMost_drawn (p : Particle) (hw : p.isAllGroup = false → p.isWellFormed = true) :
    AtMost (p.drawn .attribution).toList (p.drawn .validation).toList := by
  cases hp : p.isAllGroup with
  | true =>
    obtain ⟨members, m, rfl⟩ := exists_of_isAllGroup hp
    exact .refl _
  | false =>
    rw [drawn_of_not_all hp, drawn_of_not_all hp, tree, tree]
    cases hc : p.isCountable with
    | true => exact .refl _
    | false => exact atMost_expandedTree 0 (hw hp)

end Particle

/-! ## Builds -/

/-- The same limits without a bound on the number of nodes. -/
def Limits.free (limits : Limits) : Limits := { limits with nodes := none }

theorem Limits.nodeBound_free (limits : Limits) : limits.free.nodeBound = none := rfl

theorem SyntaxTree.leafCount_ofDraft (root : Option Tree) (isApproximate : Bool) (nodeCount : Nat) :
    (ofDraft root isApproximate nodeCount).leafCount = (leavesOf root.toList).length := by
  rw [leavesOf_toList]
  cases root with
  | none => rfl
  | some t =>
    change (t.number 0).2 = t.leaves.length
    rw [number_snd, Nat.zero_add]

namespace Builder

variable {b b' : Builder} {p : Particle} {purpose : Purpose} {c : Compilation}

/-- The tree of a particle that is compiled, unless it is an `all` group. -/
theorem tree_of_build (hp : p.isAllGroup = false) (h : (b.build p purpose).1 = .ok c) :
    ∃ t, c.tree = some t ∧ t.leafCount = p.leafCount purpose := by
  obtain ⟨s, hd⟩ := run_eq_ok (Prod.ext h rfl)
  rw [Compilation.ofParticle_of_not_all hp] at hd
  obtain ⟨t, s', ht, hc⟩ := Draft.map_eq_ok.1 hd
  cases hc
  obtain ⟨-, nodeCount, rfl⟩ := SyntaxTree.draft_eq_ok ht
  refine ⟨_, Compilation.tree_ofTree _, ?_⟩
  rw [SyntaxTree.leafCount_ofDraft, Particle.leafCount, Particle.drawn_of_not_all hp]

theorem isWellFormed_of_build (hp : p.isAllGroup = false) (h : (b.build p purpose).1 = .ok c) :
    p.isWellFormed = true := (build_eq_ok hp (Prod.ext h rfl)).1

/-- A model is compiled under limits if it is compiled without a bound on the number of nodes, and
its tree keeps within the bound. -/
theorem IsClean.build_eq_ok_iff_nodeCount (h : b.IsClean) :
    (b.build p purpose).1 = .ok c ↔ ((b.setLimits b.limits.free).build p purpose).1 = .ok c ∧
      ∀ bound, b.limits.nodeBound = some bound → p.nodeCount purpose ≤ bound := by
  have hself : b = b.setLimits b.limits := by rw [setLimits, ← h]
  have hn := b.limits.nodeBound_free
  have hdepth : b.limits.depth = b.limits.free.depth := rfl
  cases hb : b.limits.nodeBound with
  | none =>
    have hfree : b.limits.free = b.limits := by
      rw [Limits.nodeBound_none_iff] at hb
      rw [Limits.free, ← hb]
    rw [hfree, ← hself]
    exact (and_iff_left nofun).symm
  | some bound =>
    cases hbuild : ((b.setLimits b.limits.free).build p purpose).1 with
    | error e =>
      have hrefused := build_of_error b b hn hdepth hb hbuild
      rw [← hself] at hrefused
      refine iff_of_false ?_ nofun
      rcases hrefused with he | he <;> rw [he] <;> exact nofun
    | ok c' =>
      obtain ⟨-, hbound⟩ := build_of_ok b b hn hdepth hb hbuild
      rw [← hself] at hbound
      rw [hbound]
      by_cases hle : p.nodeCount purpose ≤ bound <;> simp [hle]

/-- What is known of a particle that is compiled. -/
theorem IsClean.isPaid_of_build (h : b.IsClean) (hbuild : (b.build p purpose).1 = .ok c) :
    c.IsPaid purpose p (p.nodeCount purpose) := by
  let bounded : Limits := { b.limits with nodes := some 0 }
  have hb : bounded.nodeBound = some (min (0 * b.limits.multiplier.toNat) Limits.largestWord) := rfl
  have hdepth : bounded.depth = b.limits.free.depth := rfl
  exact (build_of_ok b b b.limits.nodeBound_free hdepth hb (h.build_eq_ok_iff_nodeCount.1 hbuild).1).1

/-- What can be compiled to validate can be compiled to find ambiguities. -/
theorem IsClean.build_attribution (h : b.IsClean) (h' : b'.IsClean) (hlimits : b'.limits = b.limits)
    (hbuild : (b.build p .validation).1 = .ok c) :
    ∃ c', (b'.build p .attribution).1 = .ok c' := by
  obtain ⟨hfree, hbound⟩ := h.build_eq_ok_iff_nodeCount.1 hbuild
  have hn := b.limits.nodeBound_free
  have hclean : (b.setLimits b.limits.free).IsClean := rfl
  have hclean' : (b'.setLimits b.limits.free).IsClean := rfl
  have hcheck : p.check b.limits.free = .ok () :=
    (hclean.build_eq_ok_iff hn p .validation).1 ⟨c, hfree⟩
  obtain ⟨c', hc'⟩ := (hclean'.build_eq_ok_iff hn p .attribution).2 hcheck
  refine ⟨c', h'.build_eq_ok_iff_nodeCount.2 ⟨by rw [hlimits]; exact hc', fun bound hb => ?_⟩⟩
  rw [hlimits] at hb
  have hatMost := p.atMost_drawn fun hp => isWellFormed_of_build hp hbuild
  exact hatMost.size.trans (hbound bound hb)

/-- An `all` group is compiled the same way for either purpose. -/
theorem build_all (h : p.isAllGroup = true) (b : Builder) (purpose purpose' : Purpose) :
    b.build p purpose = b.build p purpose' := by
  obtain ⟨members, m, rfl⟩ := Particle.exists_of_isAllGroup h
  rfl

/-- What can be compiled for a type to validate can be compiled for it to find ambiguities. -/
theorem IsClean.compile_attribution (h : b.IsClean) (h' : b'.IsClean)
    (hlimits : b'.limits = b.limits) {t : ComplexType} {model : Option Model}
    (hmodel : (t.compile b .validation).model = .ok model) :
    ∃ model', (t.compile b' .attribution).model = .ok model' := by
  unfold ComplexType.compile at hmodel ⊢
  cases hparticles : t.content.hasParticles with
  | false => exact ⟨none, rfl⟩
  | true =>
    cases hparticle : t.particle with
    | none => exact ⟨some .empty, rfl⟩
    | some p =>
      rw [hparticles, hparticle] at hmodel
      change (b.build p .validation).1.map _ = .ok model at hmodel
      cases hbuild : (b.build p .validation).1 with
      | error e =>
        rw [hbuild] at hmodel
        cases hmodel
      | ok c =>
        obtain ⟨c', hc'⟩ := h.build_attribution h' hlimits hbuild
        refine ⟨some c'.model, ?_⟩
        change (b'.build p .attribution).1.map _ = .ok (some c'.model)
        rw [hc']
        rfl

/-- A type is checked if its model can be compiled. -/
theorem passes_of_compile (checker : Checker) {t : ComplexType} (level : Level)
    {model : Option Model} (h : (t.compile b .attribution).model = .ok model) :
    ∃ passes, (checker.checkType t b level).passes = .ok passes := by
  have hmodel : ∃ model', (t.contentModel b .attribution).model = .ok model' := by
    cases hcached : t.cached .attribution with
    | some model' => exact ⟨model', (ComplexType.contentModel_of_cached hcached b).1⟩
    | none =>
      refine ⟨model, ?_⟩
      simp only [ComplexType.contentModel, hcached, h]
  obtain ⟨model', hmodel'⟩ := hmodel
  unfold Checker.checkType
  simp only [hmodel']
  cases checker.enabled with
  | false => exact ⟨true, rfl⟩
  | true => cases model' <;> exact ⟨_, rfl⟩

/-- Whatever limits are in force, what can be compiled to validate can be compiled to find
ambiguities. The tree that serves to find them has at most as many nodes and at most as many leaves.
So if the model of a type can be compiled, the type is checked under the same limits without an
error. -/
theorem attribution_of_validation (h : b.IsClean) (h' : b'.IsClean)
    (hlimits : b'.limits = b.limits) :
    (∀ p c, (b.build p .validation).1 = .ok c → ∃ c', (b'.build p .attribution).1 = .ok c' ∧
      p.nodeCount .attribution ≤ p.nodeCount .validation ∧
      p.leafCount .attribution ≤ p.leafCount .validation ∧
      (p.isAllGroup = true → c' = c) ∧
      (p.isAllGroup = false → ∃ t t', c.tree = some t ∧ c'.tree = some t' ∧
        t'.nodeCount ≤ t.nodeCount ∧ t'.leafCount ≤ t.leafCount)) ∧
    ∀ (checker : Checker) (t : ComplexType) (level : Level) (model : Option Model),
      (t.compile b .validation).model = .ok model →
        ∃ passes, (checker.checkType t b' level).passes = .ok passes := by
  refine ⟨fun p c hbuild => ?_, fun checker t level model hmodel => ?_⟩
  · obtain ⟨c', hc'⟩ := h.build_attribution h' hlimits hbuild
    have hatMost := p.atMost_drawn fun hp => isWellFormed_of_build hp hbuild
    refine ⟨c', hc', hatMost.size, hatMost.leafCount, fun hp => ?_, fun hp => ?_⟩
    · have hfresh : (b'.build p .attribution).1 = (b.build p .attribution).1 := by
        rw [h'.build_fst, h.build_fst, hlimits]
      rw [hfresh, build_all hp b .attribution .validation, hbuild] at hc'
      exact (Except.ok.inj hc').symm
    · obtain ⟨t, ht, hleaves⟩ := tree_of_build hp hbuild
      obtain ⟨t', ht', hleaves'⟩ := tree_of_build hp hc'
      obtain ⟨hnodes, -⟩ := (h.isPaid_of_build hbuild).tree t ht
      obtain ⟨hnodes', -⟩ := (h'.isPaid_of_build hc').tree t' ht'
      refine ⟨t, t', ht, ht', ?_, ?_⟩
      · rw [hnodes, hnodes']
        exact hatMost.size
      · rw [hleaves, hleaves']
        exact hatMost.leafCount
  · obtain ⟨model', hmodel'⟩ := h.compile_attribution h' hlimits hmodel
    exact passes_of_compile checker level hmodel'

/-- Three to five times an `a` or a `b`: a bound that allows the five copies and no more allows the
two that are left when the range is squeezed. -/
theorem attribution_of_validation_between :
    let p : Particle := .group .choice
      [.element (.bare "a") .once, .element (.bare "b") .once] ⟨3, some 5⟩
    let limits : Limits := ⟨some 21, 1, 100⟩
    p.nodeCount .validation = 21 ∧ ∃ c, ((new limits).build p .attribution).1 = .ok c := by
  intro p limits
  have hclean := isClean_new limits
  have hsize : p.nodeCount .validation = 21 := by
    let t : Tree := .joined .choice (.leaf ⟨.element (.bare "a"), 0, 0⟩)
      (.leaf ⟨.element (.bare "b"), 1, 0⟩)
    have hdrawn : p.drawn .validation = some (t.repeated ⟨3, some 5⟩) := rfl
    rw [Particle.nodeCount, hdrawn, Option.toList_some, Tree.sizes, Tree.size_repeated]
    rfl
  have hfree : ∃ c, (((new limits).setLimits limits.free).build p .validation).1 = .ok c := ⟨_, rfl⟩
  obtain ⟨c, hc⟩ := hfree
  have hbuild : ((new limits).build p .validation).1 = .ok c := by
    refine hclean.build_eq_ok_iff_nodeCount.2 ⟨hc, fun bound hb => ?_⟩
    cases hb
    rw [hsize]
    decide
  obtain ⟨c', hc', -⟩ := (attribution_of_validation hclean hclean rfl).1 p c hbuild
  exact ⟨hsize, c', hc'⟩

end Builder

end ContentAutomata
