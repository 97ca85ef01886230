import ContentAutomata.Proofs.AllGroup.Verdicts
import ContentAutomata.Proofs.Automaton.Copies
import ContentAutomata.Proofs.Run.Overflow

/-!
# How many copies of a child are valid

A term that stands alone, and a member of an `all` group, take copies of one child, and nothing but
their range says how many. The verdict on any number of copies is worked out here, beyond what a
32-bit word can count too. For the four ranges that a tree spells out nothing is counted. A bound
below the greatest number of a word stops a count in time. Otherwise the count of a term that stands
alone leaves its word, and so does that of an unbounded member; from then on the verdict depends on
what is left of the number of copies in a word.

Results:
* `repeats_countedTerm`: when one more copy is taken for a term that stands alone;
* `validate_ofTerm`, `AllGroup.validate_copies`: when `k` copies are valid;
* `overflowsIn_of_term`: a count that nothing stops leaves its word;
* `counting_of_build`: what this means for compiled models.
-/
namespace ContentAutomata

open ContentAutomata.Tree

/-! ## The tree of a single term -/

namespace Tree

variable {l k : Leaf} {m r : Multiplicity}

theorem has_countedTerm : (Draft.countedTerm l m).Has k ↔ k = l := by
  obtain ⟨range, hrange⟩ := Draft.leaves_countedTerm l m
  simp [Has, hrange]

/-- A single leaf is numbered from the start. -/
theorem numbered_countedTerm (term : Term) (m : Multiplicity) :
    (Draft.countedTerm ⟨term, 0, 0⟩ m).numbered = Draft.countedTerm ⟨term, 0, 0⟩ m := by
  unfold Draft.countedTerm
  split_ifs <;> rfl

theorem next_countedTerm_first (l : Leaf) (m : Multiplicity) :
    (Draft.countedTerm l m).Next none (some l) := by
  unfold Draft.countedTerm
  split_ifs <;> simp [Next]

theorem next_countedTerm_last (l : Leaf) (m : Multiplicity) :
    (Draft.countedTerm l m).Next (some l) none := by
  unfold Draft.countedTerm
  split_ifs <;> simp [Next]

theorem next_countedTerm_nil : (Draft.countedTerm l m).Next none none ↔ m.min = 0 := by
  unfold Draft.countedTerm
  split_ifs with h1 h2 h3 h4 <;>
    simp [Next, *, Multiplicity.once, Multiplicity.optional, Multiplicity.zeroOrMore,
      Multiplicity.oneOrMore]

theorem next_countedTerm_again :
    (Draft.countedTerm l m).Next (some l) (some l) ↔ m.max ≠ some 1 := by
  unfold Draft.countedTerm
  split_ifs with h1 h2 h3 h4 <;>
    simp [Next, *, Multiplicity.once, Multiplicity.optional, Multiplicity.zeroOrMore,
      Multiplicity.oneOrMore]

end Tree

/-! ## Ranges -/

namespace Multiplicity

variable {m : Multiplicity} {max : UInt32} {k : Nat}

/-- A term with this range is counted, and the range does not stop the count before it leaves its
word. -/
def CountsFreely (m : Multiplicity) : Prop := m.IsOpenEnded ∧ m ≠ .zeroOrMore ∧ m ≠ .oneOrMore

/-- The trees of these ranges spell them out without counting. -/
def IsSpelledOut (m : Multiplicity) : Prop :=
  m = .once ∨ m = .optional ∨ m = .zeroOrMore ∨ m = .oneOrMore

/-- Once or at most once does not admit more, and any number of times does. -/
theorem IsSpelledOut.admits_succ_iff (h : m.IsSpelledOut) :
    m.Admits (k + 1) ↔ k = 0 ∨ m.max ≠ some 1 := by
  rcases h with rfl | rfl | rfl | rfl
  · simp [Admits, once]
  · simp [Admits, optional]
  · simp [Admits, zeroOrMore]
  · simp [Admits, oneOrMore]

theorem CountsFreely.isNever_eq_false (h : m.CountsFreely) : m.isNever = false := by
  rw [← Bool.not_eq_true, isNever_iff]
  intro hmax
  exact absurd (h.1 0 hmax) (by decide)

theorem IsSpelledOut.not_countsFreely (h : m.IsSpelledOut) : ¬ m.CountsFreely := by
  rintro ⟨hopen, hstar, hplus⟩
  rcases h with rfl | rfl | rfl | rfl
  · cases hopen 1 rfl
  · cases hopen 1 rfl
  · exact hstar rfl
  · exact hplus rfl

theorem IsOpenEnded.isExceeded_eq_false (h : m.IsOpenEnded) (count : UInt32) :
    m.isExceeded count = false := by
  cases hmax : m.max with
  | none => simp [isExceeded, hmax]
  | some max =>
    have hlast := h max hmax
    have hlt := count.toNat_lt_size
    simp only [isExceeded, hmax, decide_eq_false_iff_not, UInt32.lt_iff_toNat_lt]
    omega

/-- A bound below the greatest number of a word stops every count. -/
theorem isExceeded_iff_of_not_isOpenEnded (hmax : m.max = some max) (h : ¬ m.IsOpenEnded)
    (hpos : 0 < max.toNat) :
    (∀ i, 1 ≤ i → i < k + 1 → m.isExceeded (.ofNat (i + 1)) = false) ↔ k + 1 ≤ max.toNat := by
  have hsize := max.toNat_lt_size
  have hlast : max.toNat + 1 ≠ UInt32.size := by
    intro he
    refine h fun max' hmax' => ?_
    rwa [← Option.some.inj (hmax.symm.trans hmax')]
  have hexceeded : ∀ i, i + 1 < UInt32.size →
      (m.isExceeded (.ofNat (i + 1)) = false ↔ i + 1 ≤ max.toNat) := by
    intro i hi
    simp only [isExceeded, hmax, decide_eq_false_iff_not, UInt32.lt_iff_toNat_lt,
      UInt32.toNat_ofNat_of_lt' hi, Nat.not_lt]
  constructor
  · intro hall
    by_contra hlt
    have hstop := (hexceeded max.toNat (by omega)).1 (hall _ hpos (by omega))
    omega
  · intro hle i _ hlt
    exact (hexceeded i (by omega)).2 (by omega)

end Multiplicity

/-- What is told of a count in a word. -/
theorem isMissing_ofNat_eq_false_iff {m : Multiplicity} {k : Nat} :
    m.isMissing (.ofNat k) = false ↔ m.min.toNat ≤ k % UInt32.size := by
  rw [Multiplicity.isMissing_eq_false_iff, UInt32.toNat_ofNat']

/-! ## One term alone -/

/-- Only a range that is not spelled out is counted. -/
theorem rangeOf_countedTerm {l : Leaf} {m r : Multiplicity} :
    (Draft.countedTerm l m).rangeOf l = some r ↔ r = m ∧ ¬ m.IsSpelledOut := by
  unfold Draft.countedTerm Multiplicity.IsSpelledOut
  split_ifs with h1 h2 h3 h4 <;> simp [rangeOf, leaves, *]
  exact eq_comm

/-- The automaton of a term that stands alone. -/
abbrev Automaton.ofTerm (term : Term) (m : Multiplicity) : Automaton :=
  (Draft.countedTerm ⟨term, 0, 0⟩ m).automaton false

theorem repeats_countedTerm {l : Leaf} {m : Multiplicity} {i : Nat} :
    Automaton.Repeats (Draft.countedTerm l m) l i ↔
      m.max ≠ some 1 ∧ (¬ m.IsSpelledOut → m.isExceeded (.ofNat (i + 1)) = false) := by
  constructor
  · rintro ⟨hnext, hroom⟩
    exact ⟨next_countedTerm_again.1 hnext,
      fun hcounted => hroom m (rangeOf_countedTerm.2 ⟨rfl, hcounted⟩)⟩
  · rintro ⟨hmax, hroom⟩
    refine ⟨next_countedTerm_again.2 hmax, fun r hr => ?_⟩
    obtain ⟨rfl, hcounted⟩ := rangeOf_countedTerm.1 hr
    exact hroom hcounted

/-- The first child is not too many. -/
theorem room_countedTerm {l : Leaf} {m : Multiplicity} (hn : m.isNever = false) :
    ∀ r, (Draft.countedTerm l m).rangeOf l = some r → r.isExceeded 1 = false := by
  intro r hr
  obtain ⟨rfl, -⟩ := rangeOf_countedTerm.1 hr
  cases hmax : r.max with
  | none => simp [Multiplicity.isExceeded, hmax]
  | some max =>
    have hpos := Multiplicity.pos_of_max hn hmax
    simp only [Multiplicity.isExceeded, hmax, decide_eq_false_iff_not, UInt32.lt_iff_toNat_lt,
      UInt32.toNat_one]
    omega

section Alone

variable {term : Term} {m : Multiplicity} {name : Name}
  (ready : (Draft.countedTerm ⟨term, 0, 0⟩ m).IsCounting [term]) (ha : term.accepts name = true)
  (ho : m.isOrdered = true) (hn : m.isNever = false)

include ready

theorem validate_nil_ofTerm :
    (Model.automaton (.ofTerm term m)).validate [] = .valid ↔ m.min = 0 := by
  rw [Model.validate, Run.verdict_eq_valid_iff, ← next_countedTerm_nil,
    ← Automaton.isComplete_start ready]
  constructor
  · rintro ⟨_, _, htake, hcomplete⟩
    cases htake
    exact hcomplete
  · exact fun hcomplete => ⟨_, _, rfl, hcomplete⟩

include ha hn

theorem validate_succ_ofTerm (k : Nat) :
    (Model.automaton (.ofTerm term m)).validate (List.replicate (k + 1) name) = .valid ↔
      (k = 0 ∨ m.max ≠ some 1) ∧ (¬ m.IsSpelledOut →
          (∀ i, 1 ≤ i → i < k + 1 → m.isExceeded (.ofNat (i + 1)) = false) ∧
            m.min.toNat ≤ (k + 1) % UInt32.size) := by
  rw [Automaton.validate_copies ready (has_countedTerm.2 rfl) ha (next_countedTerm_first _ m)
    (room_countedTerm hn) (next_countedTerm_last _ m)]
  simp only [repeats_countedTerm, rangeOf_countedTerm]
  constructor
  · rintro ⟨hall, hmin⟩
    refine ⟨?_, fun hcounted => ⟨fun i hle hlt => (hall i hle hlt).2 hcounted, ?_⟩⟩
    · rcases Nat.eq_zero_or_pos k with hk | hk
      · exact .inl hk
      · exact .inr (hall 1 (Nat.le_refl 1) (by omega)).1
    · exact isMissing_ofNat_eq_false_iff.1 (hmin m ⟨rfl, hcounted⟩)
  · rintro ⟨hagain, hcounted⟩
    refine ⟨fun i hle hlt => ⟨hagain.resolve_left (by omega), fun hc => ?_⟩, ?_⟩
    · exact (hcounted hc).1 i hle hlt
    · rintro r ⟨rfl, hc⟩
      exact isMissing_ofNat_eq_false_iff.2 (hcounted hc).2

/-- However many children came, none is refused; whether they are enough is told from a word. -/
theorem takeAll_ofTerm (hfree : m.CountsFreely) (k : Nat) :
    ∃ cs s, (Model.automaton (.ofTerm term m)).start.takeAll (List.replicate (k + 1) name) =
        some (cs, .automaton (.ofTerm term m) s) ∧
      Automaton.Taken (Draft.countedTerm ⟨term, 0, 0⟩ m) false ⟨term, 0, 0⟩ (k + 1) s := by
  have hrepeats : ∀ i, Automaton.Repeats (Draft.countedTerm ⟨term, 0, 0⟩ m) ⟨term, 0, 0⟩ i :=
    fun i => repeats_countedTerm.2 ⟨fun hmax => absurd (hfree.1 1 hmax) (by decide),
      fun _ => hfree.1.isExceeded_eq_false _⟩
  rcases Automaton.takeAll_copies false ready (has_countedTerm.2 rfl) ha
    (next_countedTerm_first _ m) (room_countedTerm hn) k with ⟨cs, s, htake, h, -⟩ | ⟨-, i, -, -, hno⟩
  · exact ⟨cs, s, htake, h⟩
  · exact absurd (hrepeats i) hno

/-- So the verdict is not always what the range calls for. -/
theorem validate_ofTerm_of_countsFreely (hfree : m.CountsFreely) (k : Nat) :
    (Model.automaton (.ofTerm term m)).validate (List.replicate (k + 1) name) =
      if m.isMissing (.ofNat (k + 1)) then .incomplete (k + 1) else .valid := by
  obtain ⟨cs, s, htake, h⟩ := takeAll_ofTerm ready ha hn hfree k
  have hcomplete : (Run.automaton (.ofTerm term m) s).isComplete = true ↔
      m.isMissing (.ofNat (k + 1)) = false := by
    refine (Automaton.isComplete_taken ready (has_countedTerm.2 rfl) h).trans ?_
    rw [and_iff_right (next_countedTerm_last _ m)]
    refine ⟨fun hall => hall m (rangeOf_countedTerm.2 ⟨rfl, ?_⟩), fun hmin r hr => ?_⟩
    · exact fun hs => hs.not_countsFreely hfree
    · rwa [(rangeOf_countedTerm.1 hr).1]
  rw [Model.validate, Run.verdict_of_takeAll htake, Nat.zero_add, List.length_replicate]
  cases hmissing : m.isMissing (.ofNat (k + 1)) with
  | false => rw [if_pos (hcomplete.2 hmissing), if_neg Bool.false_ne_true]
  | true =>
    rw [if_neg fun hc => Bool.noConfusion ((hcomplete.1 hc).symm.trans hmissing), if_pos rfl]

/-- After as many children as a word has values, the count has left its word. -/
theorem overflowsIn_ofTerm (hfree : m.CountsFreely) :
    (Model.automaton (.ofTerm term m)).start.OverflowsIn (List.replicate UInt32.size name) := by
  have hsize : UInt32.size = UInt32.size - 2 + 1 + 1 := rfl
  have hl : (Draft.countedTerm ⟨term, 0, 0⟩ m).Has ⟨term, 0, 0⟩ := has_countedTerm.2 rfl
  have hnext : (Draft.countedTerm ⟨term, 0, 0⟩ m).Next (some ⟨term, 0, 0⟩) (some ⟨term, 0, 0⟩) :=
    next_countedTerm_again.2 fun hmax => absurd (hfree.1 1 hmax) (by decide)
  have hrange : (Draft.countedTerm ⟨term, 0, 0⟩ m).rangeOf ⟨term, 0, 0⟩ = some m :=
    rangeOf_countedTerm.2 ⟨rfl, fun hs => hs.not_countsFreely hfree⟩
  obtain ⟨cs, s, htake, h⟩ := takeAll_ofTerm ready ha hn hfree (UInt32.size - 2)
  obtain ⟨j, hj, hoffers⟩ := Automaton.target_zero ready hl h.offers hnext
  obtain rfl := Automaton.offers_unique hoffers h.offers
  have hcounter := Automaton.counter_after ready hl h.offers
  rw [hrange, Option.map_some] at hcounter
  have hcount : s.count.toNat + 1 = UInt32.size := by
    rw [h.count_eq m hrange]
    rfl
  rw [hsize, List.replicate_succ']
  refine .of_takeAll htake (.inl ⟨h.failed_eq, hcount, ⟨m, 0⟩, 0, hcounter, ?_⟩)
  exact Automaton.choose_of_target_eq_some (Automaton.size_entries_one ready)
    (Automaton.accepts_zero ready ha) hj

include ho

/-- What the verdict on copies of a child tells. -/
theorem validate_ofTerm (k : Nat) :
    (m.CountsFreely → ((Model.automaton (.ofTerm term m)).validate (List.replicate k name) =
        .valid ↔ m.min.toNat ≤ k % UInt32.size)) ∧
      (¬ m.CountsFreely → ((Model.automaton (.ofTerm term m)).validate (List.replicate k name) =
        .valid ↔ m.Admits k)) := by
  cases k with
  | zero =>
    have hzero : m.min = 0 ↔ m.min.toNat = 0 := UInt32.toNat_inj.symm
    rw [List.replicate_zero, validate_nil_ofTerm ready, hzero]
    refine ⟨fun _ => ?_, fun _ => ?_⟩
    · rw [Nat.zero_mod, Nat.le_zero]
    · simp [Multiplicity.Admits]
  | succ k =>
    rw [validate_succ_ofTerm ready ha hn]
    by_cases hs : m.IsSpelledOut
    · refine ⟨fun hfree => absurd hfree hs.not_countsFreely, fun _ => ?_⟩
      rw [hs.admits_succ_iff]
      exact and_iff_left fun hcounted => absurd hs hcounted
    · have hagain : k = 0 ∨ m.max ≠ some 1 := .inr fun hmax =>
        hs ((Multiplicity.eq_once_or_optional ho hmax).imp_right .inl)
      rw [and_iff_right hagain, imp_iff_right hs]
      refine ⟨fun hfree => ?_, fun hstops => ?_⟩
      · exact and_iff_right fun i _ _ => hfree.1.isExceeded_eq_false _
      · have hopen : ¬ m.IsOpenEnded := fun hopen =>
          hstops ⟨hopen, fun he => hs (.inr (.inr (.inl he))), fun he => hs (.inr (.inr (.inr he)))⟩
        cases hmax : m.max with
        | none => exact absurd (fun max he => by cases hmax.symm.trans he) hopen
        | some max =>
          have hsize := max.toNat_lt_size
          rw [Multiplicity.isExceeded_iff_of_not_isOpenEnded hmax hopen
            (Multiplicity.pos_of_max hn hmax), Multiplicity.Admits, hmax]
          simp only [Option.some.injEq, forall_eq']
          rw [and_comm]
          refine and_congr_left fun hle => ?_
          rw [Nat.mod_eq_of_lt (by omega)]

end Alone

namespace Particle

variable {p : Particle} {term : Term} (hterm : p.term? = some term)

include hterm

/-- The model of a particle that is a term. -/
theorem model_of_term (purpose : Purpose) : p.model purpose =
    if p.occurs.isNever then .empty
    else .automaton (.ofTerm term p.occurs) := by
  have hmodel : p.model purpose = .ofTree false
      (if p.occurs.isNever then none else some (Draft.countedTerm ⟨term, 0, 0⟩ p.occurs)) := by
    cases p with
    | element name m => cases hterm; rfl
    | wildcard w => cases hterm; rfl
    | group c members m => cases hterm
  rw [hmodel]
  split
  · rfl
  · rw [Model.ofTree, numbered_countedTerm]

/-- Its tree is compiled by counting. -/
theorem isCounting_of_term (hw : p.isWellFormed = true) (hn : p.occurs.isNever = false) :
    (Draft.countedTerm ⟨term, 0, 0⟩ p.occurs).IsCounting [term] := by
  have hcountable : p.isCountable = true ∧ p.terms = [term] ∧
      p.compactTree 0 = some (Draft.countedTerm ⟨term, 0, 0⟩ p.occurs) := by
    cases p with
    | element name m =>
      cases hterm
      have hn : m.isNever = false := hn
      exact ⟨rfl, by simp [terms, hn], by simp [compactTree, hn, occurs]⟩
    | wildcard w =>
      cases hterm
      have hn : w.occurs.isNever = false := hn
      exact ⟨rfl, by simp [terms, hn], by simp [compactTree, hn, occurs]⟩
    | group c members m => cases hterm
  obtain ⟨hc, hterms, htree⟩ := hcountable
  have hcounting := isCounting_compactTree hc hw htree
  rwa [numbered_countedTerm, hterms] at hcounting

theorem isOrdered_of_term (hw : p.isWellFormed = true) : p.occurs.isOrdered = true := by
  cases p with
  | element name m => exact hw
  | wildcard w => exact hw
  | group c members m => cases hterm

theorem isAllGroup_of_term : p.isAllGroup = false := by
  cases p with
  | element name m => rfl
  | wildcard w => rfl
  | group c members m => cases hterm

end Particle

/-- The empty model is content with no children only. -/
theorem validate_empty_copies (name : Name) (k : Nat) :
    Model.empty.validate (List.replicate k name) = .valid ↔ k = 0 := by
  cases k with
  | zero => simp [Model.validate, Model.start, Run.verdict, Run.isComplete]
  | succ k => simp [Model.validate, Model.start, Run.verdict, Run.step, List.replicate_succ]

/-! ## One member of an `all` group -/

/-- When copies of a child that one member of the group asks for are valid, if no other member has
to occur. -/
theorem AllGroup.validate_copies {g : AllGroup} (hdisjoint : IsDisjoint g.members) {d : Demand}
    (hd : d ∈ g.demands) {name : Name} (ha : d.accepts name = true)
    (hothers : ∀ d' ∈ g.demands, d' ≠ d → d'.occurs.min = 0) (k : Nat) :
    (Model.all g).validate (List.replicate k name) = .valid ↔
      (∀ max, d.occurs.max = some max → k ≤ max.toNat) ∧
        (d.occurs.min.toNat ≤ k % UInt32.size ∨ g.isNullable = true ∧ k % UInt32.size = 0) := by
  have hcount : (List.replicate k name).countP d.accepts = k := by
    rw [List.countP_replicate, if_pos ha]
  -- the other members count none of the children
  have hcases : ∀ d' ∈ g.demands, d' = d ∨
      (d'.occurs.min = 0 ∧ (List.replicate k name).countP d'.accepts = 0) := by
    intro d' hd'
    by_cases he : d' = d
    · exact .inl he
    · refine .inr ⟨hothers d' hd' he, ?_⟩
      rw [List.countP_replicate, if_neg fun ha' => he (eq_of_demands hdisjoint hd' hd ha' ha)]
  have hall {P : Multiplicity → Nat → Prop} (hzero : ∀ r : Multiplicity, r.min = 0 → P r 0) :
      (∀ d' ∈ g.demands, P d'.occurs ((List.replicate k name).countP d'.accepts)) ↔
        P d.occurs k := by
    constructor
    · intro hP
      simpa only [hcount] using hP d hd
    · intro hP d' hd'
      rcases hcases d' hd' with rfl | ⟨hmin, hnone⟩
      · rwa [hcount]
      · rw [hnone]
        exact hzero _ hmin
  have hsuits : Suits g.demands (List.replicate k name) ↔
      ∀ max, d.occurs.max = some max → k ≤ max.toNat := by
    rw [← hall (P := fun r n => ∀ max, r.max = some max → n ≤ max.toNat)
      fun r _ max _ => Nat.zero_le _]
    refine ⟨fun h => h.within, fun h => ⟨fun name' hname => ?_, h⟩⟩
    rw [List.eq_of_mem_replicate hname]
    exact ⟨d, hd, ha⟩
  rw [verdict_counted hdisjoint, isComplete_counted, hsuits,
    hall (P := fun r n => r.min.toNat ≤ n % UInt32.size) fun r hr => by rw [hr]; exact Nat.zero_le _,
    hall (P := fun _ n => n % UInt32.size = 0) fun _ _ => rfl]

/-! ## Compiled models -/

section Build

variable {b b' : Builder} {p : Particle} {purpose : Purpose} {c : Compilation} {term : Term}
  {name : Name}

/-- What a compiled term does whose counter nothing stops. -/
theorem overflowsIn_of_term (h : b.build p purpose = (.ok c, b'))
    (hterm : p.term? = some term) (ha : term.accepts name = true) (hfree : p.occurs.CountsFreely) :
    c.model.start.OverflowsIn (List.replicate UInt32.size name) ∧
      ∀ k, c.model.validate (List.replicate (k + 1) name) =
        if p.occurs.isMissing (.ofNat (k + 1)) then .incomplete (k + 1) else .valid := by
  obtain ⟨hw, -⟩ := Builder.build_eq_ok (Particle.isAllGroup_of_term hterm) h
  have hn := hfree.isNever_eq_false
  have ready := Particle.isCounting_of_term hterm hw hn
  rw [Builder.model_of_build h, Particle.model_of_term hterm, hn]
  exact ⟨overflowsIn_ofTerm ready ha hn hfree, validate_ofTerm_of_countsFreely ready ha hn hfree⟩

/-- The verdict on copies of a child for a compiled term. -/
theorem validate_copies_of_term (h : b.build p purpose = (.ok c, b'))
    (hterm : p.term? = some term) (ha : term.accepts name = true) (k : Nat) :
    (p.occurs.CountsFreely →
        (c.model.validate (List.replicate k name) = .valid ↔
          p.occurs.min.toNat ≤ k % UInt32.size)) ∧
      (¬ p.occurs.CountsFreely →
        (c.model.validate (List.replicate k name) = .valid ↔ p.occurs.Admits k)) := by
  obtain ⟨hw, -⟩ := Builder.build_eq_ok (Particle.isAllGroup_of_term hterm) h
  have ho := Particle.isOrdered_of_term hterm hw
  rw [Builder.model_of_build h, Particle.model_of_term hterm]
  cases hn : p.occurs.isNever with
  | true =>
    have hmax := Multiplicity.isNever_iff.1 hn
    refine ⟨fun hfree => absurd (hfree.1 0 hmax) (by decide), fun _ => ?_⟩
    have hmin := UInt32.le_iff_toNat_le.1 (Multiplicity.isOrdered_iff.1 ho 0 hmax)
    rw [if_pos rfl, validate_empty_copies, Multiplicity.Admits, hmax]
    simp only [Option.some.injEq, forall_eq', UInt32.toNat_zero] at hmin ⊢
    omega
  | false =>
    exact validate_ofTerm (Particle.isCounting_of_term hterm hw hn) ha ho hn k

/-- The verdict on copies of a child for a member of a compiled `all` group in which no other member
has to occur. -/
theorem validate_copies_of_member {members : List Particle} {m : Multiplicity}
    (h : b.build (.group .all members m) purpose = (.ok c, b')) (hm : m.isNever = false)
    (hu : c.model.ambiguities = []) (hp : p ∈ members) (hn : p.occurs.isNever = false)
    (hterm : p.term? = some term) (ha : term.accepts name = true)
    (hothers : ∀ q ∈ members, q ≠ p → q.occurs.min = 0) (k : Nat) :
    c.model.validate (List.replicate k name) = .valid ↔
      (∀ max, p.occurs.max = some max → k ≤ max.toNat) ∧
        (p.occurs.min.toNat ≤ k % UInt32.size ∨ m.min = 0 ∧ k % UInt32.size = 0) := by
  have hmodel : c.model = .all (.ofTree (.all (Particle.memberTrees members 0) m)) := by
    rw [Builder.model_of_build h, Particle.model, hm]
    rfl
  have hdemands := AllGroup.demands_ofTree members 0 m
  have hd : (⟨term.accepts, p.occurs⟩ : Demand) ∈ members.filterMap Particle.demand? :=
    List.mem_filterMap.2 ⟨p, hp, Particle.demand?_eq_some.2 ⟨hn, term, hterm, rfl⟩⟩
  have hmins : ∀ d ∈ members.filterMap Particle.demand?, d ≠ ⟨term.accepts, p.occurs⟩ →
      d.occurs.min = 0 := by
    intro d hmem hne
    obtain ⟨q, hq, hqd⟩ := List.mem_filterMap.1 hmem
    obtain ⟨-, term', hterm', rfl⟩ := Particle.demand?_eq_some.1 hqd
    refine hothers q hq ?_
    rintro rfl
    exact hne (by rw [Option.some.inj (hterm.symm.trans hterm')])
  rw [hmodel] at hu ⊢
  rw [AllGroup.validate_copies (AllGroup.isDisjoint_of_ambiguities hu) (hdemands ▸ hd) ha
    (hdemands ▸ hmins), AllGroup.isNullable_ofTree]
  refine and_congr_right fun _ => ⟨?_, ?_⟩
  · rintro (hmin | ⟨hnull | hnull, hzero⟩)
    · exact .inl hmin
    · exact .inr ⟨hnull, hzero⟩
    · -- if every member may be left out, so may this one
      exact .inl (by rw [hnull _ hd]; exact Nat.zero_le _)
  · rintro (hmin | ⟨hnull, hzero⟩)
    · exact .inl hmin
    · exact .inr ⟨.inl hnull, hzero⟩

/-- **Counting in words.** In a run of a compiled model, a count leaves its word only after as many
children as a word has values, and only where a range sets no bound that stops it before. So a term
that stands alone takes just as many copies of a child as its range admits, unless it is counted and
its range is unbounded, or ends with the greatest number of a word: then the count does leave its
word, no child is refused, and whether they are enough is told from what is left of their number in
a word. A member of an `all` group never takes more copies than its range admits, whatever their
number; but whether they are enough, or none at all, is told in the same way. -/
theorem counting_of_build (h : b.build p purpose = (.ok c, b')) :
    (∀ names, c.model.start.OverflowsIn names →
        UInt32.size ≤ names.length ∧ c.model.CountsFreely) ∧
      (∀ term name, p.term? = some term → term.accepts name = true →
        (p.occurs.CountsFreely →
          c.model.start.OverflowsIn (List.replicate UInt32.size name) ∧
          ∀ k, c.model.validate (List.replicate k name) = .valid ↔
            p.occurs.min.toNat ≤ k % UInt32.size) ∧
        (¬ p.occurs.CountsFreely → ∀ k,
          c.model.validate (List.replicate k name) = .valid ↔ p.occurs.Admits k)) ∧
      ∀ members m q term name, p = .group .all members m → m.isNever = false →
        c.model.ambiguities = [] → q ∈ members → q.occurs.isNever = false →
        q.term? = some term → term.accepts name = true →
        (∀ q' ∈ members, q' ≠ q → q'.occurs.min = 0) → ∀ k,
        (c.model.validate (List.replicate k name) = .valid ↔
          (∀ max, q.occurs.max = some max → k ≤ max.toNat) ∧
            (q.occurs.min.toNat ≤ k % UInt32.size ∨ m.min = 0 ∧ k % UInt32.size = 0)) := by
  refine ⟨fun names ho => ?_, fun term name hterm ha => ?_, ?_⟩
  · have hcases := ho.cases (Run.bounded_start c.model)
    rwa [Run.model_start, Nat.zero_add] at hcases
  · have hcopies := validate_copies_of_term h hterm ha
    refine ⟨fun hfree => ⟨(overflowsIn_of_term h hterm ha hfree).1, fun k => ?_⟩,
      fun hstops k => ?_⟩
    · exact (hcopies k).1 hfree
    · exact (hcopies k).2 hstops
  · rintro members m q term name rfl hm hu hq hn hterm ha hothers k
    exact validate_copies_of_member h hm hu hq hn hterm ha hothers k

end Build

/-- Two or more `a` alone, and one or two `a` next to an optional `b` in any order. -/
theorem counting_of_build_small :
    let p : Particle := .element (.bare "a") ⟨2, none⟩
    let members : List Particle :=
      [.element (.bare "a") ⟨1, some 2⟩, .element (.bare "b") .optional]
    ∃ c d b b', (Builder.new .default).build p .validation = (.ok c, b) ∧
      (Builder.new .default).build (.group .all members .once) .validation = (.ok d, b') ∧
      ¬ c.model.start.OverflowsIn (List.replicate 3 (.bare "a")) ∧
      c.model.validate (List.replicate 3 (.bare "a")) = .valid ∧
      c.model.validate (List.replicate 1 (.bare "a")) ≠ .valid ∧
      d.model.validate (List.replicate 2 (.bare "a")) = .valid ∧
      d.model.validate (List.replicate 3 (.bare "a")) ≠ .valid := by
  intro p members
  have hp : ∃ c b, (Builder.new .default).build p .validation = (.ok c, b) := ⟨_, _, rfl⟩
  have hmembers : ∃ d b', (Builder.new .default).build (.group .all members .once) .validation =
      (.ok d, b') ∧ d.model.ambiguities = [] := ⟨_, _, rfl, by decide +kernel⟩
  have hfree : p.occurs.CountsFreely :=
    ⟨fun max hmax => (by cases hmax), by decide, by decide⟩
  obtain ⟨c, b, hc⟩ := hp
  obtain ⟨d, b', hd, hambiguities⟩ := hmembers
  obtain ⟨hoverflow, hterm, -⟩ := counting_of_build hc
  obtain ⟨-, -, hmember⟩ := counting_of_build hd
  have halone := ((hterm (.element (.bare "a")) (.bare "a") rfl (by decide)).1 hfree).2
  have hboth := hmember members .once (.element (.bare "a") ⟨1, some 2⟩) (.element (.bare "a"))
    (.bare "a") rfl rfl hambiguities List.mem_cons_self rfl rfl (by decide)
    (by simp [members, Particle.occurs, Multiplicity.optional])
  refine ⟨c, d, b, b', hc, hd, fun ho => absurd (hoverflow _ ho).1 (by decide),
    (halone 3).2 (by decide), fun hvalid => absurd ((halone 1).1 hvalid) (by decide),
    (hboth 2).2 ⟨fun max hmax => Option.some.inj hmax ▸ Nat.le_refl 2, by decide⟩,
    fun hvalid => ?_⟩
  exact absurd (((hboth 3).1 hvalid).1 2 rfl) (by decide)

/-- Two or more `a` are incomplete if there are as many as a word has values, though they are
enough; so are one or more `a` in an `all` group. As many `a` are valid where at most one less is
allowed. -/
theorem overflow_of_build :
    (∃ c b, (Builder.new .default).build (.element (.bare "a") ⟨2, none⟩) .validation = (.ok c, b) ∧
      c.model.start.OverflowsIn (List.replicate 4294967296 (.bare "a")) ∧
      c.model.validate (List.replicate 4294967296 (.bare "a")) = .incomplete 4294967296) ∧
    (∃ c b, (Builder.new .default).build (.element (.bare "a") ⟨0, some 4294967295⟩) .validation =
        (.ok c, b) ∧
      c.model.validate (List.replicate 4294967296 (.bare "a")) = .valid) ∧
    ∃ c b, (Builder.new .default).build (.group .all [.element (.bare "a") .oneOrMore] .once)
        .validation = (.ok c, b) ∧
      c.model.validate (List.replicate 4294967296 (.bare "a")) ≠ .valid := by
  have ha : (Term.element (.bare "a")).accepts (.bare "a") = true := by decide
  refine ⟨?_, ?_, ?_⟩
  · have h : (Builder.new .default).build (.element (.bare "a") ⟨2, none⟩) .validation =
        (.ok _, _) := rfl
    obtain ⟨hoverflows, hverdict⟩ := overflowsIn_of_term h rfl ha
      ⟨fun max hmax => (by cases hmax), by decide, by decide⟩
    refine ⟨_, _, h, hoverflows, (hverdict 4294967295).trans ?_⟩
    exact if_pos (by decide)
  · have h : (Builder.new .default).build (.element (.bare "a") ⟨0, some 4294967295⟩) .validation =
        (.ok _, _) := rfl
    obtain ⟨-, hverdict⟩ := overflowsIn_of_term h rfl ha
      ⟨fun max hmax => Option.some.inj hmax ▸ rfl, by decide, by decide⟩
    refine ⟨_, _, h, (hverdict 4294967295).trans ?_⟩
    exact if_neg (by decide)
  · have h : (Builder.new .default).build (.group .all [.element (.bare "a") .oneOrMore] .once)
        .validation = (.ok _, _) := rfl
    have hcopies := validate_copies_of_member h rfl (by decide +kernel) List.mem_cons_self rfl rfl ha
      (fun q hq hne => absurd (List.mem_singleton.1 hq) hne)
    refine ⟨_, _, h, fun hvalid => ?_⟩
    exact absurd ((hcopies _).1 hvalid).2 (by decide)

end ContentAutomata
