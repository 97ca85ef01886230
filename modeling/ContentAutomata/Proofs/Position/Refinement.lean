import ContentAutomata.Position.Bounded
import Mathlib.Data.Finset.Sort

/-!
# Position sets in words refine finite sets

Sets that are kept in words, one word for up to 64 positions and an array of words for more, are to
be used as if they were just finite sets of numbers below a capacity. Here calls change a family of
such sets, and the same calls are made on finite sets and capacities alone (`SetCall.fault?`,
`SetCall.meaning`). A call is refused for the same reason, then every set stays as it was, and
whatever is read of a set at any time is what the finite set it stands for says
(`BoundedSet.StandsFor`).

Results:
* `WordSet.mem_toPositionSet`, `WordSet.members_toPositionSet`: sets kept as one number are the same
  sets;
* `SetCall.apply_cases`: what one call comes to;
* `performAll_cases`: what any number of calls come to, from any sets;
* `performAll_refines`: the same from sets without members, with all that can be read of them.
-/
namespace ContentAutomata

namespace WordSet

variable {n : Nat} {s t : WordSet n}

/-- The members as a finite set. -/
def positions (s : WordSet n) : Finset Nat := s.members.toFinset

@[simp] theorem mem_positions {p : Nat} : p ∈ s.positions ↔ p ∈ s := by
  rw [positions, List.mem_toFinset, mem_members]

theorem positions_inj : s.positions = t.positions ↔ s = t := by
  constructor
  · intro h
    refine ext fun p => ?_
    rw [← mem_positions, h, mem_positions]
  · rintro rfl
    rfl

theorem sort_positions (s : WordSet n) : s.positions.sort (· ≤ ·) = s.members :=
  (List.toFinset_sort (· ≤ ·) s.members_nodup).2 (s.members_pairwise.imp Nat.le_of_lt)

theorem card_positions (s : WordSet n) : s.positions.card = s.count := by
  rw [positions, List.toFinset_card_of_nodup s.members_nodup, count_eq]

theorem positions_eq_empty_iff : s.positions = ∅ ↔ s.isEmpty = true := by
  rw [isEmpty_iff, Finset.eq_empty_iff_forall_notMem]
  simp only [mem_positions]

theorem positions_empty (n : Nat) : (empty n).positions = ∅ :=
  Finset.eq_empty_iff_forall_notMem.2 fun p => mt mem_positions.1 (not_mem_empty p)

theorem positions_insert {p : Nat} (h : p < n) :
    (s.insert p h).positions = Insert.insert p s.positions := by
  ext q
  simp only [mem_positions, mem_insert, Finset.mem_insert]

theorem positions_clear (s : WordSet n) : s.clear.positions = ∅ := by
  rw [clear_eq, positions_empty]

theorem positions_union : (s.union t).positions = s.positions ∪ t.positions := by
  ext q
  simp only [mem_positions, mem_union, Finset.mem_union]

theorem positions_inter : (s.inter t).positions = s.positions ∩ t.positions := by
  ext q
  simp only [mem_positions, mem_inter, Finset.mem_inter]

theorem positions_overwrite (s t : WordSet n) : (s.overwrite t).positions = t.positions := by
  rw [overwrite_eq]

end WordSet

namespace BoundedSet

/-- The members as a finite set. -/
def positions (s : BoundedSet) : Finset Nat := s.set.positions

/-! ## What is read of a set -/

/-- Whatever is read of `s` is what the finite set `S` of positions below `capacity` says. -/
structure StandsFor (s : BoundedSet) (capacity : Nat) (S : Finset Nat) : Prop where
  capacity_eq : s.capacity = capacity
  lt_of_mem : ∀ p ∈ S, p < capacity
  /-- There is one word for up to 64 positions, and an array of as many words as needed for more. -/
  hasShape : s.set.words.HasShape capacity
  /-- The bits that are set are the members: there are no others at or above the capacity. -/
  testBit : ∀ p, s.set.words.testBit p = decide (p ∈ S)
  contains : ∀ p, s.contains p =
    if p < capacity then .ok (decide (p ∈ S)) else .error (.outOfRange p capacity)
  members : s.set.members = S.sort (· ≤ ·)
  text : s.text =
    "\x7b" ++ String.join ((S.sort (· ≤ ·)).map fun p => " " ++ toString p) ++ " \x7d"
  count : s.set.count = S.card
  isEmpty : s.set.isEmpty = decide (S = ∅)

theorem standsFor (s : BoundedSet) : s.StandsFor s.capacity s.positions where
  capacity_eq := rfl
  lt_of_mem p hp := WordSet.lt_of_mem (WordSet.mem_positions.1 hp)
  hasShape := s.set.hasShape
  testBit p := by
    rw [Bool.eq_iff_iff, decide_eq_true_eq, positions, WordSet.mem_positions]
    exact Iff.rfl
  contains p := by
    have hmem : decide (p ∈ s.set) = decide (p ∈ s.positions) :=
      decide_eq_decide.2 WordSet.mem_positions.symm
    rw [contains, WordSet.contains_eq, hmem]
  members := s.set.sort_positions.symm
  text := by
    rw [positions, WordSet.sort_positions]
    rfl
  count := s.set.card_positions.symm
  isEmpty := by
    rw [Bool.eq_iff_iff, decide_eq_true_eq, positions, WordSet.positions_eq_empty_iff]

/-- Two sets are the same if their capacities and members are. -/
theorem eq_iff {s t : BoundedSet} :
    s = t ↔ s.capacity = t.capacity ∧ s.positions = t.positions := by
  obtain ⟨c, s⟩ := s
  obtain ⟨d, t⟩ := t
  constructor
  · intro h
    rw [h]
    exact ⟨rfl, rfl⟩
  · rintro ⟨hc, hp⟩
    obtain rfl : c = d := hc
    obtain rfl : s = t := WordSet.positions_inj.1 hp
    rfl

/-- Two sets are the same if their capacities and words are. -/
theorem eq_iff_words {s t : BoundedSet} :
    s = t ↔ s.capacity = t.capacity ∧ s.set.words = t.set.words := by
  obtain ⟨c, s⟩ := s
  obtain ⟨d, t⟩ := t
  constructor
  · intro h
    rw [h]
    exact ⟨rfl, rfl⟩
  · rintro ⟨hc, hw⟩
    obtain rfl : c = d := hc
    cases s
    cases t
    cases hw
    rfl

theorem meets_iff {s t : BoundedSet} :
    s.meets t = true ↔ s.capacity = t.capacity ∧ (s.positions ∩ t.positions).Nonempty := by
  obtain ⟨c, s⟩ := s
  obtain ⟨d, t⟩ := t
  rw [meets]
  split
  · rename_i h
    obtain rfl : d = c := h
    rw [WordSet.meets_iff]
    simp [positions, Finset.Nonempty]
  · rename_i h
    exact iff_of_false Bool.noConfusion fun hc => h hc.1.symm

/-- Combining two sets is refused if their capacities differ, and not otherwise. -/
theorem combine_cases {f : {n : Nat} → WordSet n → WordSet n → WordSet n}
    (op : Finset Nat → Finset Nat → Finset Nat)
    (hf : ∀ {n : Nat} {s t : WordSet n}, (f s t).positions = op s.positions t.positions)
    (s t : BoundedSet) :
    let fault : Option SetFault :=
      if t.capacity = s.capacity then none else some .capacityMismatch
    (∃ e, fault = some e ∧ combine f s t = .error e) ∨
      ∃ u, fault = none ∧ combine f s t = .ok u ∧ u.capacity = s.capacity ∧
        u.positions = op s.positions t.positions := by
  obtain ⟨c, s⟩ := s
  obtain ⟨d, t⟩ := t
  by_cases h : d = c
  · subst h
    exact .inr ⟨⟨d, f s t⟩, if_pos rfl, by rw [combine, dif_pos rfl], rfl, hf⟩
  · exact .inl ⟨_, if_neg h, by rw [combine, dif_neg h]⟩

end BoundedSet

/-! ## Kept as one number

Where all sets have the capacity that their type names, as in a tree and its automaton, a set is
kept as one number, of as many bits as it takes. That is the same sets. -/

namespace WordSet

variable {n : Nat} {s : WordSet n}

/-- The same members, kept as one number. -/
def toPositionSet (s : WordSet n) : PositionSet n := s.members.foldl PositionSet.insert ∅

theorem mem_foldl_insert {ps : List Nat} (hlt : ∀ p ∈ ps, p < n) (t : PositionSet n) {q : Nat} :
    q ∈ ps.foldl PositionSet.insert t ↔ q ∈ t ∨ q ∈ ps := by
  induction ps generalizing t with
  | nil => simp
  | cons p ps ih =>
    have hp : p < n := hlt p List.mem_cons_self
    rw [List.foldl_cons, ih (fun q hq => hlt q (List.mem_cons_of_mem p hq)),
      PositionSet.mem_insert hp, List.mem_cons, or_comm (a := q = p), or_assoc]

@[simp] theorem mem_toPositionSet {p : Nat} : p ∈ s.toPositionSet ↔ p ∈ s := by
  rw [toPositionSet, mem_foldl_insert fun p hp => lt_of_mem (mem_members.1 hp)]
  simp

/-- Both list the same members in the same order. -/
theorem members_toPositionSet (s : WordSet n) : s.toPositionSet.members = s.members := by
  have hperm : s.toPositionSet.members.Perm s.members := by
    refine (List.perm_ext_iff_of_nodup ?_ s.members_nodup).2 fun p => by simp
    exact s.toPositionSet.members_pairwise.imp Nat.ne_of_lt
  refine hperm.eq_of_pairwise (fun a b _ _ hab hba => ?_)
    s.toPositionSet.members_pairwise s.members_pairwise
  exact absurd hab (Nat.lt_asymm hba)

end WordSet

/-! ## Calls -/

/-- A call that changes one of a family of sets. -/
inductive SetCall (ι : Type) where
  | insert (target : ι) (position : Nat)
  | clear (target : ι)
  | union (target source : ι)
  | inter (target source : ι)
  | assign (target source : ι)

namespace SetCall

variable {ι : Type}

/-- The set that the call changes. -/
def target : SetCall ι → ι
  | insert i _ | clear i | union i _ | inter i _ | assign i _ => i

/-- What the call makes of the set that it changes. -/
def apply (sets : ι → BoundedSet) : SetCall ι → Except SetFault BoundedSet
  | insert i p => (sets i).insert p
  | clear i => .ok (sets i).clear
  | union i j => (sets i).union (sets j)
  | inter i j => (sets i).inter (sets j)
  | assign i j => (sets i).assign (sets j)

/-- The reason to refuse the call, told from the capacities. -/
def fault? (capacity : ι → Nat) : SetCall ι → Option SetFault
  | insert i p => if p < capacity i then none else some (.outOfRange p (capacity i))
  | clear _ => none
  | union i j | inter i j | assign i j =>
    if capacity j = capacity i then none else some .capacityMismatch

/-- What the call makes of the finite set that it changes. -/
def result (sets : ι → Finset Nat) : SetCall ι → Finset Nat
  | insert i p => Insert.insert p (sets i)
  | clear _ => ∅
  | union i j => sets i ∪ sets j
  | inter i j => sets i ∩ sets j
  | assign _ j => sets j

/-- A call comes to what is told from the capacities and the members. -/
theorem apply_cases (sets : ι → BoundedSet) (c : SetCall ι) :
    (∃ e, c.fault? (fun i => (sets i).capacity) = some e ∧ c.apply sets = .error e) ∨
      ∃ s, c.fault? (fun i => (sets i).capacity) = none ∧ c.apply sets = .ok s ∧
        s.capacity = (sets c.target).capacity ∧
        s.positions = c.result fun i => (sets i).positions := by
  cases c with
  | insert i p =>
    by_cases hp : p < (sets i).capacity
    · exact .inr ⟨_, if_pos hp, dif_pos hp, rfl, WordSet.positions_insert hp⟩
    · exact .inl ⟨_, if_neg hp, dif_neg hp⟩
  | clear i => exact .inr ⟨_, rfl, rfl, rfl, (sets i).set.positions_clear⟩
  | union i j => exact BoundedSet.combine_cases (· ∪ ·) WordSet.positions_union (sets i) (sets j)
  | inter i j => exact BoundedSet.combine_cases (· ∩ ·) WordSet.positions_inter (sets i) (sets j)
  | assign i j =>
    refine BoundedSet.combine_cases (fun _ T => T) (fun {_ s t} => ?_) (sets i) (sets j)
    exact s.positions_overwrite t

variable [DecidableEq ι]

/-- Makes the call. A refused call leaves every set as it was. -/
def perform (sets : ι → BoundedSet) (c : SetCall ι) : Option SetFault × (ι → BoundedSet) :=
  match c.apply sets with
  | .ok s => (none, Function.update sets c.target s)
  | .error e => (some e, sets)

/-- What is left of finite sets below the given capacities after the call. -/
def meaning (capacity : ι → Nat) (sets : ι → Finset Nat) (c : SetCall ι) : ι → Finset Nat :=
  if c.fault? capacity = none then Function.update sets c.target (c.result sets) else sets

end SetCall

variable {ι : Type} [DecidableEq ι]

/-- Makes calls one after the other: the reasons to refuse them, and the sets in the end. -/
def performAll (sets : ι → BoundedSet) :
    List (SetCall ι) → List (Option SetFault) × (ι → BoundedSet)
  | [] => ([], sets)
  | c :: calls =>
    let (fault, sets') := c.perform sets
    let (faults, sets'') := performAll sets' calls
    (fault :: faults, sets'')

theorem SetCall.perform_of_fault {sets : ι → BoundedSet} {c : SetCall ι} {e : SetFault}
    (h : c.fault? (fun i => (sets i).capacity) = some e) : c.perform sets = (some e, sets) := by
  rcases c.apply_cases sets with ⟨e', hfault, happly⟩ | ⟨s, hfault, -⟩
  · obtain rfl : e' = e := Option.some.inj (hfault.symm.trans h)
    rw [perform, happly]
  · cases hfault.symm.trans h

theorem SetCall.perform_cases (sets : ι → BoundedSet) (c : SetCall ι) :
    (c.perform sets).1 = c.fault? (fun i => (sets i).capacity) ∧
      (∀ i, ((c.perform sets).2 i).capacity = (sets i).capacity) ∧
      (fun i => ((c.perform sets).2 i).positions) =
        meaning (fun i => (sets i).capacity) (fun i => (sets i).positions) c := by
  rw [meaning]
  rcases c.apply_cases sets with ⟨e, hfault, -⟩ | ⟨s, hfault, happly, hcapacity, hpositions⟩
  · rw [perform_of_fault hfault, hfault]
    exact ⟨rfl, fun _ => rfl, rfl⟩
  · have hperform : c.perform sets = (none, Function.update sets c.target s) := by
      rw [perform, happly]
    have hself : (c.perform sets).2 c.target = s := by
      rw [hperform]
      exact Function.update_self ..
    have hother {i : ι} (hi : i ≠ c.target) : (c.perform sets).2 i = sets i := by
      rw [hperform]
      exact Function.update_of_ne hi ..
    rw [hfault, if_pos rfl, ← hpositions]
    refine ⟨congrArg Prod.fst hperform, fun i => ?_, funext fun i => ?_⟩
    · by_cases hi : i = c.target
      · rw [hi, hself, hcapacity]
      · rw [hother hi]
    · by_cases hi : i = c.target
      · rw [hi, hself, Function.update_self]
      · rw [hother hi, Function.update_of_ne hi]

theorem performAll_cases (sets : ι → BoundedSet) (calls : List (SetCall ι)) :
    (performAll sets calls).1 = calls.map (SetCall.fault? fun i => (sets i).capacity) ∧
      (∀ i, ((performAll sets calls).2 i).capacity = (sets i).capacity) ∧
      (fun i => ((performAll sets calls).2 i).positions) =
        calls.foldl (SetCall.meaning fun i => (sets i).capacity) fun i => (sets i).positions := by
  induction calls generalizing sets with
  | nil => exact ⟨rfl, fun _ => rfl, rfl⟩
  | cons c calls ih =>
    obtain ⟨hfault, hcapacity, hpositions⟩ := c.perform_cases sets
    obtain ⟨hfaults, hcapacities, hrest⟩ := ih (c.perform sets).2
    simp only [hcapacity, hpositions] at hfaults hcapacities hrest
    exact ⟨congrArg₂ List.cons hfault hfaults, hcapacities, hrest⟩

/-- **Position sets are finite sets.** Any calls, made on sets of any capacities that begin without
members, are refused as the capacities tell, and leave sets that stand for what the calls make of
finite sets. A further call that is refused leaves all sets as they are. Two of the sets are the
same if their capacities and finite sets are, which is if their capacities and words are; they meet
if their capacities are the same and their finite sets meet. -/
theorem performAll_refines (capacity : ι → Nat) (calls : List (SetCall ι)) :
    let sets := (performAll (fun i => .empty (capacity i)) calls).2
    let finsets := calls.foldl (SetCall.meaning capacity) fun _ => ∅
    (performAll (fun i => .empty (capacity i)) calls).1 = calls.map (SetCall.fault? capacity) ∧
      (∀ i, (sets i).StandsFor (capacity i) (finsets i)) ∧
      (∀ (c : SetCall ι) e, c.fault? capacity = some e → c.perform sets = (some e, sets)) ∧
      (∀ i j, (sets i == sets j) = true ↔ capacity i = capacity j ∧ finsets i = finsets j) ∧
      (∀ i j, (sets i == sets j) = true ↔
        capacity i = capacity j ∧ (sets i).set.words = (sets j).set.words) ∧
      ∀ i j, (sets i).meets (sets j) = true ↔
        capacity i = capacity j ∧ (finsets i ∩ finsets j).Nonempty := by
  intro sets finsets
  obtain ⟨hfaults, hcapacity, hpositions⟩ :=
    performAll_cases (fun i => BoundedSet.empty (capacity i)) calls
  have hempty : (fun i => (BoundedSet.empty (capacity i)).positions) = fun _ => ∅ :=
    funext fun i => WordSet.positions_empty (capacity i)
  rw [hempty] at hpositions
  have hcap : ∀ i, (sets i).capacity = capacity i := hcapacity
  have hpos : ∀ i, (sets i).positions = finsets i := congrFun hpositions
  refine ⟨hfaults, fun i => ?_, fun c e he => ?_, fun i j => ?_, fun i j => ?_, fun i j => ?_⟩
  · rw [← hcap, ← hpos]
    exact (sets i).standsFor
  · rw [← funext hcap] at he
    exact SetCall.perform_of_fault he
  · rw [beq_iff_eq, BoundedSet.eq_iff, hcap, hcap, hpos, hpos]
  · rw [beq_iff_eq, BoundedSet.eq_iff_words, ← hcap, ← hcap]
  · rw [BoundedSet.meets_iff, hcap, hcap, hpos, hpos]

end ContentAutomata
