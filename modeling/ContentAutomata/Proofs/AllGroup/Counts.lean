import ContentAutomata.Proofs.Run.Compiled
import ContentAutomata.Proofs.Term.Overlap
import Mathlib.Data.List.Pairwise

/-!
# What the counts of an `all` group are

An `all` group gives a child to the first member that accepts its name and has room. If no two
members accept a common name, there is no choice in that: a child is given to the only member that
accepts it, or refused. So after the children `done`, the count of a member is the number of them
that it accepts (`counted`), as far as a 32-bit word can tell.

What the members ask of the children together is said in terms of `Demand`s: which names are
accepted, and how many children of that kind there should be.

Results:
* `step_counted`: what one child does to these counts;
* `isComplete_counted`, `isComplete_counted_of_lt`: when the children so far are complete;
* `takeAll_cases`: what any number of children do to them;
* `verdict_counted`: when any number of children are valid;
* `settles_counted`: the verdict is the one that the demands call for.
-/
namespace ContentAutomata

/-! ## Demands -/

/-- What a member asks for: children whose names it accepts, as many as its range admits. -/
structure Demand where
  accepts : Name → Bool
  occurs : Multiplicity

/-- Every child is asked for, and each demand is met by as many children as its range admits. -/
structure Meets (ds : List Demand) (names : List Name) : Prop where
  accepted : ∀ name ∈ names, ∃ d ∈ ds, d.accepts name = true
  admitted : ∀ d ∈ ds, d.occurs.Admits (names.countP d.accepts)

/-- Every child is asked for, and no demand is exceeded. -/
structure Suits (ds : List Demand) (names : List Name) : Prop where
  accepted : ∀ name ∈ names, ∃ d ∈ ds, d.accepts name = true
  within : ∀ d ∈ ds, ∀ max, d.occurs.max = some max → names.countP d.accepts ≤ max.toNat

/-- The child at index `i` is not asked for, or is one more than the most that are. -/
def IsExcess (ds : List Demand) (names : List Name) (i : Nat) : Prop :=
  ∃ name, names[i]? = some name ∧
    ((∀ d ∈ ds, d.accepts name = false) ∨
      ∃ d ∈ ds, d.accepts name = true ∧
        ∃ max, d.occurs.max = some max ∧ (names.take (i + 1)).countP d.accepts = max.toNat + 1)

/-- The verdict that demands call for; `optional` children may also be left out altogether. -/
inductive Settles (ds : List Demand) (optional : Prop) (names : List Name) : Verdict → Prop
  | valid (meets : Meets ds names ∨ names = [] ∧ optional) : Settles ds optional names .valid
  | invalid {i : Nat} (excess : IsExcess ds names i) (least : ∀ j < i, ¬ IsExcess ds names j) :
    Settles ds optional names (.invalid i)
  | incomplete (fits : ∀ i, ¬ IsExcess ds names i)
    (fails : ¬ (Meets ds names ∨ names = [] ∧ optional)) :
    Settles ds optional names (.incomplete names.length)

section Demands

variable {ds : List Demand} {optional : Prop} {names : List Name} {v v' : Verdict} {i k : Nat}

/-- Whether a child is in excess does not depend on the children after it. -/
theorem isExcess_take (hi : i < k) : IsExcess ds (names.take k) i ↔ IsExcess ds names i := by
  unfold IsExcess
  rw [List.getElem?_take_of_lt hi, List.take_take, Nat.min_eq_left hi]

theorem suits_nil : Suits ds [] := ⟨by simp, by simp⟩

theorem meets_iff : Meets ds names ↔
    Suits ds names ∧ ∀ d ∈ ds, d.occurs.min.toNat ≤ names.countP d.accepts := by
  constructor
  · exact fun h => ⟨⟨h.accepted, fun d hd => (h.admitted d hd).2⟩, fun d hd => (h.admitted d hd).1⟩
  · exact fun h => ⟨h.1.accepted, fun d hd => ⟨h.2 d hd, h.1.within d hd⟩⟩

/-- Where no demand is exceeded, no child is in excess. -/
theorem Suits.not_isExcess (h : Suits ds names) (i : Nat) : ¬ IsExcess ds names i := by
  intro hx
  obtain ⟨name, hname, hno | ⟨d, hd, -, max, hmax, hcount⟩⟩ := hx
  · obtain ⟨d, hd, ha⟩ := h.accepted name (List.mem_of_getElem? hname)
    rw [hno d hd] at ha
    cases ha
  · have hle := h.within d hd max hmax
    have hsub := (List.take_sublist (i + 1) names).countP_le (p := d.accepts)
    omega

theorem suits_of_meets_or (h : Meets ds names ∨ names = [] ∧ optional) : Suits ds names := by
  rcases h with h | ⟨rfl, -⟩
  · exact (meets_iff.1 h).1
  · exact suits_nil

/-- Demands call for one verdict only. -/
theorem Settles.unique (h : Settles ds optional names v) (h' : Settles ds optional names v') :
    v = v' := by
  cases h with
  | valid hmeets =>
    cases h' with
    | valid => rfl
    | invalid hexcess => exact absurd hexcess ((suits_of_meets_or hmeets).not_isExcess _)
    | incomplete _ hfails => exact absurd hmeets hfails
  | invalid hexcess hleast =>
    cases h' with
    | valid hmeets => exact absurd hexcess ((suits_of_meets_or hmeets).not_isExcess _)
    | invalid hexcess' hleast' =>
      rw [Nat.le_antisymm (Nat.not_lt.1 fun hlt => hleast _ hlt hexcess')
        (Nat.not_lt.1 fun hlt => hleast' _ hlt hexcess)]
    | incomplete hfits => exact absurd hexcess (hfits _)
  | incomplete hfits hfails =>
    cases h' with
    | valid hmeets => exact absurd hmeets hfails
    | invalid hexcess => exact absurd hexcess (hfits _)
    | incomplete => rfl

theorem Settles.congr {optional' : Prop} (h : Settles ds optional names v)
    (he : Meets ds names ∨ names = [] ∧ optional ↔ Meets ds names ∨ names = [] ∧ optional') :
    Settles ds optional' names v := by
  cases h with
  | valid hmeets => exact .valid (he.1 hmeets)
  | invalid hexcess hleast => exact .invalid hexcess hleast
  | incomplete hfits hfails => exact .incomplete hfits (mt he.2 hfails)

/-- The verdict that is called for is given. -/
theorem Settles.eq_iff (h : Settles ds optional names v) : v = v' ↔ Settles ds optional names v' :=
  ⟨fun he => he ▸ h, h.unique⟩

/-- The order of the children does not matter for meeting the demands. -/
theorem Meets.perm {names' : List Name} (hp : names.Perm names') (h : Meets ds names) :
    Meets ds names' :=
  ⟨fun name hname => h.accepted name (hp.mem_iff.2 hname),
    fun d hd => hp.countP_eq d.accepts ▸ h.admitted d hd⟩

end Demands

/-! ## Counting -/

namespace AllGroup

/-- What a member asks for. -/
def Member.demand (m : Member) : Demand := ⟨m.term.accepts, m.occurs⟩

/-- The members accept no common name. -/
def Apart (m k : Member) : Prop :=
  ∀ name, ¬ (m.term.accepts name = true ∧ k.term.accepts name = true)

instance : Std.Symm Apart := ⟨fun _ _ h name hboth => h name hboth.symm⟩

/-- No two members accept a common name. -/
def IsDisjoint (ms : List Member) : Prop := ms.Pairwise Apart

theorem isDisjoint_of_ambiguities {g : AllGroup} (h : g.ambiguities = []) :
    IsDisjoint g.members := by
  unfold IsDisjoint
  rw [List.pairwise_iff_forall_sublist]
  intro m k hsub name hboth
  have hmem := mem_ambiguities.2 ⟨m, k, hsub, Term.overlaps_iff.2 ⟨name, hboth⟩, rfl⟩
  rw [h] at hmem
  cases hmem

theorem count_eq_none {name : Name} {ms : List Member}
    (h : ∀ m ∈ ms, m.term.accepts name = false) (cs : List UInt32) : count name ms cs = none := by
  induction ms generalizing cs with
  | nil => cases cs <;> rfl
  | cons m ms ih =>
    cases cs with
    | nil => rfl
    | cons c cs =>
      simp only [List.mem_cons, forall_eq_or_imp] at h
      simp [count, h.1, ih h.2]

/-- A child is given to the only member that accepts its name, if that has room. -/
theorem count_map {name : Name} {ms : List Member} (hd : IsDisjoint ms) (f : Member → UInt32)
    {m : Member} (hm : m ∈ ms) (ha : m.term.accepts name = true) :
    count name ms (ms.map f) =
      if m.occurs.isFull (f m) then none
      else some (m, ms.map fun k => if k.term.accepts name then f k + 1 else f k) := by
  induction ms with
  | nil => cases hm
  | cons k ms ih =>
    obtain ⟨hk, hrest⟩ := List.pairwise_cons.1 hd
    rw [List.map_cons, count]
    rcases List.mem_cons.1 hm with rfl | hm
    · have hothers : ∀ k ∈ ms, k.term.accepts name = false := fun k hmem =>
        Bool.eq_false_iff.2 fun hak => hk k hmem name ⟨ha, hak⟩
      have hsame : (ms.map fun k => if k.term.accepts name then f k + 1 else f k) = ms.map f :=
        List.map_congr_left fun k hmem => by rw [hothers k hmem]; rfl
      rw [List.map_cons, hsame, ha, count_eq_none hothers]
      cases m.occurs.isFull (f m) <;> simp
    · have hno : k.term.accepts name = false :=
        Bool.eq_false_iff.2 fun hak => hk m hm name ⟨hak, ha⟩
      rw [ih hrest hm, List.map_cons, hno]
      cases m.occurs.isFull (f m) <;> simp

/-- What the members of the group ask for. -/
def demands (g : AllGroup) : List Demand := g.members.map Member.demand

/-- Where a run stands if each member has counted the children that it accepts. -/
def counted (g : AllGroup) (done : List Name) : State :=
  ⟨g.members.map fun m => .ofNat (done.countP m.term.accepts), done.length, false⟩

theorem counted_nil (g : AllGroup) : g.counted [] = g.start := rfl

section Runs

variable {g : AllGroup} (hd : IsDisjoint g.members)

include hd

/-- What a child that some member accepts does to the counts. -/
theorem step_counted (done : List Name) {name : Name} {m : Member} (hm : m ∈ g.members)
    (ha : m.term.accepts name = true) :
    g.step (g.counted done) name =
      if m.occurs.isFull (.ofNat (done.countP m.term.accepts)) then
        (none, { g.counted done with failed := true })
      else (some m, g.counted (done ++ [name])) := by
  have hcounts : (g.members.map fun k =>
      if k.term.accepts name then UInt32.ofNat (done.countP k.term.accepts) + 1
      else .ofNat (done.countP k.term.accepts)) =
      g.members.map fun k => .ofNat ((done ++ [name]).countP k.term.accepts) := by
    refine List.map_congr_left fun k _ => ?_
    rw [List.countP_append, List.countP_singleton]
    split
    · rw [UInt32.ofNat_add]
      rfl
    · rfl
  have hcount := count_map hd (fun k => .ofNat (done.countP k.term.accepts)) hm ha
  rw [hcounts] at hcount
  simp only [step, counted, hcount, Bool.false_eq_true, if_false]
  cases m.occurs.isFull (.ofNat (done.countP m.term.accepts)) <;>
    simp only [Bool.false_eq_true, if_true, if_false, List.length_append, List.length_singleton]

omit hd in
/-- A child that no member accepts is refused. -/
theorem step_of_not_accepts (s : State) {name : Name}
    (h : ∀ m ∈ g.members, m.term.accepts name = false) : (g.step s name).1 = none := by
  unfold step
  split
  · rfl
  · rw [count_eq_none h]

/-- A name has one member at most. -/
theorem eq_of_accepts {name : Name} {m k : Member} (hm : m ∈ g.members) (hk : k ∈ g.members)
    (ham : m.term.accepts name = true) (hak : k.term.accepts name = true) : m = k := by
  by_contra hne
  exact List.Pairwise.forall hd hm hk hne name ⟨ham, hak⟩

/-- A name is asked for by one demand at most. -/
theorem eq_of_demands {name : Name} {d d' : Demand} (h : d ∈ g.demands) (h' : d' ∈ g.demands)
    (ha : d.accepts name = true) (ha' : d'.accepts name = true) : d = d' := by
  obtain ⟨m, hm, rfl⟩ := List.mem_map.1 h
  obtain ⟨k, hk, rfl⟩ := List.mem_map.1 h'
  rw [eq_of_accepts hd hm hk ha ha']

/-- What a child does after children that suit the members. -/
theorem step_cases {done : List Name} (hs : Suits g.demands done) (name : Name) :
    (∃ m, g.step (g.counted done) name = (some m, g.counted (done ++ [name])) ∧
        Suits g.demands (done ++ [name])) ∨
      ((g.step (g.counted done) name).1 = none ∧
        ∀ rest, IsExcess g.demands (done ++ name :: rest) done.length) := by
  by_cases hno : ∀ m ∈ g.members, m.term.accepts name = false
  · refine .inr ⟨step_of_not_accepts _ hno, fun rest => ⟨name, by simp, .inl ?_⟩⟩
    simpa [demands, Member.demand] using hno
  · simp only [not_forall, Bool.not_eq_false] at hno
    obtain ⟨m, hm, ha⟩ := hno
    have hdemand : m.demand ∈ g.demands := List.mem_map_of_mem hm
    -- a count that is compared with a bound is not above it, so it fits into a word
    have hroom : m.occurs.isFull (.ofNat (done.countP m.term.accepts)) = false ↔
        ∀ max, m.occurs.max = some max → done.countP m.term.accepts < max.toNat := by
      rw [Multiplicity.isFull_eq_false_iff]
      refine forall₂_congr fun max hmax => ?_
      have hle : done.countP m.term.accepts ≤ max.toNat := hs.within _ hdemand max hmax
      rw [UInt32.toNat_ofNat_of_lt' (Nat.lt_of_le_of_lt hle max.toNat_lt_size)]
    rw [step_counted hd done hm ha]
    cases hfull : m.occurs.isFull (.ofNat (done.countP m.term.accepts)) with
    | true =>
      -- the member has had its fill before, so this child is the first one too many
      refine .inr ⟨rfl, fun rest => ⟨name, by simp, .inr ⟨m.demand, hdemand, ha, ?_⟩⟩⟩
      have hnot : ¬ ∀ max, m.occurs.max = some max → done.countP m.term.accepts < max.toNat := by
        rw [← hroom, hfull]
        exact Bool.noConfusion
      simp only [not_forall, Nat.not_lt] at hnot
      obtain ⟨max, hmax, hle⟩ := hnot
      have hge := hs.within _ hdemand max hmax
      refine ⟨max, hmax, ?_⟩
      have hone : m.demand.accepts name = true := ha
      rw [List.append_cons, List.take_left' (by simp), List.countP_append, List.countP_singleton,
        if_pos hone, Nat.le_antisymm hge hle]
    | false =>
      refine .inl ⟨m, rfl, ?_, ?_⟩
      · intro name' hmem
        rcases List.mem_append.1 hmem with hmem | hmem
        · exact hs.accepted name' hmem
        · rw [List.mem_singleton.1 hmem]
          exact ⟨_, hdemand, ha⟩
      · intro d hmem max hmax
        obtain ⟨k, hk, rfl⟩ := List.mem_map.1 hmem
        have hle := hs.within _ hmem max hmax
        rw [List.countP_append, List.countP_singleton]
        split
        · rename_i hak
          obtain rfl := eq_of_accepts hd hm hk ha hak
          exact hroom.1 hfull max hmax
        · exact hle

omit hd in
/-- When the children so far are complete, as far as words can tell. -/
theorem isComplete_counted (done : List Name) :
    g.isComplete (g.counted done) = true ↔
      (∀ d ∈ g.demands, d.occurs.min.toNat ≤ done.countP d.accepts % UInt32.size) ∨
        g.isNullable = true ∧ ∀ d ∈ g.demands, done.countP d.accepts % UInt32.size = 0 := by
  have hmin : (∀ m ∈ g.members,
      m.occurs.isMissing (.ofNat (done.countP m.term.accepts)) = false) ↔
      ∀ d ∈ g.demands, d.occurs.min.toNat ≤ done.countP d.accepts % UInt32.size := by
    rw [demands, List.forall_mem_map]
    simp only [Multiplicity.isMissing_eq_false_iff, UInt32.toNat_ofNat']
    exact Iff.rfl
  have hzero : (∀ m ∈ g.members, UInt32.ofNat (done.countP m.term.accepts) = 0) ↔
      ∀ d ∈ g.demands, done.countP d.accepts % UInt32.size = 0 := by
    rw [demands, List.forall_mem_map]
    simp only [← UInt32.toNat_inj, UInt32.toNat_ofNat', UInt32.toNat_zero]
    exact Iff.rfl
  have hzip : g.members.zip (g.counted done).counts =
      g.members.map fun m => (m, .ofNat (done.countP m.term.accepts)) := by
    rw [counted, ← List.zip_map', List.map_id']
  have hfailed : (g.counted done).failed = false := rfl
  rw [← hmin, ← hzero, or_comm, isComplete, hfailed, hzip]
  simp [counted]

omit hd in
/-- When fewer children than a word can count are complete. -/
theorem isComplete_counted_of_lt {done : List Name} (hs : Suits g.demands done)
    (hlen : done.length < UInt32.size) :
    g.isComplete (g.counted done) = true ↔
      Meets g.demands done ∨ done = [] ∧ g.isNullable = true := by
  have hcount : ∀ d : Demand, done.countP d.accepts % UInt32.size = done.countP d.accepts :=
    fun d => Nat.mod_eq_of_lt (Nat.lt_of_le_of_lt List.countP_le_length hlen)
  have hzero : (∀ d ∈ g.demands, done.countP d.accepts = 0) ↔ done = [] := by
    constructor
    · intro h
      refine List.eq_nil_iff_forall_not_mem.2 fun name hmem => ?_
      obtain ⟨d, hd, ha⟩ := hs.accepted name hmem
      exact List.countP_eq_zero.1 (h d hd) name hmem ha
    · rintro rfl d -
      rfl
  rw [isComplete_counted]
  simp only [hcount]
  rw [hzero, meets_iff, and_iff_right hs, and_comm]

/-- What any further children do: all of them are taken, or one is refused that is in excess. -/
theorem takeAll_cases (names : List Name) : ∀ (done : List Name), Suits g.demands done →
    (∃ cs, (Run.all g (g.counted done)).takeAll names =
        some (cs, .all g (g.counted (done ++ names))) ∧ Suits g.demands (done ++ names)) ∨
      ∃ k, (∀ index, (Run.all g (g.counted done)).verdict index names = .invalid (index + k)) ∧
        Suits g.demands (done ++ names.take k) ∧
        IsExcess g.demands (done ++ names) (done.length + k) := by
  induction names with
  | nil =>
    intro done hs
    rw [List.append_nil]
    exact .inl ⟨[], rfl, hs⟩
  | cons name names ih =>
    intro done hs
    rcases step_cases hd hs name with ⟨m, hstep, hs'⟩ | ⟨hno, hexcess⟩
    · have hrun : (Run.all g (g.counted done)).step name =
          (some m.claimant, .all g (g.counted (done ++ [name]))) := by
        simp [Run.step, hstep]
      rw [List.append_cons]
      rcases ih _ hs' with ⟨cs, htake, hall⟩ | ⟨k, hverdict, hbefore, hafter⟩
      · exact .inl ⟨_, Run.takeAll_cons.2 ⟨_, _, cs, hrun, htake, rfl⟩, hall⟩
      · refine .inr ⟨k + 1, fun index => ?_, by rwa [List.take_succ_cons, List.append_cons], ?_⟩
        · rw [Run.verdict, hrun]
          simp only [hverdict]
          rw [Nat.add_assoc, Nat.add_comm 1]
        · rwa [List.length_append, List.length_singleton, Nat.add_assoc, Nat.add_comm 1] at hafter
    · exact .inr ⟨0, fun index => by simp [Run.verdict, Run.step, hno], by simpa using hs,
        hexcess names⟩

/-- The verdict on children when they are valid. However many they are, none is taken that is one
too many; but whether there are enough is told from words. -/
theorem verdict_counted (names : List Name) :
    (Model.all g).validate names = .valid ↔
      Suits g.demands names ∧ g.isComplete (g.counted names) = true := by
  rw [Model.validate, Model.start, ← counted_nil]
  rcases takeAll_cases hd names [] suits_nil with ⟨cs, htake, hs⟩ | ⟨k, hverdict, -, hexcess⟩
  · rw [List.nil_append] at htake hs
    rw [Run.verdict_of_takeAll htake, and_iff_right hs, Run.isComplete]
    split <;> simp_all
  · rw [hverdict]
    exact iff_of_false Verdict.noConfusion fun h => h.1.not_isExcess _ hexcess

/-- The verdict on fewer children than a word can count is the one that the demands call for. -/
theorem settles_counted {names : List Name} (hlen : names.length < UInt32.size) :
    Settles g.demands (g.isNullable = true) names ((Model.all g).validate names) := by
  rw [Model.validate, Model.start, ← counted_nil]
  rcases takeAll_cases hd names [] suits_nil with ⟨cs, htake, hs⟩ | ⟨k, hverdict, hbefore, hexcess⟩
  · rw [List.nil_append] at htake hs
    have hcomplete := isComplete_counted_of_lt hs hlen
    rw [Run.verdict_of_takeAll htake, Run.isComplete, Nat.zero_add]
    split
    · rename_i h
      exact .valid (hcomplete.1 h)
    · rename_i h
      exact .incomplete hs.not_isExcess (mt hcomplete.2 h)
  · rw [List.nil_append] at hbefore hexcess
    rw [List.length_nil, Nat.zero_add] at hexcess
    rw [hverdict, Nat.zero_add]
    refine .invalid hexcess fun j hj hx => hbefore.not_isExcess j ?_
    rwa [isExcess_take hj]

end Runs

end AllGroup

end ContentAutomata
