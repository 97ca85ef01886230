import ContentAutomata.Automaton.Tables
import ContentAutomata.Proofs.Automaton.States
import ContentAutomata.Proofs.Tree.Guarded

/-!
# No access fails while an automaton is made

An automaton may be made with every access checked. As a tree has its positions below the number of
its leaves, nothing fails. Followers have one entry for each position, every letter has a column in
a row that is half filled in, and the search ends because there are only so many sets of positions.

Results:
* `sortLeaves?_eq`: the entries and their positions;
* `moves?_eq`: one row, column by column;
* `explore?_eq`: all rows, after which the search has ended;
* `construct?_eq`: the automaton.
-/
namespace ContentAutomata

/-! ## Entries -/

/-- The set of the positions of a list. -/
def PositionSet.ofList {n : Nat} (ps : List Nat) : PositionSet n := ps.foldl insert ∅

theorem PositionSet.mem_ofList {n : Nat} {ps : List Nat} (h : ∀ p ∈ ps, p < n) {q : Nat} :
    q ∈ (ofList ps : PositionSet n) ↔ q ∈ ps := by
  rw [ofList, WordSet.mem_foldl_insert h]
  simp

theorem PositionSet.ofList_append {n : Nat} (ps : List Nat) (p : Nat) :
    (ofList (ps ++ [p]) : PositionSet n) = (ofList ps).insert p := List.foldl_append

namespace Automaton

variable {n : Nat}

/-- Entries and their positions, kept apart. -/
structure Sorted (letters : Letters n) (entries : Array Entry) (sorter : Array (List Nat)) :
    Prop where
  entries : entries = letters.map (·.1)
  sets : letters.map (·.2) = sorter.map .ofList
  lt : ∀ ps ∈ sorter, ∀ p ∈ ps, p < n

theorem map_modify {α β : Type} {f : α → α} (g : α → β) {f' : β → β}
    (h : ∀ x, g (f x) = f' (g x)) (xs : Array α) (i : Nat) :
    (xs.modify i f).map g = (xs.map g).modify i f' := by
  refine Array.ext_getElem? fun j => ?_
  simp only [Array.getElem?_map, Array.getElem?_modify]
  split
  · cases xs[j]? with
    | none => rfl
    | some x => exact congrArg some (h x)
  · rfl

theorem Sorted.sortLeaf? {letters : Letters n} {entries : Array Entry}
    {sorter : Array (List Nat)} (h : Sorted letters entries sorter) {leaf : Leaf}
    (hleaf : leaf.position < n) (occurs : Option Multiplicity) :
    ∃ entries' sorter', sortLeaf? (entries, sorter) (leaf, occurs) = some (entries', sorter') ∧
      Sorted (addLeaf letters leaf occurs) entries' sorter' := by
  have hsize : letters.size = sorter.size := by simpa using congrArg Array.size h.sets
  have hfind : entries.findIdx? (·.particle == leaf.particle) =
      letters.findIdx? (·.1.particle == leaf.particle) := by
    rw [h.entries, Array.findIdx?_map]
    rfl
  unfold Automaton.sortLeaf? addLeaf
  simp only [hfind]
  cases hi : letters.findIdx? (·.1.particle == leaf.particle) with
  | none =>
    refine ⟨_, _, rfl, ?_, ?_, ?_⟩
    · rw [h.entries, Array.map_push]
    · rw [Array.map_push, Array.map_push, h.sets]
      rfl
    · intro ps hps p hp
      rcases Array.mem_push.1 hps with hps | rfl
      · exact h.lt ps hps p hp
      · rw [List.mem_singleton.1 hp]
        exact hleaf
  | some e =>
    obtain ⟨he, -⟩ := Array.findIdx?_eq_some_iff_getElem.1 hi
    have hget : sorter[e]? = some sorter[e] := Array.getElem?_eq_getElem (hsize ▸ he)
    refine ⟨entries, sorter.modify e (· ++ [leaf.position]), ?_, ?_, ?_, ?_⟩
    · simp only [hget]
      rfl
    · let add (x : Entry × PositionSet n) := (x.1, x.2.insert leaf.position)
      have hsame : (letters.modify e add).map (·.1) = (letters.map (·.1)).modify e id :=
        map_modify Prod.fst (fun _ => rfl) letters e
      refine h.entries.trans (hsame.trans (Array.ext_getElem? fun i => ?_)).symm
      rw [Array.getElem?_modify, Option.map_id, id, ite_self]
    · let add (s : PositionSet n) := s.insert leaf.position
      have hletters : (letters.modify e fun x => (x.1, add x.2)).map (·.2) =
          (letters.map (·.2)).modify e add := map_modify Prod.snd (fun _ => rfl) letters e
      have hsorter : (sorter.modify e (· ++ [leaf.position])).map .ofList =
          (sorter.map .ofList).modify e add :=
        map_modify PositionSet.ofList (PositionSet.ofList_append · _) sorter e
      exact hletters.trans (h.sets ▸ hsorter.symm)
    · intro ps hps p hp
      obtain ⟨i, hi⟩ := Array.mem_iff_getElem?.1 hps
      rw [Array.getElem?_modify] at hi
      split at hi
      · obtain ⟨ps', hps', rfl⟩ := Option.map_eq_some_iff.1 hi
        rcases List.mem_append.1 hp with hp | hp
        · exact h.lt ps' (Array.mem_of_getElem? hps') p hp
        · rw [List.mem_singleton.1 hp]
          exact hleaf
      · exact h.lt ps (Array.mem_of_getElem? hi) p hp

theorem Sorted.foldlM {letters : Letters n} {entries : Array Entry} {sorter : Array (List Nat)}
    (h : Sorted letters entries sorter) (ls : List (Leaf × Option Multiplicity))
    (hls : ∀ x ∈ ls, x.1.position < n) :
    ∃ entries' sorter',
      ls.foldlM Automaton.sortLeaf? (entries, sorter) = some (entries', sorter') ∧
      Sorted (ls.foldl (fun letters (leaf, occurs) => addLeaf letters leaf occurs) letters)
        entries' sorter' := by
  induction ls generalizing letters entries sorter with
  | nil => exact ⟨entries, sorter, rfl, h⟩
  | cons x ls ih =>
    obtain ⟨hx, hls⟩ := List.forall_mem_cons.1 hls
    obtain ⟨entries', sorter', he, h'⟩ := h.sortLeaf? hx x.2
    rw [List.foldlM_cons, he]
    exact ih h' hls

/-- The entries of a tree and their positions. -/
theorem sortLeaves?_eq {t : Tree} (h : t.Fits n) :
    ∃ sorter, sortLeaves? t.leaves = some ((lettersOf n t).map (·.1), sorter) ∧
      (lettersOf n t).map (·.2) = sorter.map .ofList ∧ ∀ ps ∈ sorter, ∀ p ∈ ps, p < n := by
  have hnil : Sorted (#[] : Letters n) #[] #[] := ⟨by simp, by simp, nofun⟩
  obtain ⟨entries, sorter, he, hsorted⟩ :=
    hnil.foldlM t.leaves fun x hx => h x.1 (List.mem_map_of_mem hx)
  obtain rfl := hsorted.entries
  exact ⟨sorter, he, hsorted.sets, hsorted.lt⟩

/-! ## Rows -/

section Rows

variable {follow : Tree.FollowTable n}

theorem gather?_bounded (hs : follow.size = n) (s : PositionSet n) {ps : List Nat}
    (hps : ∀ p ∈ ps, p < n) (next : PositionSet n) (isMet : Bool) :
    gather? follow.bounded s.bounded ps next.bounded isMet =
      some (((ps.filter (· ∈ s)).foldl (fun next p => next ∪ follow.after p) next).bounded,
        isMet || ps.any (· ∈ s)) := by
  induction ps generalizing next isMet with
  | nil => simp [gather?]
  | cons p ps ih =>
    obtain ⟨hp, hps⟩ := List.forall_mem_cons.1 hps
    have hafter : follow.bounded[p]? = some (follow.after p).bounded := by
      simp [Tree.FollowTable.bounded, Tree.FollowTable.after, hs, hp]
    simp only [gather?, s.contains?_bounded hp, Option.bind_eq_bind, Option.bind_some]
    by_cases hmem : p ∈ s
    · simp only [hmem, decide_true, if_true, hafter, Option.bind_some,
        PositionSet.union?_bounded, ih hps]
      simp [hmem]
    · simp only [hmem, decide_false, Bool.false_eq_true, if_false, ih hps]
      simp [hmem]

/-- What is gathered for a letter is what its move leads to. -/
theorem gather?_eq (hs : follow.size = n) (s : PositionSet n) {ps : List Nat}
    (hps : ∀ p ∈ ps, p < n) :
    gather? follow.bounded s.bounded ps (.empty n) false =
      some (match move follow s (.ofList ps) with
        | some next => (next.bounded, true)
        | none => (.empty n, false)) := by
  rw [← PositionSet.bounded_empty, gather?_bounded hs s hps]
  cases hm : move follow s (.ofList ps) with
  | none =>
    have hnot : ∀ p ∈ ps, p ∉ s := by
      intro p hp hmem
      exact move_eq_none_iff.1 hm p hmem ((PositionSet.mem_ofList hps).2 hp)
    have hfilter : ps.filter (· ∈ s) = [] := by simpa using hnot
    have hany : ps.any (· ∈ s) = false := by simpa using hnot
    rw [hfilter, hany]
    rfl
  | some next =>
    obtain ⟨p, hp, hp'⟩ := exists_of_move hm
    have hany : ps.any (· ∈ s) = true :=
      List.any_eq_true.2 ⟨p, (PositionSet.mem_ofList hps).1 hp', decide_eq_true hp⟩
    have hnext : (ps.filter (· ∈ s)).foldl (fun next p => next ∪ follow.after p) ∅ = next := by
      refine PositionSet.ext fun q => ?_
      rw [mem_foldl_union, mem_of_move hm]
      simp [PositionSet.mem_ofList hps, and_assoc, and_left_comm]
    rw [hnext, hany]
    rfl

/-- The states found so far, as sets that carry their capacity. -/
def boundedStates (table : StateTable n) : Array BoundedSet := table.order.map PositionSet.bounded

theorem place_bounded (table : StateTable n) (s : PositionSet n) :
    place (boundedStates table) s.bounded =
      ((table.intern s).1, boundedStates (table.intern s).2) := by
  have hfound : ∀ i : Nat,
      (boundedStates table)[i]? = some s.bounded ↔ table.order[i]? = some s := by
    intro i
    simp only [boundedStates, Array.getElem?_map, Option.map_eq_some_iff, PositionSet.bounded_inj]
    exact exists_eq_right
  unfold place StateTable.intern
  split
  · rename_i i hi
    obtain ⟨hlt, heq, -⟩ := Array.findIdx?_eq_some_iff_getElem.1 hi
    have hi' : table.index[s.bits]? = some i := by
      rw [table.index_eq, ← hfound, Array.getElem?_eq_getElem hlt, eq_of_beq heq]
    split
    · rename_i j hj
      rw [hi'] at hj
      cases hj
      rfl
    · rename_i hj
      rw [hi'] at hj
      cases hj
  · rename_i hnone
    split
    · rename_i i hi
      rw [table.index_eq, ← hfound] at hi
      have hne := Array.findIdx?_eq_none_iff.1 hnone _ (Array.mem_of_getElem? hi)
      rw [beq_self_eq_true] at hne
      cases hne
    · rw [boundedStates, boundedStates, Array.map_push, Array.size_map]

theorem write?_eq (done rest : List (Option Nat)) (target : Nat) :
    write? (done ++ none :: rest).toArray done.length target =
      some (done ++ some target :: rest).toArray := by
  rw [write?, if_pos (by simp)]
  simp

theorem moves?_bounded (hs : follow.size = n) (s : PositionSet n) {sorter : List (List Nat)}
    (hlt : ∀ ps ∈ sorter, ∀ p ∈ ps, p < n) (table : StateTable n) (done : List (Option Nat)) :
    moves? n follow.bounded s.bounded sorter done.length
        (done ++ List.replicate sorter.length none).toArray (boundedStates table) =
      some ((done ++ (moves follow s (sorter.map .ofList) table).1).toArray,
        boundedStates (moves follow s (sorter.map .ofList) table).2) := by
  induction sorter generalizing table done with
  | nil => rfl
  | cons ps sorter ih =>
    obtain ⟨hps, hsorter⟩ := List.forall_mem_cons.1 hlt
    rw [moves?, gather?_eq hs s hps, List.map_cons, moves]
    cases move follow s (.ofList ps) with
    | none =>
      have hrest := ih hsorter table (done ++ [none])
      simp only [List.length_append, List.length_singleton, List.append_assoc,
        List.singleton_append] at hrest
      exact hrest
    | some next =>
      have hrest := ih hsorter (table.intern next).2 (done ++ [some (table.intern next).1])
      simp only [List.length_append, List.length_singleton, List.append_assoc,
        List.singleton_append] at hrest
      simp only [Option.bind_eq_bind, Option.bind_some, if_true, place_bounded,
        List.length_cons, List.replicate_succ, write?_eq, hrest]

/-- A whole row. -/
theorem moves?_eq (hs : follow.size = n) (s : PositionSet n) {sorter : Array (List Nat)}
    (hlt : ∀ ps ∈ sorter, ∀ p ∈ ps, p < n) (table : StateTable n) :
    moves? n follow.bounded s.bounded sorter.toList 0 (Array.replicate sorter.size none)
        (boundedStates table) =
      some ((moves follow s (sorter.toList.map .ofList) table).1.toArray,
        boundedStates (moves follow s (sorter.toList.map .ofList) table).2) := by
  have hrow := moves?_bounded hs s (fun ps hps => hlt ps (Array.mem_toList_iff.1 hps)) table []
  rwa [List.nil_append, List.toArray_replicate, Array.length_toList] at hrow

end Rows

/-! ## All rows -/

/-- If the search for states ends, it ends with every access checked, and with the same rows. -/
theorem explore?_eq {follow : Tree.FollowTable n} (hs : follow.size = n)
    {sorter : Array (List Nat)} (hlt : ∀ ps ∈ sorter, ∀ p ∈ ps, p < n)
    {letters : List (PositionSet n)} (hletters : letters = sorter.toList.map .ofList)
    {rounds fuel : Nat} (hfuel : rounds < fuel) (table : StateTable n)
    (rows : Array (Array (Option Nat)))
    (hend : (explore follow letters rounds table rows).2.size =
      (explore follow letters rounds table rows).1.order.size) :
    explore? n follow.bounded sorter sorter.size fuel (boundedStates table) rows =
      some (boundedStates (explore follow letters rounds table rows).1,
        (explore follow letters rounds table rows).2) := by
  subst hletters
  have hstates : ∀ (table : StateTable n) i,
      (boundedStates table)[i]? = table.order[i]?.map PositionSet.bounded :=
    fun table i => Array.getElem?_map
  induction rounds generalizing fuel table rows with
  | zero =>
    obtain ⟨fuel, rfl⟩ := Nat.exists_eq_succ_of_ne_zero (Nat.ne_zero_of_lt hfuel)
    have hnone : table.order[rows.size]? = none :=
      Array.getElem?_eq_none_iff.2 (Nat.le_of_eq hend.symm)
    rw [explore?, hstates, hnone]
    rfl
  | succ rounds ih =>
    obtain ⟨fuel, rfl⟩ := Nat.exists_eq_succ_of_ne_zero (Nat.ne_zero_of_lt hfuel)
    rw [explore?, hstates]
    unfold explore at hend ⊢
    cases hs' : table.order[rows.size]? with
    | none => rfl
    | some s =>
      simp only [hs'] at hend
      simp only [Option.map_some, moves?_eq hs s hlt, Option.bind_eq_bind, Option.bind_some]
      exact ih (Nat.lt_of_succ_lt_succ hfuel) _ _ hend

/-! ## Counting states -/

/-- What is counted in a state if it is the letter of one column. -/
def counterAt (entries : Array Entry) (state : Nat) (row : Array (Option Nat)) (e : Nat) :
    Option Counter :=
  match row[e]?.join, entries[e]?.bind (·.occurs) with
  | some target, some occurs => if target = state then some ⟨occurs, e⟩ else none
  | _, _ => none

theorem counterOf?_suffix {entries : Array Entry} {row : Array (Option Nat)}
    (h : row.size = entries.size) (state : Nat) (done : List (Option Nat))
    {rest : List (Option Nat)} (hrow : row.toList = done ++ rest) :
    counterOf? entries state rest done.length =
      some ((List.range' done.length rest.length).findSome? (counterAt entries state row)) := by
  induction rest generalizing done with
  | nil => rfl
  | cons target rest ih =>
    have hrest := ih (done ++ [target]) (by simpa using hrow)
    rw [List.length_append, List.length_singleton] at hrest
    have htarget : row[done.length]? = some target := by
      rw [← Array.getElem?_toList, hrow]
      simp
    have hlt : done.length < entries.size := h ▸ (Array.getElem?_eq_some_iff.1 htarget).1
    have hentry : entries[done.length]? = some entries[done.length] :=
      Array.getElem?_eq_getElem hlt
    rw [counterOf?, hentry, List.length_cons, List.range'_succ, List.findSome?_cons]
    simp only [counterAt, htarget, hentry, Option.bind_eq_bind, Option.bind_some, Option.join_some]
    cases target with
    | none => exact hrest
    | some target =>
      cases entries[done.length].occurs with
      | none => exact hrest
      | some occurs =>
        by_cases he : target = state
        · simp [he]
        · simp only [if_neg he, hrest]

/-- What is counted in a state. -/
theorem counterOf?_eq {entries : Array Entry} {row : Array (Option Nat)}
    (h : row.size = entries.size) (state : Nat) :
    counterOf? entries state row.toList 0 = some (counterOf entries state row) := by
  have hsuffix := counterOf?_suffix h state [] (List.nil_append row.toList).symm
  have hlength : row.toList.length = entries.size := by rw [Array.length_toList, h]
  rwa [hlength, List.length_nil, ← List.range_eq_range'] at hsuffix

/-! ## The tables of an automaton -/

/-- The tables of an automaton. -/
def tables (a : Automaton) : Tables where
  entries := a.entries
  states := a.states.map PositionSet.bounded
  rows := a.rows
  finals := a.states.map fun s => decide (a.leafCount ∈ s)
  counters := a.counters

section Construct

variable {t : Tree} {leafCount : Nat}

theorem size_followWithEnd : (followWithEnd t leafCount).size = leafCount + 1 :=
  Tree.FollowTable.size_addAll (Tree.size_follow Array.size_replicate)

theorem followWithEnd?_eq (h : t.Fits (leafCount + 1)) :
    followWithEnd? t leafCount = some (Tree.FollowTable.bounded (followWithEnd t leafCount)) := by
  let table : Tree.FollowTable (leafCount + 1) := Array.replicate (leafCount + 1) ∅
  have htable : Array.replicate (leafCount + 1) (BoundedSet.empty (leafCount + 1)) =
      table.bounded := Tree.FollowTable.bounded_replicate.symm
  have hsize : table.size = leafCount + 1 := Array.size_replicate
  have hend := (Nat.lt_succ_self leafCount)
  simp only [followWithEnd?, htable, Tree.follow?_eq h hsize, Tree.last?_eq h, Option.bind_eq_bind,
    Option.bind_some, PositionSet.members_bounded]
  refine Tree.FollowTable.foldlM_change?_bounded (fun s => ?_) fun p hp => ?_
  · rw [s.insert?_bounded hend, PositionSet.insert_eq_union _ hend]
  · rw [Tree.size_follow hsize]
    exact PositionSet.lt_of_mem (PositionSet.mem_members.1 hp)

theorem initial?_eq (h : t.Fits (leafCount + 1)) :
    initial? t leafCount = some (initial t leafCount).bounded := by
  rw [initial?, Tree.first?_eq h]
  unfold initial
  split
  · exact PositionSet.insert?_bounded _ (Nat.lt_succ_self _)
  · rfl

/-- Every row has a column for each entry. -/
theorem size_row {isApproximate : Bool} {i : Nat} {row : Array (Option Nat)}
    (h : (ofTree t leafCount isApproximate).rows[i]? = some row) :
    row.size = (ofTree t leafCount isApproximate).entries.size := by
  obtain ⟨table, -, -, hsize, hexp⟩ := explored_ofTree t leafCount isApproximate
  have hlt := hsize ▸ (Array.getElem?_eq_some_iff.1 h).1
  have hrow := (hexp.isRow h (Array.getElem?_eq_getElem hlt)).length_eq
  simpa [ofTree] using hrow.symm

theorem mapM_eq_some {α β : Type} {f : α → Option β} {g : α → β} {l : List α}
    (h : ∀ x ∈ l, f x = some (g x)) : l.mapM f = some (l.map g) := by
  induction l with
  | nil => rfl
  | cons x l ih =>
    obtain ⟨hx, hl⟩ := List.forall_mem_cons.1 h
    rw [List.mapM_cons, hx, ih hl]
    rfl

/-- Every state has a row. -/
theorem size_rows (t : Tree) (leafCount : Nat) (isApproximate : Bool) :
    (ofTree t leafCount isApproximate).rows.size =
      (ofTree t leafCount isApproximate).states.size := by
  obtain ⟨table, hstates, -, hsize, -⟩ := explored_ofTree t leafCount isApproximate
  have hstates' : (ofTree t leafCount isApproximate).states = table.order :=
    Array.ext_getElem? hstates
  exact hsize.trans (congrArg Array.size hstates'.symm)

theorem finals?_eq (states : Array (PositionSet (leafCount + 1))) :
    (states.map PositionSet.bounded).toList.mapM (·.contains? leafCount) =
      some (states.map fun s => decide (leafCount ∈ s)).toList := by
  rw [Array.toList_map, Array.toList_map, List.mapM_map]
  exact mapM_eq_some fun s _ => s.contains?_bounded (Nat.lt_succ_self leafCount)

theorem counters?_eq {entries : Array Entry} {rows : Array (Array (Option Nat))}
    (h : ∀ {i : Nat} {row : Array (Option Nat)}, rows[i]? = some row → row.size = entries.size) :
    (rows.toList.zipIdx.mapM fun (row, state) => counterOf? entries state row.toList 0) =
      some (rows.mapIdx (counterOf entries)).toList := by
  rw [Array.toList_mapIdx, List.mapIdx_eq_zipIdx_map]
  refine mapM_eq_some fun x hx => counterOf?_eq ?_ x.2
  exact h (i := x.2) (by simpa using List.mem_zipIdx_iff_getElem?.1 hx)

/-- What is final and what is counted. -/
theorem complete?_eq {a : Automaton}
    (hrows : ∀ {i : Nat} {row : Array (Option Nat)}, a.rows[i]? = some row →
      row.size = a.entries.size)
    (hcounters : a.counters = a.rows.mapIdx (counterOf a.entries)) :
    complete? a.leafCount a.entries (a.states.map PositionSet.bounded) a.rows =
      some a.tables := by
  rw [complete?, finals?_eq, counters?_eq hrows, ← hcounters]
  rfl

/-- The rows of an automaton. -/
theorem rows?_eq (isApproximate : Bool) {sorter : Array (List Nat)}
    (hlt : ∀ ps ∈ sorter, ∀ p ∈ ps, p < leafCount + 1)
    (hletters : (lettersOf (leafCount + 1) t).toList.map (·.2) = sorter.toList.map .ofList)
    {fuel : Nat} (hfuel : 1 <<< (leafCount + 1) < fuel) :
    explore? (leafCount + 1) (Tree.FollowTable.bounded (followWithEnd t leafCount)) sorter
        sorter.size fuel (boundedStates (StateTable.empty.intern (initial t leafCount)).2) #[] =
      some ((ofTree t leafCount isApproximate).states.map PositionSet.bounded,
        (ofTree t leafCount isApproximate).rows) :=
  explore?_eq size_followWithEnd hlt hletters hfuel _ _ (size_rows t leafCount isApproximate)

/-- All accesses succeed, and what is made is the automaton. -/
theorem construct?_eq (h : t.Fits leafCount) (isApproximate : Bool) {fuel : Nat}
    (hfuel : 1 <<< (leafCount + 1) < fuel) :
    construct? fuel t leafCount = some (ofTree t leafCount isApproximate).tables := by
  have hfits : t.Fits (leafCount + 1) := fun l hl => Nat.lt_succ_of_lt (h l hl)
  obtain ⟨sorter, hsort, hsets, hlt⟩ := sortLeaves?_eq hfits
  have hempty : boundedStates (.empty : StateTable (leafCount + 1)) = #[] := Array.map_empty
  have hplace := congrArg Prod.snd (place_bounded .empty (initial t leafCount))
  rw [hempty] at hplace
  have hletters : (lettersOf (leafCount + 1) t).toList.map (·.2) = sorter.toList.map .ofList := by
    rw [← Array.toList_map, hsets, Array.toList_map]
  have hcolumns : ((lettersOf (leafCount + 1) t).map (·.1)).size = sorter.size := by
    simpa using congrArg Array.size hsets
  simp only [construct?, followWithEnd?_eq hfits, hsort, initial?_eq hfits, hplace, hcolumns,
    rows?_eq isApproximate hlt hletters hfuel, Option.bind_eq_bind, Option.bind_some]
  exact complete?_eq (a := ofTree t leafCount isApproximate) size_row rfl

end Construct

end Automaton

end ContentAutomata
