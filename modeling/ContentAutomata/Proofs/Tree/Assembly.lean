import ContentAutomata.Builder
import ContentAutomata.Proofs.Tree.Squeezing
import ContentAutomata.Tree.Assembly

/-!
# What is put together node by node is what a draft pays for in sums

Putting a tree together by hand pays for every node when it is made, and fails where a difference of
counts falls below zero. There is no such failure as long as the bounds of the multiplicity are in
order; the sums and the trees are those of the draft.

Results:
* `pay_bind_pay`: paying for some nodes and then for others is paying for all of them;
* `spell_eq`, `repeatedTerm_eq`, `joinMembers_eq`: what comes out, and how many nodes it takes;
* `Performs.bind`: what is put together node by node does what a draft does, one step after the
  other;
* `performs_spell`, `performs_newCounted`, `performs_newRepeated`, `performs_joinMembers`: the same
  for repetitions, terms and groups.
-/
namespace ContentAutomata

open ContentAutomata.Tree

/-! ## Sizes -/

namespace Tree

theorem le_copiesSize (size count : Nat) : size ≤ copiesSize size count := by
  unfold copiesSize
  split
  · exact Nat.le_refl _
  · have hle : 2 * (size + 1) ≤ count * (size + 1) := Nat.mul_le_mul_right _ (by omega)
    omega

theorem copiesSize_of_le {size count : Nat} (h : count ≤ 1) : copiesSize size count = size :=
  if_pos h

/-- Joining the copies of two halves takes one more node. -/
theorem copiesSize_halves (size : Nat) {count : Nat} (h : 1 < count) :
    copiesSize size count =
      copiesSize size (count / 2) + copiesSize size (count - count / 2) + 1 := by
  rw [← copiesSize_add size (by omega) (by omega)]
  congr 1
  omega

theorem copies_halves (t : Tree) {count : Nat} (h : 1 < count) :
    t.copies count =
      joined .sequence (t.copies (count / 2)) (t.copies (count - count / 2)) := by
  rw [copies, if_neg (by omega)]

/-- Repeating a tree does not make it smaller. -/
theorem le_repeatedSize (size : Nat) (m : Multiplicity) : size ≤ repeatedSize size m := by
  have hcopies := fun count => le_copiesSize size count
  have hcopies' := fun count => le_copiesSize (size + 1) count
  unfold repeatedSize
  split
  · exact Nat.le_refl _
  split
  · exact Nat.le_succ _
  split
  · split
    · exact Nat.le_succ _
    split <;> omega
  · rename_i max _
    have h := hcopies max.toNat
    have h' := hcopies' max.toNat
    have hmin := hcopies m.min.toNat
    split
    · omega
    split <;> omega

/-- Repeating a tree freely does not make it smaller. -/
theorem le_size_repeatedFreely (t : Tree) (m : Multiplicity) :
    t.size ≤ (t.repeatedFreely m).size := by
  unfold repeatedFreely
  split
  · exact Nat.le_refl _
  split
  · exact Nat.le_succ _
  split <;> exact Nat.le_succ _

end Tree

/-! ## Paying bit by bit -/

namespace Draft

variable {α β : Type}

theorem pay_bind_pay (a b : Nat) : (do pay a; pay b) = pay (a + b) := by
  funext s
  have h := s.ledger.spend_add a b
  change (pay a s >>= fun r => pay b r.2) = _
  unfold pay
  rw [← h]
  cases ha : s.ledger.spend a with
  | error e => rfl
  | ok l =>
    obtain ⟨-, rfl⟩ := Ledger.spend_eq_ok.1 ha
    rfl

theorem pay_of_unbounded {s : State} (hs : s.ledger.bound = none) (count : Nat) :
    pay count s =
      .ok ((), { s with ledger := { s.ledger with spent := s.ledger.spent + count } }) := by
  have hspend : s.ledger.spend count =
      .ok { s.ledger with spent := s.ledger.spent + count } :=
    Ledger.spend_eq_ok.2 ⟨fun bound h => by simp [hs] at h, rfl⟩
  unfold pay
  rw [hspend]

/-- A term that is spelled out is paid for in one sum. -/
theorem expandedTerm_eq (purpose : Purpose) (term : Term) (m : Multiplicity) :
    expandedTerm purpose term m = (do
      let particle ← newParticle
      let t := Particle.expandedTermTree purpose ⟨term, particle, 0⟩ m
      pay t.size
      return t) := by
  unfold expandedTerm Particle.expandedTermTree
  congr 1
  funext particle
  cases purpose with
  | validation =>
    have hle := le_repeatedSize 1 (spelledOut .validation m)
    have hpay := pay_bind_pay 1 (repeatedSize 1 (spelledOut .validation m) - 1)
    rw [Nat.add_sub_of_le hle] at hpay
    simp only [size_repeated, size]
    rw [← hpay, bind_assoc]
  | attribution =>
    have hle := le_size_repeatedFreely (leaf ⟨term, particle, 0⟩) (spelledOut .attribution m)
    have hpay := pay_bind_pay (leaf ⟨term, particle, 0⟩).size
      (((leaf ⟨term, particle, 0⟩).repeatedFreely (spelledOut .attribution m)).size -
        (leaf ⟨term, particle, 0⟩).size)
    rw [Nat.add_sub_of_le hle] at hpay
    simp only
    rw [← hpay, bind_assoc]
    rfl

/-- Pays for `count` nodes, if there are any, and hands over what they are for. -/
def buy (count : Nat) (a : α) : Draft α :=
  if count = 0 then return a
  else do
    pay count
    return a

theorem buy_bind_buy (a : Nat) (x : α) (b : α → Nat) (f : α → β) :
    (buy a x >>= fun y => buy (b y) (f y)) = buy (a + b x) (f x) := by
  unfold buy
  by_cases ha : a = 0
  · simp [ha]
  by_cases hb : b x = 0
  · simp [ha, hb]
  · have hab : ¬ a + b x = 0 := by omega
    simp only [ha, hb, hab, if_false, bind_assoc, pure_bind]
    rw [← pay_bind_pay, bind_assoc]

end Draft

namespace Assembly

variable {α β : Type}

/-- Pays for `count` nodes, if there are any, and hands over what they are for. -/
def afford (count : Nat) (a : α) : Assembly α := OptionT.lift (Draft.buy count a)

@[simp] theorem afford_bind_afford (a : Nat) (x : α) (b : α → Nat) (f : α → β) :
    (afford a x >>= fun y => afford (b y) (f y)) = afford (a + b x) (f x) := by
  unfold afford
  rw [← Draft.buy_bind_buy]
  apply OptionT.ext
  simp [OptionT.run_bind, OptionT.run_lift]

theorem afford_zero (a : α) : afford 0 a = pure a := rfl

@[simp] theorem afford_bind_pure (a : Nat) (x : α) (f : α → β) :
    (afford a x >>= fun y => pure (f y)) = afford a (f x) :=
  afford_bind_afford a x (fun _ => 0) f

/-! ## What is paid for -/

theorem make_eq (t : Tree) : make t = afford 1 t := by
  unfold make afford
  apply OptionT.ext
  simp [Draft.buy, OptionT.run_lift]

theorem subtract_of_le {a b : UInt32} (h : b ≤ a) : subtract a b = pure (a - b) := if_pos h

mutual
theorem copy_eq : ∀ t : Tree, copy t = afford t.size t
  | .epsilon => make_eq _
  | .leaf _ => make_eq _
  | .counted _ _ => make_eq _
  | .closure op t => by simp [copy, copy_eq t, make_eq, size]
  | .joined op l r => by simp [copy, copy_eq l, copy_eq r, make_eq, size, Nat.add_assoc]
  | .all ts m => by simp [copy, copyAll_eq ts, make_eq, size]
theorem copyAll_eq : ∀ ts : List Tree, copyAll ts = afford (sizes ts) ts
  | [] => rfl
  | t :: ts => by
    simp only [copyAll, copy_eq t, copyAll_eq ts, afford_bind_pure, afford_bind_afford, sizes]
end

theorem manyCopies_eq (t : Tree) (count : UInt32) :
    manyCopies t count = afford (copiesSize t.size count.toNat) (t.copies count.toNat) := by
  fun_induction manyCopies t count with
  | case1 count h =>
    have hle := UInt32.le_iff_toNat_le.1 h
    rw [copies_of_le hle, copiesSize_of_le hle, copy_eq]
  | case2 count h hle ihl ihr =>
    have hlt := lt_toNat h
    simp only [ihl, ihr, make_eq, afford_bind_afford, toNat_half, toNat_rest]
    rw [copies_halves t hlt, copiesSize_halves _ hlt, Nat.add_assoc]
  | case3 count h hle => exact absurd (half_le count) hle

theorem instances_eq (t : Tree) (count : UInt32) :
    instances t count =
      afford (copiesSize t.size count.toNat - t.size) (t.copies count.toNat) := by
  fun_induction instances t count with
  | case1 count h =>
    have hle := UInt32.le_iff_toNat_le.1 h
    rw [copies_of_le hle, copiesSize_of_le hle, Nat.sub_self, afford_zero]
  | case2 count h ih =>
    have hlt := lt_toNat h
    have hsize := le_copiesSize t.size (count.toNat / 2)
    simp only [subtract_of_le (half_le count), pure_bind, manyCopies_eq, ih, make_eq,
      afford_bind_afford, toNat_half, toNat_rest]
    rw [copies_halves t hlt, copiesSize_halves _ hlt]
    congr 1
    omega

/-- Spelling out an open multiplicity. -/
theorem spell_unbounded (t : Tree) (min : UInt32) :
    spell t ⟨min, none⟩ =
      afford (repeatedSize t.size ⟨min, none⟩ - t.size) (t.repeated ⟨min, none⟩) := by
  simp only [spell, repeated, repeatedSize, Multiplicity.once, Multiplicity.optional,
    Multiplicity.zeroOrMore, Multiplicity.oneOrMore, Multiplicity.mk.injEq, reduceCtorEq, and_false,
    and_true, if_false]
  split
  · rw [Nat.add_sub_cancel_left, make_eq]
  split
  · rw [Nat.add_sub_cancel_left, make_eq]
  · rename_i h0 h1
    have hmin : 1 ≤ min := by
      rw [UInt32.le_iff_toNat_le, UInt32.toNat_one]
      exact Nat.one_le_iff_ne_zero.2 fun e => h0 (UInt32.toNat_inj.1 e)
    have hsub : (min - 1).toNat = min.toNat - 1 := by
      rw [UInt32.toNat_sub_of_le _ _ hmin, UInt32.toNat_one]
    simp only [copy_eq, make_eq, instances_eq, subtract_of_le hmin, pure_bind, afford_bind_afford,
      hsub]
    have hsize := le_copiesSize t.size (min.toNat - 1)
    congr 1
    omega

/-- Spelling out a multiplicity with an upper bound. -/
theorem spell_bounded (t : Tree) {min max : UInt32} (hle : min ≤ max) :
    spell t ⟨min, some max⟩ =
      afford (repeatedSize t.size ⟨min, some max⟩ - t.size) (t.repeated ⟨min, some max⟩) := by
  have hstar : (⟨min, some max⟩ : Multiplicity) ≠ .zeroOrMore := by simp [Multiplicity.zeroOrMore]
  have hplus : (⟨min, some max⟩ : Multiplicity) ≠ .oneOrMore := by simp [Multiplicity.oneOrMore]
  simp only [spell, repeated, repeatedSize, hstar, hplus, if_false]
  split
  · rw [Nat.sub_self, afford_zero]
  split
  · rw [Nat.add_sub_cancel_left, make_eq]
  split
  · -- every copy is optional
    have hsize := le_copiesSize (t.size + 1) max.toNat
    simp only [make_eq, instances_eq, afford_bind_afford, size]
    congr 1
    omega
  split
  · rename_i hmin
    rw [instances_eq, hmin]
  · -- the copies that must be there come before those that may be
    have hsub := UInt32.toNat_sub_of_le _ _ hle
    have hsize := le_copiesSize t.size min.toNat
    have hsize' := le_copiesSize (t.size + 1) (max.toNat - min.toNat)
    simp only [copy_eq, make_eq, instances_eq, subtract_of_le hle, pure_bind, afford_bind_afford,
      size, hsub]
    congr 1
    omega

/-- Putting a repeated tree together node by node never fails for a difference below zero, and comes
to the tree and the sum that a draft is charged. -/
theorem spell_eq (t : Tree) {m : Multiplicity} (ho : m.isOrdered = true) :
    spell t m = afford (repeatedSize t.size m - t.size) (t.repeated m) := by
  obtain ⟨min, max⟩ := m
  cases max with
  | none => exact spell_unbounded t min
  | some max => exact spell_bounded t (by simpa [Multiplicity.isOrdered] using ho)

theorem spellFreely_eq (t : Tree) (m : Multiplicity) :
    spellFreely t m = afford ((t.repeatedFreely m).size - t.size) (t.repeatedFreely m) := by
  unfold spellFreely repeatedFreely
  split
  · rw [Nat.sub_self, afford_zero]
  split
  · rw [size, Nat.add_sub_cancel_left, make_eq]
  split
  · rw [size, Nat.add_sub_cancel_left, make_eq]
  · rw [size, Nat.add_sub_cancel_left, make_eq]

theorem countedTerm_eq (l : Leaf) (m : Multiplicity) :
    countedTerm l m = afford (Draft.countedTerm l m).size (Draft.countedTerm l m) := by
  unfold countedTerm Draft.countedTerm
  split
  · exact make_eq _
  split
  · simp [make_eq, size]
  split
  · simp [make_eq, size]
  split
  · simp [make_eq, size]
  · exact make_eq _

theorem isOrdered_spelledOut {m : Multiplicity} (ho : m.isOrdered = true) (purpose : Purpose) :
    (Draft.spelledOut purpose m).isOrdered = true := by
  cases purpose with
  | validation => exact ho
  | attribution => exact (Multiplicity.resembles_squeezed ho).isOrdered ho

theorem repeatedTerm_eq (purpose : Purpose) (l : Leaf) {m : Multiplicity}
    (ho : m.isOrdered = true) :
    repeatedTerm purpose l m = afford (Particle.expandedTermTree purpose l m).size
      (Particle.expandedTermTree purpose l m) := by
  have ho' := isOrdered_spelledOut ho purpose
  unfold repeatedTerm Particle.expandedTermTree
  cases purpose with
  | validation =>
    have hle := le_repeatedSize 1 (Draft.spelledOut .validation m)
    simp only [make_eq, spell_eq _ ho', afford_bind_afford, size_repeated, size]
    congr 1
    omega
  | attribution =>
    have hle := le_size_repeatedFreely (leaf l) (Draft.spelledOut .attribution m)
    simp only [make_eq, spellFreely_eq, afford_bind_afford]
    congr 1
    exact Nat.add_sub_of_le hle

theorem joinAll_eq (op : Connective) (t : Tree) (ts : List Tree) :
    joinAll op t ts = afford ts.length (ts.foldl (joined op) t) := by
  induction ts generalizing t with
  | nil => rfl
  | cons u us ih => simp [joinAll, make_eq, ih, Nat.add_comm]

theorem joinMembers_eq (c : Compositor) (someVanished : Bool) (built : List Tree) :
    joinMembers c someVanished built =
      afford (Draft.composedCost c someVanished built.length)
        (Draft.composed c someVanished built) := by
  cases built with
  | nil => rfl
  | cons t ts =>
    cases c <;> cases someVanished <;>
      simp [joinMembers, joinAll_eq, make_eq, Draft.composed, Draft.composedCost, ← bind_pure_comp]

end Assembly

/-! ## In one sum -/

/-- No more nodes were paid for than there may be. -/
def Draft.State.IsWithinBound (s : State) : Prop :=
  ∀ bound, s.ledger.bound = some bound → s.ledger.spent ≤ bound

/-- Paying for nodes, if there are any, is paying for them. -/
theorem Draft.buy_eq {α : Type} {s : State} (hs : s.IsWithinBound) (count : Nat) (a : α) :
    buy count a s = (do pay count; return a) s := by
  unfold buy
  split
  · rename_i h
    subst h
    have hspend : s.ledger.spend 0 = .ok s.ledger := Ledger.spend_eq_ok.2 ⟨hs, rfl⟩
    change _ = (pay 0 s >>= fun r => .ok (a, r.2))
    unfold pay
    rw [hspend]
    rfl
  · rfl

namespace Assembly

variable {α β : Type}

/-- Unless more nodes were paid for than there may be, putting things together as in `x` does what
the draft `y` does; no count falls below zero. -/
structure Performs (x : Assembly α) (y : Draft α) : Prop where
  run_eq : ∀ {s : Draft.State}, s.IsWithinBound → x.run s = (some <$> y) s
  within : ∀ {s s' : Draft.State} {a : α}, s.IsWithinBound → y s = .ok (a, s') → s'.IsWithinBound

variable {x : Assembly α} {y : Draft α} {f : α → Assembly β} {g : α → Draft β}

theorem performs_pure (a : α) : Performs (pure a) (pure a) where
  run_eq _ := rfl
  within hs h := by
    cases Draft.pure_eq_ok.1 h
    exact hs

/-- One step after the other; what comes next may depend on the first step having succeeded. -/
theorem Performs.bind (hx : Performs x y)
    (hf : ∀ {a : α} {s s' : Draft.State}, y s = .ok (a, s') → Performs (f a) (g a)) :
    Performs (x >>= f) (y >>= g) where
  run_eq {s} hs := by
    have ex : (x >>= f).run s = x.run s >>= fun r =>
        (match r.1 with
          | some a => (f a).run
          | none => pure none : Draft (Option β)) r.2 := rfl
    have ey : (some <$> (y >>= g)) s = y s >>= fun r => (some <$> g r.1) r.2 := by
      rw [map_eq_pure_bind, bind_assoc]
      simp only [map_eq_pure_bind]
      rfl
    have hrun : (some <$> y) s = y s >>= fun r => .ok (some r.1, r.2) := rfl
    rw [ex, ey, hx.run_eq hs, hrun]
    cases hy : y s with
    | error failure => rfl
    | ok r => exact (hf hy).run_eq (hx.within hs hy)
  within hs h := by
    obtain ⟨a, s₁, hy, hg⟩ := Draft.bind_eq_ok.1 h
    exact (hf hy).within (hx.within hs hy) hg

/-- A step of a draft that pays for nothing. -/
theorem performs_lift
    (hy : ∀ {s s' : Draft.State} {a : α}, y s = .ok (a, s') → s'.ledger = s.ledger) :
    Performs (liftM y) y where
  run_eq _ := rfl
  within hs h := by
    unfold Draft.State.IsWithinBound
    rw [hy h]
    exact hs

theorem Performs.map (hx : Performs x y) (h : α → β) : Performs (h <$> x) (h <$> y) := by
  rw [map_eq_pure_bind, map_eq_pure_bind]
  exact hx.bind fun _ => performs_pure _

theorem Performs.ite {c : Prop} [Decidable c] {x' : Assembly α} {y' : Draft α}
    (hx : c → Performs x y) (hy : ¬ c → Performs x' y') :
    Performs (if c then x else x') (if c then y else y') := by
  split
  · exact hx ‹_›
  · exact hy ‹_›

theorem performs_pay (count : Nat) : Performs (liftM (Draft.pay count)) (Draft.pay count) where
  run_eq _ := rfl
  within hs h := by
    unfold Draft.pay at h
    split at h
    · rename_i ledger hspend
      cases h
      obtain ⟨hle, rfl⟩ := Ledger.spend_eq_ok.1 hspend
      exact hle
    · cases h

theorem performs_afford (count : Nat) (a : α) :
    Performs (afford count a) (do Draft.pay count; return a) where
  run_eq {s} hs := by
    have hbuy := Draft.buy_eq hs count a
    change (Draft.buy count a s >>= fun r => .ok (some r.1, r.2)) = _
    rw [hbuy]
    rfl
  within := ((performs_pay count).bind fun _ => performs_pure a).within

/-- A node that is made is used in what follows. -/
theorem Performs.make_bind {t : Tree} {f : Tree → Assembly β} {g : Draft β}
    (h : Performs (f t) g) : Performs (make t >>= f) (do Draft.pay 1; g) := by
  unfold make
  rw [bind_assoc]
  simp only [pure_bind]
  exact (performs_pay 1).bind fun _ => h

theorem performs_refuse (e : Error) :
    Performs (liftM (Draft.refuse e : Draft α)) (Draft.refuse e) where
  run_eq _ := rfl
  within _ h := by cases h

theorem performs_require (check : Except Error Unit) :
    Performs (liftM (Draft.require check)) (Draft.require check) :=
  performs_lift fun h => by rw [(Draft.require_eq_ok.1 h).2]

theorem performs_newParticle : Performs (liftM Draft.newParticle) Draft.newParticle :=
  performs_lift fun h => by rw [(Draft.newParticle_eq_ok.1 h).2]

theorem performs_startNumbering : Performs (liftM Draft.startNumbering) Draft.startNumbering :=
  performs_lift fun h => by rw [Draft.startNumbering_eq_ok.1 h]

/-! ## Terms and groups -/

theorem performs_newCounted (term : Term) (m : Multiplicity) :
    Performs (newCounted term m) (Draft.compactTerm term m) := by
  refine performs_newParticle.bind fun {particle _ _} _ => ?_
  rw [countedTerm_eq]
  exact performs_afford _ _

theorem performs_newRepeated (purpose : Purpose) (term : Term) {m : Multiplicity}
    (ho : m.isOrdered = true) :
    Performs (newRepeated purpose term m) (Draft.expandedTerm purpose term m) := by
  rw [Draft.expandedTerm_eq]
  refine performs_newParticle.bind fun {particle _ _} _ => ?_
  rw [repeatedTerm_eq _ _ ho]
  exact performs_afford _ _

theorem performs_joinMembers (c : Compositor) (total : Nat) (built : List Tree) :
    Performs (joinMembers c (built.length < total) built) (Draft.compose c total built) := by
  rw [joinMembers_eq]
  exact performs_afford _ _

theorem performs_spell (purpose : Purpose) (t : Tree) {m : Multiplicity}
    (ho : m.isOrdered = true) :
    Performs (spell t (Draft.spelledOut purpose m)) (Draft.expandedGroup purpose t m) := by
  rw [spell_eq t (isOrdered_spelledOut ho purpose)]
  exact performs_afford _ _

end Assembly

end ContentAutomata
