import ContentAutomata.Multiplicity
import Mathlib.Computability.Language

/-!
# Operations on languages

`m.powers L` holds the words that are made of as many words of `L` as the multiplicity `m` admits.
A multiplicity can be spelled out: `{2,4}` is two copies of `L` followed by two copies of `1 + L`,
which is what the equations below say for every shape of multiplicity that a syntax tree has a form
for.

`beginnings L` holds what words of `L` begin with.

Letters can be replaced by others that they are related to (`related`), a particle by the names it
accepts for instance. All operations on languages used here agree with that.

Results:
* `powers_exact`, `powers_between`, `powers_atLeast`: the shapes that need copies;
* `mem_beginnings`: a beginning is what can be continued to a word;
* `related_mul`, `related_pow`, `related_powers`, `related_anyOrder`: replacing letters;
* `beginnings_related`: beginnings of words with replaced letters.
-/
namespace ContentAutomata

open scoped Computability

variable {α β : Type}

/-- The count lies within the bounds. -/
def Multiplicity.Admits (m : Multiplicity) (count : Nat) : Prop :=
  m.min.toNat ≤ count ∧ ∀ max, m.max = some max → count ≤ max.toNat

/-- The words made of as many words of `L` as the multiplicity admits. -/
def Multiplicity.powers (m : Multiplicity) (L : Language α) : Language α :=
  {w | ∃ count, m.Admits count ∧ w ∈ L ^ count}

/-- The lists that words of the language begin with. -/
def beginnings (L : Language α) : Language α := {u | ∃ w ∈ L, u <+: w}

/-- The words that are a rearrangement of a word of `L`. -/
def anyOrder (L : Language α) : Language α := {w | ∃ v ∈ L, w.Perm v}

/-- The words that are related, letter by letter, to a word of `L`. -/
def related (r : α → β → Prop) (L : Language α) : Language β := {v | ∃ w ∈ L, List.Forall₂ r w v}

/-! ## Beginnings -/

theorem mem_beginnings {L : Language α} {u : List α} : u ∈ beginnings L ↔ ∃ v, u ++ v ∈ L := by
  constructor
  · intro h
    obtain ⟨_, hw, v, rfl⟩ := h
    exact ⟨v, hw⟩
  · intro h
    obtain ⟨v, hv⟩ := h
    exact ⟨_, hv, List.prefix_append u v⟩

theorem mem_beginnings_of_append {L : Language α} {u v : List α} (h : u ++ v ∈ beginnings L) :
    u ∈ beginnings L := by
  obtain ⟨w, hw, hp⟩ := h
  exact ⟨w, hw, (List.prefix_append u v).trans hp⟩

theorem mem_beginnings_of_mem {L : Language α} {u : List α} (h : u ∈ L) : u ∈ beginnings L :=
  ⟨u, h, List.prefix_rfl⟩

/-! ## Powers within bounds -/

namespace Multiplicity

theorem mem_powers {m : Multiplicity} {L : Language α} {w : List α} :
    w ∈ m.powers L ↔ ∃ count, m.Admits count ∧ w ∈ L ^ count := Iff.rfl

theorem admits_min {m : Multiplicity} (h : m.isOrdered = true) : m.Admits m.min.toNat :=
  ⟨Nat.le_refl _, fun max hmax => UInt32.le_iff_toNat_le.1 (isOrdered_iff.1 h max hmax)⟩

theorem pos_of_max {m : Multiplicity} (hn : m.isNever = false) {max : UInt32}
    (h : m.max = some max) : 0 < max.toNat := by
  apply Nat.pos_of_ne_zero
  intro e
  unfold isNever at hn
  rw [h, UInt32.toNat_inj (b := 0) |>.1 e] at hn
  simp at hn

/-- A multiplicity that admits anything beyond nothing admits its lower bound, or once. -/
theorem admits_max_min_one {m : Multiplicity} (ho : m.isOrdered = true) (hn : m.isNever = false) :
    m.Admits (m.min.toNat ⊔ 1) :=
  ⟨Nat.le_max_left _ _, fun max hmax =>
    Nat.max_le.2 ⟨(admits_min ho).2 max hmax, pos_of_max hn hmax⟩⟩

theorem admits_bounded {a b : UInt32} {count : Nat} :
    (⟨a, some b⟩ : Multiplicity).Admits count ↔ a.toNat ≤ count ∧ count ≤ b.toNat := by
  simp [Admits]

theorem admits_unbounded {a : UInt32} {count : Nat} :
    (⟨a, none⟩ : Multiplicity).Admits count ↔ a.toNat ≤ count := by
  simp [Admits]

/-- A count leaves room for one more if it lies below the upper bound. -/
theorem isFull_eq_false_iff {m : Multiplicity} {count : UInt32} :
    m.isFull count = false ↔ ∀ max, m.max = some max → count.toNat < max.toNat := by
  cases h : m.max <;> simp [isFull, h, UInt32.lt_iff_toNat_lt]

theorem isMissing_eq_false_iff {m : Multiplicity} {count : UInt32} :
    m.isMissing count = false ↔ m.min.toNat ≤ count.toNat := by
  simp [isMissing, UInt32.le_iff_toNat_le]

theorem exists_mem_of_mem_powers {m : Multiplicity} {L : Language α} {w : List α}
    (h : w ∈ m.powers L) {a : α} (ha : a ∈ w) : ∃ v ∈ L, a ∈ v := by
  obtain ⟨count, -, hw⟩ := h
  obtain ⟨S, rfl, -, hS⟩ := Language.mem_pow.1 hw
  obtain ⟨v, hv, hav⟩ := List.mem_flatten.1 ha
  exact ⟨v, hS v hv, hav⟩

theorem powers_one {m : Multiplicity} (h : m.isOrdered = true) :
    m.powers (1 : Language α) = 1 := by
  ext w
  simp only [mem_powers, one_pow]
  exact ⟨fun ⟨_, _, hw⟩ => hw, fun hw => ⟨_, admits_min h, hw⟩⟩

theorem powers_once (L : Language α) : once.powers L = L := by
  ext w
  simp only [mem_powers, once, admits_bounded, UInt32.toNat_one]
  constructor
  · intro h
    obtain ⟨k, ⟨h1, h2⟩, hw⟩ := h
    have e : k = 1 := by omega
    rwa [e, pow_one] at hw
  · exact fun hw => ⟨1, by omega, by rwa [pow_one]⟩

theorem mem_one_add_pow {L : Language α} {n : Nat} {w : List α} :
    w ∈ (1 + L) ^ n ↔ ∃ k ≤ n, w ∈ L ^ k := by
  induction n generalizing w with
  | zero => simp
  | succ n ih =>
    rw [pow_succ, mul_add, mul_one, Language.mem_add, Language.mem_mul, ih]
    constructor
    · intro h
      rcases h with ⟨k, hk, hw⟩ | ⟨a, ha, b, hb, rfl⟩
      · exact ⟨k, by omega, hw⟩
      · obtain ⟨k, hk, ha⟩ := ih.1 ha
        exact ⟨k + 1, by omega, by rw [pow_succ]; exact Language.append_mem_mul ha hb⟩
    · intro h
      obtain ⟨k, hk, hw⟩ := h
      rcases Nat.lt_or_ge n k with hlt | hge
      · have e : k = n + 1 := by omega
        subst e
        rw [pow_succ, Language.mem_mul] at hw
        obtain ⟨a, ha, b, hb, rfl⟩ := hw
        exact .inr ⟨a, ih.2 ⟨n, Nat.le_refl n, ha⟩, b, hb, rfl⟩
      · exact .inl ⟨k, hge, hw⟩

theorem powers_exact (a : UInt32) (L : Language α) :
    (⟨a, some a⟩ : Multiplicity).powers L = L ^ a.toNat := by
  ext w
  simp only [mem_powers, admits_bounded]
  constructor
  · intro h
    obtain ⟨k, ⟨h1, h2⟩, hw⟩ := h
    rwa [Nat.le_antisymm h2 h1] at hw
  · exact fun hw => ⟨_, ⟨Nat.le_refl _, Nat.le_refl _⟩, hw⟩

theorem powers_between {a b : UInt32} (h : a ≤ b) (L : Language α) :
    (⟨a, some b⟩ : Multiplicity).powers L = L ^ a.toNat * (1 + L) ^ (b.toNat - a.toNat) := by
  ext w
  have hab := UInt32.le_iff_toNat_le.1 h
  simp only [mem_powers, admits_bounded, Language.mem_mul, mem_one_add_pow]
  constructor
  · intro hx
    obtain ⟨k, ⟨h1, h2⟩, hw⟩ := hx
    rw [← Nat.add_sub_cancel' h1, pow_add, Language.mem_mul] at hw
    obtain ⟨u, hu, v, hv, rfl⟩ := hw
    exact ⟨u, hu, v, ⟨_, by omega, hv⟩, rfl⟩
  · intro hx
    obtain ⟨u, hu, v, ⟨k, hk, hv⟩, rfl⟩ := hx
    refine ⟨a.toNat + k, by omega, ?_⟩
    rw [pow_add]
    exact Language.append_mem_mul hu hv

theorem powers_upTo (b : UInt32) (L : Language α) :
    (⟨0, some b⟩ : Multiplicity).powers L = (1 + L) ^ b.toNat := by
  rw [powers_between (by simp)]
  simp

theorem powers_optional (L : Language α) : optional.powers L = 1 + L := by
  unfold optional
  rw [powers_upTo]
  simp

theorem powers_zeroOrMore (L : Language α) : zeroOrMore.powers L = L∗ := by
  ext w
  simp [mem_powers, zeroOrMore, admits_unbounded, Language.kstar_eq_iSup_pow, Language.mem_iSup]

theorem powers_atLeast (a : UInt32) (L : Language α) :
    (⟨a, none⟩ : Multiplicity).powers L = L ^ a.toNat * L∗ := by
  ext w
  simp only [mem_powers, admits_unbounded, Language.kstar_eq_iSup_pow, Language.mul_iSup,
    Language.mem_iSup, ← pow_add]
  constructor
  · intro h
    obtain ⟨k, hk, hw⟩ := h
    exact ⟨k - a.toNat, by rwa [Nat.add_sub_cancel' hk]⟩
  · intro h
    obtain ⟨k, hw⟩ := h
    exact ⟨a.toNat + k, by omega, hw⟩

theorem powers_oneOrMore (L : Language α) : oneOrMore.powers L = L * L∗ := by
  unfold oneOrMore
  rw [powers_atLeast]
  simp

end Multiplicity

/-! ## Replacing letters -/

section Related

variable {r : α → β → Prop} {L M : Language α}

theorem mem_related {v : List β} : v ∈ related r L ↔ ∃ w ∈ L, List.Forall₂ r w v := Iff.rfl

theorem mem_related_singleton {a : α} {v : List β} :
    v ∈ related r ({[a]} : Language α) ↔ ∃ b, r a b ∧ v = [b] := by
  constructor
  · intro hx
    obtain ⟨w, rfl, h⟩ := hx
    obtain ⟨b, u, hab, hu, rfl⟩ := List.forall₂_cons_left_iff.1 h
    rw [List.forall₂_nil_left_iff] at hu
    exact ⟨b, hab, by rw [hu]⟩
  · intro hx
    obtain ⟨b, hab, rfl⟩ := hx
    exact ⟨[a], rfl, .cons hab .nil⟩

theorem related_label_singleton (label : α → β) (a : α) :
    related (fun x y => label x = y) ({[a]} : Language α) = {[label a]} := by
  ext v
  rw [mem_related_singleton]
  exact exists_eq_left'

/-- Where every letter is replaced by its label, so is every word. -/
theorem mem_related_label {label : α → β} {v : List β} :
    v ∈ related (fun x y => label x = y) L ↔ ∃ w ∈ L, w.map label = v := by
  rw [mem_related]
  refine exists_congr fun w => and_congr Iff.rfl ?_
  rw [← List.forall₂_map_left_iff (f := label), List.forall₂_eq_eq_eq]

theorem related_one : related r (1 : Language α) = 1 := by
  ext v
  simp [mem_related]

theorem related_zero : related r (0 : Language α) = 0 := by
  ext v
  simp [mem_related]

theorem related_add : related r (L + M) = related r L + related r M := by
  ext v
  simp only [mem_related, Language.mem_add, or_and_right, exists_or]

theorem related_mul : related r (L * M) = related r L * related r M := by
  ext v
  simp only [mem_related, Language.mem_mul]
  constructor
  · intro hx
    obtain ⟨_, ⟨a, ha, b, hb, rfl⟩, h⟩ := hx
    have h1 := List.forall₂_take a.length h
    have h2 := List.forall₂_drop a.length h
    rw [List.take_left] at h1
    rw [List.drop_left] at h2
    exact ⟨_, ⟨a, ha, h1⟩, _, ⟨b, hb, h2⟩, List.take_append_drop _ _⟩
  · intro hx
    obtain ⟨x, ⟨a, ha, h1⟩, y, ⟨b, hb, h2⟩, rfl⟩ := hx
    exact ⟨a ++ b, ⟨a, ha, b, hb, rfl⟩, List.rel_append h1 h2⟩

theorem related_pow (n : Nat) : related r (L ^ n) = related r L ^ n := by
  induction n with
  | zero => rw [pow_zero, pow_zero, related_one]
  | succ n ih => rw [pow_succ, pow_succ, related_mul, ih]

theorem related_powers (m : Multiplicity) : related r (m.powers L) = m.powers (related r L) := by
  ext v
  simp only [Multiplicity.mem_powers, ← related_pow]
  constructor
  · intro hx
    obtain ⟨w, ⟨k, hk, hw⟩, h⟩ := hx
    exact ⟨k, hk, w, hw, h⟩
  · intro hx
    obtain ⟨k, hk, w, hw, h⟩ := hx
    exact ⟨w, ⟨k, hk, hw⟩, h⟩

theorem exists_forall₂ {w : List α} (h : ∀ a ∈ w, ∃ b, r a b) : ∃ v, List.Forall₂ r w v := by
  induction w with
  | nil => exact ⟨[], .nil⟩
  | cons a w ih =>
    obtain ⟨b, hb⟩ := h a List.mem_cons_self
    obtain ⟨v, hv⟩ := ih fun a ha => h a (List.mem_cons_of_mem _ ha)
    exact ⟨b :: v, .cons hb hv⟩

/-- If each letter is related to some other, beginnings are replaced like whole words. -/
theorem beginnings_related (h : ∀ w ∈ L, ∀ a ∈ w, ∃ b, r a b) :
    beginnings (related r L) = related r (beginnings L) := by
  ext v
  constructor
  · intro hx
    obtain ⟨_, ⟨w, hw, hr⟩, x, rfl⟩ := hx
    have htake := List.forall₂_take v.length hr
    rw [List.take_left] at htake
    exact ⟨_, ⟨w, hw, List.take_prefix _ _⟩, htake⟩
  · intro hx
    obtain ⟨u, ⟨_, hw, x, rfl⟩, hr⟩ := hx
    obtain ⟨y, hy⟩ := exists_forall₂ fun a ha => h _ hw a (List.mem_append_right u ha)
    exact ⟨_, ⟨_, hw, List.rel_append hr hy⟩, List.prefix_append v y⟩

theorem related_kstar : related r L∗ = (related r L)∗ := by
  rw [← Multiplicity.powers_zeroOrMore, related_powers, Multiplicity.powers_zeroOrMore]

theorem related_anyOrder : related r (anyOrder L) = anyOrder (related r L) := by
  ext v
  constructor
  · intro hx
    obtain ⟨w, ⟨u, hu, hp⟩, h⟩ := hx
    obtain ⟨x, hux, hxv⟩ := List.perm_comp_forall₂ hp.symm h
    exact ⟨x, ⟨u, hu, hux⟩, hxv.symm⟩
  · intro hx
    obtain ⟨x, ⟨u, hu, hux⟩, hp⟩ := hx
    obtain ⟨w, hvw, hwu⟩ := List.perm_comp_forall₂ hp hux.flip
    exact ⟨w, ⟨u, hu, hwu⟩, hvw.flip⟩

end Related

end ContentAutomata
