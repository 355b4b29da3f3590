import Mathlib.SetTheory.Cardinal.Arithmetic

/-!
# Cardinality arithmetic in cvc5

`operator+=`, `operator*=`, `operator^=` and `compare` of
`util/cardinality.cpp`, for operands that are different objects, with what the
values stand for: cardinals, up to what they leave open.
-/

namespace EthosCpc.Cvc5.Cardinalities

open Cardinal

/-- `Cardinality`: zero if unknown, the successor of a finite number, or the negated successor of
a Beth number. -/
structure Cardinality where
  card : Int
  deriving DecidableEq

inductive CardinalityComparison
  | less | equal | greater | unknown
  deriving DecidableEq

namespace Cardinality

/-- `s_unknownCard`. -/
def unknown : Cardinality := ⟨0⟩

/-- `s_largeFiniteCard`. -/
def large : Cardinality := ⟨18446744073709551617⟩

/-- `Cardinality(long)`. -/
def ofNat (n : Nat) : Cardinality := ⟨n + 1⟩

/-- `CardinalityBeth`. -/
def ofBeth (k : Nat) : Cardinality := ⟨-k - 1⟩

variable (a c : Cardinality)

def isUnknown : Bool := a.card == 0

def isFinite : Bool := a.card > 0

def isLargeFinite : Bool := a.card ≥ large.card

def isInfinite : Bool := a.card < 0

def compare : CardinalityComparison :=
  if a.isUnknown || c.isUnknown then .unknown
  else if a.isLargeFinite then
    if c.isLargeFinite then .unknown else if c.isFinite then .greater else .less
  else if c.isLargeFinite then
    if a.isLargeFinite then .unknown else if a.isFinite then .less else .greater
  else if a.isInfinite then
    if c.isFinite then .greater
    else if a.card < c.card then .greater else if a.card = c.card then .equal else .less
  else if c.isInfinite then .less
  else if a.card < c.card then .less else if a.card = c.card then .equal else .greater

/-- `operator+=`. -/
def add : Cardinality :=
  if a.isUnknown then a
  else if c.isUnknown then unknown
  else if c.isFinite && a.isLargeFinite then a
  else if a.isFinite && c.isLargeFinite then large
  else if a.isFinite && c.isFinite then ⟨a.card + (c.card - 1)⟩
  else if a.compare c = .less then c else a

/-- `operator*=`. -/
def mul : Cardinality :=
  if a.isUnknown then a
  else if c.isUnknown then unknown
  else if c.isFinite && a.isLargeFinite then a
  else if a.isFinite && c.isLargeFinite then large
  else if a.compare (ofNat 0) = .equal ∨ c.compare (ofNat 0) = .equal then ofNat 0
  else if !a.isFinite || !c.isFinite then if a.compare c = .less then c else a
  else ⟨(a.card - 1) * (c.card - 1) + 1⟩

/-- `operator^=`, with its assertion. -/
def pow : Option Cardinality :=
  if a.isUnknown then some a
  else if c.isUnknown then some unknown
  else if c.isFinite && a.isLargeFinite then some a
  else if a.isFinite && c.isLargeFinite then some large
  else if c.compare (ofNat 0) = .equal then some (ofNat 1)
  else if a.compare (ofNat 0) = .equal then some a
  else if a.compare (ofNat 1) = .equal then some a
  else if c.compare (ofNat 1) = .equal then some a
  else if a.isFinite && c.isFinite then
    if a.card - 1 ≥ 2 ∧ c.card - 1 ≥ 64 then some large
    else some ⟨(a.card - 1) ^ (c.card.toNat - 1) + 1⟩
  else if !a.isFinite && c.isFinite then some a
  else if a.compare (ofNat 2) ≠ .less ∧ c.isFinite = false then
    if a.compare c = .greater then some a else some ⟨c.card - 1⟩
  else none

end Cardinality

/-! ## What the values stand for -/

/-- `beth_k`. -/
noncomputable def bethNat (k : Nat) : Cardinal.{0} := Cardinal.beth (k : Ordinal.{0})

/-- The numbers that a value does not represent exactly. -/
def IsLarge (n : Nat) : Prop := 2 ^ 64 ≤ n
  deriving Decidable

lemma isLarge_two_pow : IsLarge (2 ^ 64) := Nat.le_refl _

lemma not_isLarge_iff {n : Nat} : ¬ IsLarge n ↔ n < 2 ^ 64 := Nat.not_le

/-- The cardinals that a value represents. -/
inductive Represents : Cardinality → Cardinal.{0} → Prop
  | unknown (κ : Cardinal.{0}) : Represents .unknown κ
  | exact {n : Nat} (h : ¬ IsLarge n) : Represents (.ofNat n) n
  | large {m n : Nat} (hm : IsLarge m) (h : IsLarge n) : Represents (.ofNat m) n
  | beth (k : Nat) : Represents (.ofBeth k) (bethNat k)

/-- The kinds of values. -/
inductive Form : Cardinality → Prop
  | unknown : Form .unknown
  | finite (n : Nat) : Form (.ofNat n)
  | beth (k : Nat) : Form (.ofBeth k)

lemma form (a : Cardinality) : Form a := by
  obtain ⟨z⟩ := a
  rcases lt_trichotomy z 0 with hneg | rfl | hpos
  · obtain ⟨k, hk⟩ := Int.eq_ofNat_of_zero_le (show 0 ≤ -z - 1 by omega)
    rw [show (⟨z⟩ : Cardinality) = .ofBeth k from congrArg Cardinality.mk (by omega)]
    exact .beth k
  · exact .unknown
  obtain ⟨n, hn⟩ := Int.eq_ofNat_of_zero_le (show 0 ≤ z - 1 by omega)
  rw [show (⟨z⟩ : Cardinality) = .ofNat n from congrArg Cardinality.mk (by omega)]
  exact .finite n

lemma represents_ofNat {n : Nat} {κ : Cardinal.{0}} :
    Represents (.ofNat n) κ ↔ ∃ m : Nat, κ = m ∧ (m = n ∨ IsLarge m ∧ IsLarge n) := by
  constructor
  · intro h
    generalize ha : Cardinality.ofNat n = a at h
    cases h with
    | unknown => exact absurd (congrArg Cardinality.card ha) (show (n : Int) + 1 ≠ 0 by omega)
    | @exact m hm =>
      have : (n : Int) + 1 = m + 1 := congrArg Cardinality.card ha
      exact ⟨m, rfl, .inl (by omega)⟩
    | @large m m' hm hm' =>
      have : (n : Int) + 1 = m + 1 := congrArg Cardinality.card ha
      exact ⟨m', rfl, .inr ⟨hm', (show m = n by omega) ▸ hm⟩⟩
    | beth k =>
      have : (n : Int) + 1 = -k - 1 := congrArg Cardinality.card ha
      omega
  · rintro ⟨m, rfl, rfl | ⟨hm, hn⟩⟩
    · by_cases h : IsLarge m
      · exact .large h h
      · exact .exact h
    · exact .large hn hm

lemma represents_beth {k : Nat} {κ : Cardinal.{0}} : Represents (.ofBeth k) κ ↔ κ = bethNat k := by
  constructor
  · intro h
    generalize ha : Cardinality.ofBeth k = a at h
    cases h with
    | unknown => exact absurd (congrArg Cardinality.card ha) (show -(k : Int) - 1 ≠ 0 by omega)
    | @exact m =>
      have : -(k : Int) - 1 = m + 1 := congrArg Cardinality.card ha
      omega
    | @large m =>
      have : -(k : Int) - 1 = m + 1 := congrArg Cardinality.card ha
      omega
    | beth j =>
      have : -(k : Int) - 1 = -j - 1 := congrArg Cardinality.card ha
      rw [show j = k by omega]
  · rintro rfl
    exact .beth k

/-! ## Beth numbers -/

lemma aleph0_le_bethNat (k : Nat) : ℵ₀ ≤ bethNat k := by
  rw [← Cardinal.beth_zero]
  exact Cardinal.beth_mono zero_le

lemma natCast_lt_bethNat (n k : Nat) : (n : Cardinal.{0}) < bethNat k :=
  Cardinal.natCast_lt_aleph0.trans_le (aleph0_le_bethNat k)

variable {j k : Nat}

lemma bethNat_lt : bethNat j < bethNat k ↔ j < k := by
  unfold bethNat
  rw [Cardinal.beth_lt_beth, Nat.cast_lt]

lemma bethNat_le : bethNat j ≤ bethNat k ↔ j ≤ k := by
  unfold bethNat
  rw [Cardinal.beth_le_beth, Nat.cast_le]

lemma bethNat_succ (k : Nat) : bethNat (k + 1) = 2 ^ bethNat k := by
  unfold bethNat
  rw [← Cardinal.beth_succ]
  congr 1

lemma natCast_add_bethNat (n k : Nat) : (n : Cardinal.{0}) + bethNat k = bethNat k :=
  Cardinal.nat_add_eq n (aleph0_le_bethNat k)

lemma bethNat_add (j k : Nat) : bethNat j + bethNat k = bethNat (max j k) := by
  rw [Cardinal.add_eq_max (aleph0_le_bethNat j)]
  exact (monotone_nat_of_le_succ fun n => bethNat_le.2 n.le_succ).map_max.symm

lemma bethNat_mul (j k : Nat) : bethNat j * bethNat k = bethNat (max j k) := by
  rw [Cardinal.mul_eq_max (aleph0_le_bethNat j) (aleph0_le_bethNat k)]
  exact (monotone_nat_of_le_succ fun n => bethNat_le.2 n.le_succ).map_max.symm

lemma natCast_mul_bethNat {n : Nat} (hn : n ≠ 0) (k : Nat) :
    (n : Cardinal.{0}) * bethNat k = bethNat k := by
  rw [Cardinal.mul_eq_max_of_aleph0_le_right (Nat.cast_ne_zero.2 hn) (aleph0_le_bethNat k)]
  exact max_eq_right (natCast_lt_bethNat n k).le

lemma natCast_pow_bethNat {n : Nat} (hn : 2 ≤ n) (k : Nat) :
    (n : Cardinal.{0}) ^ bethNat k = bethNat (k + 1) := by
  rw [Cardinal.nat_power_eq (aleph0_le_bethNat k) hn, bethNat_succ]

lemma bethNat_pow_of_lt (h : k < j) : bethNat j ^ bethNat k = bethNat j := by
  obtain ⟨i, rfl⟩ : ∃ i, j = i + 1 := ⟨j - 1, by omega⟩
  rw [bethNat_succ, ← Cardinal.power_mul, bethNat_mul, max_eq_left (by omega)]

lemma bethNat_pow_of_le (h : j ≤ k) : bethNat j ^ bethNat k = bethNat (k + 1) := by
  have htwo : (2 : Cardinal.{0}) ≤ bethNat j := (natCast_lt_bethNat 2 j).le
  rw [Cardinal.power_eq_two_power (aleph0_le_bethNat k) htwo (bethNat_le.2 h), bethNat_succ]

/-! ## The tests on the kinds of values -/

namespace Cardinality

@[simp] lemma isUnknown_unknown : unknown.isUnknown = true := rfl

@[simp] lemma isUnknown_ofNat (n : Nat) : (ofNat n).isUnknown = false :=
  beq_eq_false_iff_ne.2 (show (n : Int) + 1 ≠ 0 by omega)

@[simp] lemma isUnknown_ofBeth (k : Nat) : (ofBeth k).isUnknown = false :=
  beq_eq_false_iff_ne.2 (show -(k : Int) - 1 ≠ 0 by omega)

@[simp] lemma isFinite_ofNat (n : Nat) : (ofNat n).isFinite = true :=
  decide_eq_true (show (n : Int) + 1 > 0 by omega)

@[simp] lemma isFinite_ofBeth (k : Nat) : (ofBeth k).isFinite = false :=
  decide_eq_false (show ¬ -(k : Int) - 1 > 0 by omega)

@[simp] lemma isInfinite_ofNat (n : Nat) : (ofNat n).isInfinite = false :=
  decide_eq_false (show ¬ (n : Int) + 1 < 0 by omega)

@[simp] lemma isInfinite_ofBeth (k : Nat) : (ofBeth k).isInfinite = true :=
  decide_eq_true (show -(k : Int) - 1 < 0 by omega)

@[simp] lemma isLargeFinite_ofNat (n : Nat) : (ofNat n).isLargeFinite = decide (IsLarge n) :=
  decide_eq_decide.2 (show (n : Int) + 1 ≥ 18446744073709551617 ↔ 2 ^ 64 ≤ n by omega)

@[simp] lemma isLargeFinite_ofBeth (k : Nat) : (ofBeth k).isLargeFinite = false :=
  decide_eq_false (show ¬ -(k : Int) - 1 ≥ 18446744073709551617 by omega)

lemma large_eq : large = ofNat (2 ^ 64) := rfl

/-! ## Comparison -/

lemma compare_unknown_left (c : Cardinality) : compare unknown c = .unknown := rfl

lemma compare_unknown_right (a : Cardinality) : a.compare unknown = .unknown := by
  simp [compare]

lemma compare_ofNat {m n : Nat} (hm : ¬ IsLarge m) (hn : ¬ IsLarge n) :
    (ofNat m).compare (ofNat n) =
      if m < n then .less else if m = n then .equal else .greater := by
  have hlt : (ofNat m).card < (ofNat n).card ↔ m < n := by
    show (m : Int) + 1 < n + 1 ↔ m < n
    omega
  have heq : (ofNat m).card = (ofNat n).card ↔ m = n := by
    show (m : Int) + 1 = n + 1 ↔ m = n
    omega
  simp [compare, hlt, heq, hm, hn]

lemma compare_large {m n : Nat} (hm : IsLarge m) (hn : ¬ IsLarge n) :
    (ofNat m).compare (ofNat n) = .greater ∧ (ofNat n).compare (ofNat m) = .less := by
  simp [compare, hm, hn]

lemma compare_large_large {m n : Nat} (hm : IsLarge m) (hn : IsLarge n) :
    (ofNat m).compare (ofNat n) = .unknown := by
  simp [compare, hm, hn]

lemma compare_ofNat_ofBeth (n k : Nat) : (ofNat n).compare (ofBeth k) = .less := by
  by_cases h : IsLarge n <;> simp [compare, h]

lemma compare_ofBeth_ofNat (k n : Nat) : (ofBeth k).compare (ofNat n) = .greater := by
  by_cases h : IsLarge n <;> simp [compare, h]

lemma compare_ofBeth (j k : Nat) : (ofBeth j).compare (ofBeth k) =
    if k < j then .greater else if j = k then .equal else .less := by
  have hlt : (ofBeth j).card < (ofBeth k).card ↔ k < j := by
    show -(j : Int) - 1 < -k - 1 ↔ k < j
    omega
  have heq : (ofBeth j).card = (ofBeth k).card ↔ j = k := by
    show -(j : Int) - 1 = -k - 1 ↔ j = k
    omega
  simp [compare, hlt, heq]

lemma compare_eq_equal {n i : Nat} (hi : ¬ IsLarge i) :
    (ofNat n).compare (ofNat i) = .equal ↔ n = i := by
  by_cases hn : IsLarge n
  · rw [(compare_large hn hi).1]
    exact iff_of_false (by decide) fun heq => hi (heq ▸ hn)
  rw [compare_ofNat hn hi]
  split
  · exact iff_of_false (by decide) (by omega)
  split
  · exact iff_of_true rfl ‹_›
  · exact iff_of_false (by decide) ‹_›

@[simp] lemma compare_zero (n : Nat) : (ofNat n).compare (ofNat 0) = .equal ↔ n = 0 :=
  compare_eq_equal (by decide)

@[simp] lemma compare_one (n : Nat) : (ofNat n).compare (ofNat 1) = .equal ↔ n = 1 :=
  compare_eq_equal (by decide)

end Cardinality

/-! ## What the operations return -/

open Cardinality

variable {m n : Nat}

lemma add_ofNat (hm : ¬ IsLarge m) (hn : ¬ IsLarge n) :
    add (ofNat m) (ofNat n) = ofNat (m + n) := by
  have hsum : (⟨(ofNat m).card + ((ofNat n).card - 1)⟩ : Cardinality) = ofNat (m + n) :=
    congrArg Cardinality.mk (by show (m : Int) + 1 + (n + 1 - 1) = ((m + n : Nat) : Int) + 1; omega)
  simp [add, hm, hn, hsum]

lemma add_large (h : IsLarge m ∨ IsLarge n) :
    ∃ l, IsLarge l ∧ add (ofNat m) (ofNat n) = ofNat l := by
  by_cases hm : IsLarge m
  · exact ⟨m, hm, by simp [add, hm]⟩
  · exact ⟨2 ^ 64, isLarge_two_pow, by simp [add, hm, h.resolve_left hm, large_eq]⟩

lemma add_finite (m n : Nat) : ∃ l, add (ofNat m) (ofNat n) = ofNat l ∧
    (l = m + n ∨ IsLarge l ∧ (IsLarge m ∨ IsLarge n)) := by
  by_cases h : IsLarge m ∨ IsLarge n
  · obtain ⟨l, hl, heq⟩ := add_large h
    exact ⟨l, heq, .inr ⟨hl, h⟩⟩
  · exact ⟨_, add_ofNat (fun hm => h (.inl hm)) (fun hn => h (.inr hn)), .inl rfl⟩

lemma add_ofNat_ofBeth (n k : Nat) : add (ofNat n) (ofBeth k) = ofBeth k := by
  simp [add, compare_ofNat_ofBeth]

lemma add_ofBeth_ofNat (k n : Nat) : add (ofBeth k) (ofNat n) = ofBeth k := by
  simp [add, compare_ofBeth_ofNat]

lemma add_ofBeth (j k : Nat) : add (ofBeth j) (ofBeth k) = ofBeth (max j k) := by
  have h : add (ofBeth j) (ofBeth k) =
      if (ofBeth j).compare (ofBeth k) = .less then ofBeth k else ofBeth j := by
    simp [add]
  rw [h, compare_ofBeth]
  rcases lt_trichotomy j k with hlt | rfl | hgt
  · simp [hlt.not_gt, hlt.ne, max_eq_right hlt.le]
  · simp
  · simp [hgt, max_eq_left hgt.le]

lemma mul_ofNat (hm : ¬ IsLarge m) (hn : ¬ IsLarge n) :
    mul (ofNat m) (ofNat n) = ofNat (m * n) := by
  have hprod : (⟨((ofNat m).card - 1) * ((ofNat n).card - 1) + 1⟩ : Cardinality) = ofNat (m * n) :=
    congrArg Cardinality.mk (by
      show ((m : Int) + 1 - 1) * (n + 1 - 1) + 1 = ((m * n : Nat) : Int) + 1
      rw [add_sub_cancel_right, add_sub_cancel_right, Int.natCast_mul])
  by_cases hzero : m = 0 ∨ n = 0
  · have : m * n = 0 := Nat.mul_eq_zero.2 hzero
    simp [mul, hm, hn, hzero, this]
  · simp [mul, hm, hn, hzero, hprod]

lemma mul_large (h : IsLarge m ∨ IsLarge n) :
    ∃ l, IsLarge l ∧ mul (ofNat m) (ofNat n) = ofNat l := by
  by_cases hm : IsLarge m
  · exact ⟨m, hm, by simp [mul, hm]⟩
  · exact ⟨2 ^ 64, isLarge_two_pow, by simp [mul, hm, h.resolve_left hm, large_eq]⟩

lemma mul_finite (m n : Nat) : ∃ l, mul (ofNat m) (ofNat n) = ofNat l ∧
    (¬ IsLarge m ∧ ¬ IsLarge n ∧ l = m * n ∨ IsLarge l ∧ (IsLarge m ∨ IsLarge n)) := by
  by_cases h : IsLarge m ∨ IsLarge n
  · obtain ⟨l, hl, heq⟩ := mul_large h
    exact ⟨l, heq, .inr ⟨hl, h⟩⟩
  · rw [not_or] at h
    exact ⟨_, mul_ofNat h.1 h.2, .inl ⟨h.1, h.2, rfl⟩⟩

lemma mul_ofNat_ofBeth (n k : Nat) :
    mul (ofNat n) (ofBeth k) = if n = 0 then ofNat 0 else ofBeth k := by
  by_cases h : n = 0 <;>
    simp [mul, compare_ofBeth_ofNat, compare_ofNat_ofBeth, h]

lemma mul_ofBeth_ofNat (k n : Nat) :
    mul (ofBeth k) (ofNat n) = if n = 0 then ofNat 0 else ofBeth k := by
  by_cases h : n = 0 <;>
    simp [mul, compare_ofBeth_ofNat, h]

lemma mul_ofBeth (j k : Nat) : mul (ofBeth j) (ofBeth k) = ofBeth (max j k) := by
  have h : mul (ofBeth j) (ofBeth k) =
      if (ofBeth j).compare (ofBeth k) = .less then ofBeth k else ofBeth j := by
    simp [mul, compare_ofBeth_ofNat]
  rw [h, compare_ofBeth]
  rcases lt_trichotomy j k with hlt | rfl | hgt
  · simp [hlt.not_gt, hlt.ne, max_eq_right hlt.le]
  · simp
  · simp [hgt, max_eq_left hgt.le]

lemma pow_ofNat (hm : ¬ IsLarge m) (hn : ¬ IsLarge n) :
    pow (ofNat m) (ofNat n) = some (ofNat (m ^ n)) ∨
      IsLarge (m ^ n) ∧ pow (ofNat m) (ofNat n) = some (ofNat (2 ^ 64)) := by
  rcases Nat.eq_zero_or_pos n with rfl | hnpos
  · exact .inl (by simp [pow, hm, hn])
  rcases Nat.eq_zero_or_pos m with rfl | hmpos
  · exact .inl (by simp [pow, hn, hnpos.ne'])
  by_cases hone : m = 1
  · subst hone
    exact .inl (by simp [pow, hn, hnpos.ne'])
  by_cases hexp : n = 1
  · subst hexp
    exact .inl (by simp [pow, hm, hn, hmpos.ne', hone])
  have hrun : pow (ofNat m) (ofNat n) =
      if (ofNat m).card - 1 ≥ 2 ∧ (ofNat n).card - 1 ≥ 64 then some large
      else some ⟨((ofNat m).card - 1) ^ ((ofNat n).card.toNat - 1) + 1⟩ := by
    simp [pow, hm, hn, hmpos.ne', hnpos.ne', hone, hexp]
  rw [hrun]
  have hbase : (ofNat m).card - 1 = m := by
    show (m : Int) + 1 - 1 = m
    omega
  have hlen : (ofNat n).card - 1 = n := by
    show (n : Int) + 1 - 1 = n
    omega
  have hnat : (ofNat n).card.toNat - 1 = n := by omega
  rw [hbase, hlen, hnat]
  split
  swap
  · refine .inl (congrArg some (congrArg Cardinality.mk ?_))
    push_cast
    rfl
  rename_i hbig
  refine .inr ⟨?_, rfl⟩
  unfold IsLarge
  calc 2 ^ 64 ≤ 2 ^ n := Nat.pow_le_pow_right (by omega) (by omega)
    _ ≤ m ^ n := Nat.pow_le_pow_left (by omega) n

lemma pow_large (h : IsLarge m ∨ IsLarge n) :
    ∃ l, IsLarge l ∧ pow (ofNat m) (ofNat n) = some (ofNat l) := by
  by_cases hm : IsLarge m
  · exact ⟨m, hm, by simp [pow, hm]⟩
  · exact ⟨2 ^ 64, isLarge_two_pow, by simp [pow, hm, h.resolve_left hm, large_eq]⟩

lemma pow_finite (m n : Nat) : ∃ l, pow (ofNat m) (ofNat n) = some (ofNat l) ∧
    (¬ IsLarge m ∧ ¬ IsLarge n ∧ (l = m ^ n ∨ IsLarge l ∧ IsLarge (m ^ n)) ∨
      IsLarge l ∧ (IsLarge m ∨ IsLarge n)) := by
  by_cases h : IsLarge m ∨ IsLarge n
  · obtain ⟨l, hl, heq⟩ := pow_large h
    exact ⟨l, heq, .inr ⟨hl, h⟩⟩
  rw [not_or] at h
  rcases pow_ofNat h.1 h.2 with heq | ⟨hbig, heq⟩
  · exact ⟨_, heq, .inl ⟨h.1, h.2, .inl rfl⟩⟩
  · exact ⟨_, heq, .inl ⟨h.1, h.2, .inr ⟨isLarge_two_pow, hbig⟩⟩⟩

lemma pow_ofNat_ofBeth (n k : Nat) :
    pow (ofNat n) (ofBeth k) = some (if n ≤ 1 then ofNat n else ofBeth (k + 1)) := by
  have hsucc : (⟨(ofBeth k).card - 1⟩ : Cardinality) = ofBeth (k + 1) :=
    congrArg Cardinality.mk (by
      show -(k : Int) - 1 - 1 = -((k + 1 : Nat) : Int) - 1
      omega)
  rcases Nat.lt_or_ge n 2 with hlt | hge
  · have : n = 0 ∨ n = 1 := by omega
    rcases this with rfl | rfl <;>
      simp [pow, compare_ofBeth_ofNat]
  have htwo : (ofNat n).compare (ofNat 2) ≠ .less := by
    rcases em' (IsLarge n) with hn | hn
    · rw [compare_ofNat hn (by decide), if_neg (by omega)]
      split <;> decide
    · rw [(compare_large hn (by decide)).1]
      decide
  have hzero : n ≠ 0 := by omega
  have hone : n ≠ 1 := by omega
  simp [pow, compare_ofBeth_ofNat, compare_ofNat_ofBeth, hzero, hone,
    htwo, hsucc, show ¬ n ≤ 1 by omega]

lemma pow_ofBeth_ofNat (k n : Nat) :
    pow (ofBeth k) (ofNat n) = some (if n = 0 then ofNat 1 else ofBeth k) := by
  by_cases h : n = 0
  · simp [pow, h]
  · by_cases hone : n = 1 <;>
      simp [pow, compare_ofBeth_ofNat, h, hone]

lemma pow_ofBeth (j k : Nat) :
    pow (ofBeth j) (ofBeth k) = some (if k < j then ofBeth j else ofBeth (k + 1)) := by
  have hsucc : (⟨(ofBeth k).card - 1⟩ : Cardinality) = ofBeth (k + 1) :=
    congrArg Cardinality.mk (by
      show -(k : Int) - 1 - 1 = -((k + 1 : Nat) : Int) - 1
      omega)
  have hrun : pow (ofBeth j) (ofBeth k) =
      if (ofBeth j).compare (ofBeth k) = .greater then some (ofBeth j)
      else some (ofBeth (k + 1)) := by
    simp [pow, compare_ofBeth_ofNat, hsucc]
  rw [hrun, compare_ofBeth]
  rcases lt_trichotomy j k with hlt | rfl | hgt
  · simp [hlt.not_gt, hlt.ne]
  · simp
  · simp [hgt]

lemma add_unknown {a c : Cardinality} (h : a = unknown ∨ c = unknown) : add a c = unknown := by
  rcases h with rfl | rfl
  · rfl
  · rcases form a with _ | _ | _ | _ <;> simp [add]

lemma mul_unknown {a c : Cardinality} (h : a = unknown ∨ c = unknown) : mul a c = unknown := by
  rcases h with rfl | rfl
  · rfl
  · rcases form a with _ | _ | _ | _ <;> simp [mul]

lemma pow_unknown {a c : Cardinality} (h : a = unknown ∨ c = unknown) : pow a c = some unknown := by
  rcases h with rfl | rfl
  · rfl
  · rcases form a with _ | _ | _ | _ <;> simp [pow]

/-! ## Correctness -/

/-- The sum represents the sums of what is represented. -/
def AddRight (a c : Cardinality) : Prop :=
  ∀ κ μ, Represents a κ → Represents c μ → Represents (add a c) (κ + μ)

def MulRight (a c : Cardinality) : Prop :=
  ∀ κ μ, Represents a κ → Represents c μ → Represents (mul a c) (κ * μ)

/-- The power is computed without a failed assertion, and represents the powers. -/
def PowRight (a c : Cardinality) : Prop :=
  ∃ r, pow a c = some r ∧ ∀ κ μ, Represents a κ → Represents c μ → Represents r (κ ^ μ)

def CompareRight (a c : Cardinality) : Prop :=
  ∀ κ μ, Represents a κ → Represents c μ →
    (compare a c = .less → κ < μ) ∧ (compare a c = .equal → κ = μ) ∧
      (compare a c = .greater → μ < κ)

lemma IsLarge.mono (h : IsLarge m) (hle : m ≤ n) : IsLarge n := Nat.le_trans h hle

lemma isLarge_of_stands {m m' : Nat} (h : m' = m ∨ IsLarge m' ∧ IsLarge m) (hm : IsLarge m) :
    IsLarge m' := by
  rcases h with rfl | ⟨h, -⟩
  · exact hm
  · exact h

lemma addRight (a c : Cardinality) : AddRight a c := by
  intro κ μ ha hc
  rcases form a with _ | m | j
  · rw [add_unknown (.inl rfl)]
    exact .unknown _
  · obtain ⟨m', rfl, hm⟩ := represents_ofNat.1 ha
    rcases form c with _ | n | k
    · rw [add_unknown (.inr rfl)]
      exact .unknown _
    · obtain ⟨n', rfl, hn⟩ := represents_ofNat.1 hc
      obtain ⟨l, heq, hl⟩ := add_finite m n
      rw [heq, ← Nat.cast_add]
      refine represents_ofNat.2 ⟨_, rfl, ?_⟩
      rcases hl with rfl | ⟨hl, hlarge⟩
      · rcases hm with rfl | ⟨hm', hm⟩
        · rcases hn with rfl | ⟨hn', hn⟩
          · exact .inl rfl
          · exact .inr ⟨hn'.mono (Nat.le_add_left _ _), hn.mono (Nat.le_add_left _ _)⟩
        · exact .inr ⟨hm'.mono (Nat.le_add_right _ _), hm.mono (Nat.le_add_right _ _)⟩
      refine .inr ⟨?_, hl⟩
      rcases hlarge with h | h
      · exact (isLarge_of_stands hm h).mono (Nat.le_add_right _ _)
      · exact (isLarge_of_stands hn h).mono (Nat.le_add_left _ _)
    · rw [represents_beth.1 hc, add_ofNat_ofBeth, natCast_add_bethNat]
      exact .beth k
  · rw [represents_beth.1 ha]
    rcases form c with _ | n | k
    · rw [add_unknown (.inr rfl)]
      exact .unknown _
    · obtain ⟨n', rfl, -⟩ := represents_ofNat.1 hc
      rw [add_ofBeth_ofNat, add_comm, natCast_add_bethNat]
      exact .beth j
    · rw [represents_beth.1 hc, add_ofBeth, bethNat_add]
      exact .beth _

lemma compareRight (a c : Cardinality) : CompareRight a c := by
  intro κ μ ha hc
  rcases form a with _ | m | j
  · rw [compare_unknown_left]
    simp
  · obtain ⟨m', rfl, hm⟩ := represents_ofNat.1 ha
    rcases form c with _ | n | k
    · rw [compare_unknown_right]
      simp
    · obtain ⟨n', rfl, hn⟩ := represents_ofNat.1 hc
      have hnum : ∀ {x y : Nat}, IsLarge x → ¬ IsLarge y → (y : Cardinal.{0}) < x :=
        fun hx hy => Nat.cast_lt.2 (Nat.lt_of_lt_of_le (not_isLarge_iff.1 hy) hx)
      by_cases hlm : IsLarge m
      · by_cases hln : IsLarge n
        · rw [compare_large_large hlm hln]
          simp
        · obtain rfl := hn.resolve_right fun h => hln h.2
          rw [(compare_large hlm hln).1]
          simpa using hnum (isLarge_of_stands hm hlm) hln
      obtain rfl := hm.resolve_right fun h => hlm h.2
      by_cases hln : IsLarge n
      · rw [(compare_large hln hlm).2]
        simpa using hnum (isLarge_of_stands hn hln) hlm
      obtain rfl := hn.resolve_right fun h => hln h.2
      rw [compare_ofNat hlm hln]
      rcases lt_trichotomy m' n' with h | rfl | h
      · simp [h]
      · simp
      · simp [h, h.not_gt, h.ne']
    · rw [represents_beth.1 hc, compare_ofNat_ofBeth]
      simpa using natCast_lt_bethNat m' k
  · rw [represents_beth.1 ha]
    rcases form c with _ | n | k
    · rw [compare_unknown_right]
      simp
    · obtain ⟨n', rfl, -⟩ := represents_ofNat.1 hc
      rw [compare_ofBeth_ofNat]
      simpa using natCast_lt_bethNat n' j
    rw [represents_beth.1 hc, compare_ofBeth]
    rcases lt_trichotomy j k with h | rfl | h
    · simpa [h.not_gt, h.ne] using bethNat_lt.2 h
    · simp
    · simpa [h] using bethNat_lt.2 h

@[simp] lemma isLargeFinite_unknown : unknown.isLargeFinite = false := rfl

@[simp] lemma ofNat_inj : ofNat m = ofNat n ↔ m = n := by
  refine ⟨fun h => ?_, congrArg ofNat⟩
  have : (m : Int) + 1 = n + 1 := congrArg Cardinality.card h
  omega

@[simp] lemma unknown_ne_ofNat (n : Nat) : unknown ≠ ofNat n := fun h =>
  absurd (congrArg Cardinality.card h) (show (0 : Int) ≠ n + 1 by omega)

@[simp] lemma ofBeth_ne_ofNat (k n : Nat) : ofBeth k ≠ ofNat n := fun h =>
  absurd (congrArg Cardinality.card h) (show -(k : Int) - 1 ≠ n + 1 by omega)

lemma isLargeFinite_eq_true {n : Nat} : (ofNat n).isLargeFinite = true ↔ IsLarge n := by
  rw [isLargeFinite_ofNat, decide_eq_true_eq]

lemma not_isLarge_zero : ¬ IsLarge 0 := by decide

lemma not_isLarge_one : ¬ IsLarge 1 := by decide

lemma not_represents {l n : Nat} (hl : IsLarge l) (hn : ¬ IsLarge n) :
    ¬ Represents (ofNat l) n := by
  intro h
  obtain ⟨m, heq, rfl | ⟨hm, -⟩⟩ := represents_ofNat.1 h
  · exact hn (Nat.cast_inj.1 heq ▸ hl)
  · exact hn (Nat.cast_inj.1 heq ▸ hm)

/-- One operand is zero and the other large. -/
def ZeroTimesLarge (a c : Cardinality) : Prop :=
  a = ofNat 0 ∧ c.isLargeFinite = true ∨ a.isLargeFinite = true ∧ c = ofNat 0

lemma mulRight_finite (h : ¬ (m = 0 ∧ IsLarge n ∨ IsLarge m ∧ n = 0)) :
    MulRight (ofNat m) (ofNat n) := by
  intro κ μ ha hc
  obtain ⟨m', rfl, hm⟩ := represents_ofNat.1 ha
  obtain ⟨n', rfl, hn⟩ := represents_ofNat.1 hc
  obtain ⟨l, heq, hl⟩ := mul_finite m n
  rw [heq, ← Nat.cast_mul]
  refine represents_ofNat.2 ⟨_, rfl, ?_⟩
  rcases hl with ⟨hlm, hln, rfl⟩ | ⟨hl, hlarge⟩
  · rw [hm.resolve_right fun h => hlm h.2, hn.resolve_right fun h => hln h.2]
    exact .inl rfl
  refine .inr ⟨?_, hl⟩
  have hpos : ∀ {x x' : Nat}, (x' = x ∨ IsLarge x' ∧ IsLarge x) → x ≠ 0 → 0 < x' := by
    rintro x x' (rfl | ⟨hx, -⟩) hne
    · exact Nat.pos_of_ne_zero hne
    · exact Nat.pos_of_ne_zero fun h0 => not_isLarge_zero (h0 ▸ hx)
  rcases hlarge with hlm | hln
  · exact (isLarge_of_stands hm hlm).mono
      (Nat.le_mul_of_pos_right _ (hpos hn fun h0 => h (.inr ⟨hlm, h0⟩)))
  · exact (isLarge_of_stands hn hln).mono
      (Nat.le_mul_of_pos_left _ (hpos hm fun h0 => h (.inl ⟨h0, hln⟩)))

lemma not_mulRight (h : m = 0 ∧ IsLarge n ∨ IsLarge m ∧ n = 0) :
    ¬ MulRight (ofNat m) (ofNat n) := by
  intro hmul
  obtain ⟨l, hl, heq⟩ := mul_large (h.symm.imp And.left And.right)
  have hzero : ((m * n : Nat) : Cardinal.{0}) = (0 : Nat) := by
    rcases h with ⟨rfl, -⟩ | ⟨-, rfl⟩
    · rw [Nat.zero_mul]
    · rw [Nat.mul_zero]
  have hrep := hmul _ _ (represents_ofNat.2 ⟨m, rfl, .inl rfl⟩)
    (represents_ofNat.2 ⟨n, rfl, .inl rfl⟩)
  rw [heq, ← Nat.cast_mul, hzero] at hrep
  exact not_represents hl not_isLarge_zero hrep

lemma ne_zero_of_stands {m m' : Nat} (h : m' = m ∨ IsLarge m' ∧ IsLarge m) : m' = 0 ↔ m = 0 := by
  rcases h with rfl | ⟨hm', hm⟩
  · rfl
  · exact iff_of_false (fun h0 => not_isLarge_zero (h0 ▸ hm')) fun h0 =>
      not_isLarge_zero (h0 ▸ hm)

lemma mulRight_iff (a c : Cardinality) : MulRight a c ↔ ¬ ZeroTimesLarge a c := by
  rcases form a with _ | m | j
  · refine iff_of_true (fun κ μ _ _ => ?_) (by simp [ZeroTimesLarge])
    rw [mul_unknown (.inl rfl)]
    exact .unknown _
  · rcases form c with _ | n | k
    · refine iff_of_true (fun κ μ _ _ => ?_) (by simp [ZeroTimesLarge])
      rw [mul_unknown (.inr rfl)]
      exact .unknown _
    · rw [ZeroTimesLarge, isLargeFinite_eq_true, isLargeFinite_eq_true, ofNat_inj, ofNat_inj]
      exact ⟨fun h hbad => not_mulRight hbad h, mulRight_finite⟩
    · refine iff_of_true (fun κ μ ha hc => ?_) (by simp [ZeroTimesLarge])
      obtain ⟨m', rfl, hm⟩ := represents_ofNat.1 ha
      rw [represents_beth.1 hc, mul_ofNat_ofBeth]
      by_cases h0 : m = 0
      · rw [if_pos h0, (ne_zero_of_stands hm).2 h0, Nat.cast_zero, zero_mul]
        exact represents_ofNat.2 ⟨0, Nat.cast_zero.symm, .inl rfl⟩
      · rw [if_neg h0, natCast_mul_bethNat ((ne_zero_of_stands hm).not.2 h0)]
        exact .beth k
  refine iff_of_true (fun κ μ ha hc => ?_) (by simp [ZeroTimesLarge])
  rw [represents_beth.1 ha]
  rcases form c with _ | n | k
  · rw [mul_unknown (.inr rfl)]
    exact .unknown _
  · obtain ⟨n', rfl, hn⟩ := represents_ofNat.1 hc
    rw [mul_ofBeth_ofNat, mul_comm]
    by_cases h0 : n = 0
    · rw [if_pos h0, (ne_zero_of_stands hn).2 h0, Nat.cast_zero, zero_mul]
      exact represents_ofNat.2 ⟨0, Nat.cast_zero.symm, .inl rfl⟩
    · rw [if_neg h0, natCast_mul_bethNat ((ne_zero_of_stands hn).not.2 h0)]
      exact .beth j
  · rw [represents_beth.1 hc, mul_ofBeth, bethNat_mul]
    exact .beth _

/-- The base is large and the exponent zero, or the base zero or one and the exponent large. -/
def SmallPower (a c : Cardinality) : Prop :=
  a.isLargeFinite = true ∧ c = ofNat 0 ∨ (a = ofNat 0 ∨ a = ofNat 1) ∧ c.isLargeFinite = true

lemma powRight_finite (h : ¬ (IsLarge m ∧ n = 0 ∨ (m = 0 ∨ m = 1) ∧ IsLarge n)) :
    PowRight (ofNat m) (ofNat n) := by
  obtain ⟨l, heq, hl⟩ := pow_finite m n
  refine ⟨_, heq, fun κ μ ha hc => ?_⟩
  obtain ⟨m', rfl, hm⟩ := represents_ofNat.1 ha
  obtain ⟨n', rfl, hn⟩ := represents_ofNat.1 hc
  rw [Cardinal.power_natCast, ← Nat.cast_pow]
  refine represents_ofNat.2 ⟨_, rfl, ?_⟩
  rcases hl with ⟨hlm, hln, hpow⟩ | ⟨hl, hlarge⟩
  · rw [hm.resolve_right fun h => hlm h.2, hn.resolve_right fun h => hln h.2]
    exact hpow.imp Eq.symm And.symm
  refine .inr ⟨?_, hl⟩
  by_cases hlm : IsLarge m
  · have hne : n' ≠ 0 := (ne_zero_of_stands hn).not.2 fun h0 => h (.inl ⟨hlm, h0⟩)
    exact (isLarge_of_stands hm hlm).mono (Nat.le_self_pow hne _)
  have hln := hlarge.resolve_left hlm
  obtain rfl := hm.resolve_right fun h => hlm h.2
  have htwo : 2 ≤ m' := by
    by_contra hlt
    exact h (.inr ⟨by omega, hln⟩)
  refine (isLarge_of_stands hn hln).mono ?_
  exact (Nat.lt_two_pow_self).le.trans (Nat.pow_le_pow_left htwo n')

lemma not_powRight (h : IsLarge m ∧ n = 0 ∨ (m = 0 ∨ m = 1) ∧ IsLarge n) :
    ¬ PowRight (ofNat m) (ofNat n) := by
  rintro ⟨r, hr, hpow⟩
  obtain ⟨l, hl, heq⟩ := pow_large (h.imp And.left And.right)
  cases hr.symm.trans heq
  have hrep := hpow _ _ (represents_ofNat.2 ⟨m, rfl, .inl rfl⟩)
    (represents_ofNat.2 ⟨n, rfl, .inl rfl⟩)
  rw [Cardinal.power_natCast, ← Nat.cast_pow] at hrep
  refine not_represents hl ?_ hrep
  rcases h with ⟨-, rfl⟩ | ⟨rfl | rfl, hn⟩
  · rw [Nat.pow_zero]
    exact not_isLarge_one
  · rw [Nat.zero_pow (Nat.pos_of_ne_zero fun h0 => not_isLarge_zero (h0 ▸ hn))]
    exact not_isLarge_zero
  · rw [Nat.one_pow]
    exact not_isLarge_one

lemma powRight_ofNat_ofBeth (m k : Nat) : PowRight (ofNat m) (ofBeth k) := by
  refine ⟨_, pow_ofNat_ofBeth m k, fun κ μ ha hc => ?_⟩
  obtain ⟨m', rfl, hm⟩ := represents_ofNat.1 ha
  rw [represents_beth.1 hc]
  by_cases hle : m ≤ 1
  · obtain rfl := hm.resolve_right fun h => not_isLarge_one (h.2.mono hle)
    rw [if_pos hle]
    rcases Nat.le_one_iff_eq_zero_or_eq_one.1 hle with rfl | rfl
    · rw [Nat.cast_zero, Cardinal.zero_power (Cardinal.aleph0_pos.trans_le (aleph0_le_bethNat k)).ne']
      exact represents_ofNat.2 ⟨0, Nat.cast_zero.symm, .inl rfl⟩
    · rw [Nat.cast_one, Cardinal.one_power]
      exact represents_ofNat.2 ⟨1, Nat.cast_one.symm, .inl rfl⟩
  have htwo : 2 ≤ m' := by
    rcases hm with rfl | ⟨hm', -⟩
    · omega
    · exact Nat.le_trans (by decide) hm'
  rw [if_neg hle, natCast_pow_bethNat htwo]
  exact .beth _

lemma powRight_ofBeth_ofNat (j n : Nat) : PowRight (ofBeth j) (ofNat n) := by
  refine ⟨_, pow_ofBeth_ofNat j n, fun κ μ ha hc => ?_⟩
  obtain ⟨n', rfl, hn⟩ := represents_ofNat.1 hc
  rw [represents_beth.1 ha]
  by_cases h0 : n = 0
  · rw [if_pos h0, (ne_zero_of_stands hn).2 h0, Nat.cast_zero, Cardinal.power_zero]
    exact represents_ofNat.2 ⟨1, Nat.cast_one.symm, .inl rfl⟩
  have hpos : 1 ≤ n' := Nat.pos_of_ne_zero ((ne_zero_of_stands hn).not.2 h0)
  rw [if_neg h0, Cardinal.power_natCast, Cardinal.power_nat_eq (aleph0_le_bethNat j) hpos]
  exact .beth j

lemma powRight_ofBeth (j k : Nat) : PowRight (ofBeth j) (ofBeth k) := by
  refine ⟨_, pow_ofBeth j k, fun κ μ ha hc => ?_⟩
  rw [represents_beth.1 ha, represents_beth.1 hc]
  by_cases hlt : k < j
  · rw [if_pos hlt, bethNat_pow_of_lt hlt]
    exact .beth j
  · rw [if_neg hlt, bethNat_pow_of_le (Nat.not_lt.1 hlt)]
    exact .beth _

lemma powRight_iff (a c : Cardinality) : PowRight a c ↔ ¬ SmallPower a c := by
  rcases form a with _ | m | j
  · refine iff_of_true ⟨_, pow_unknown (.inl rfl), fun κ μ _ _ => .unknown _⟩ ?_
    simp [SmallPower]
  · rcases form c with _ | n | k
    · refine iff_of_true ⟨_, pow_unknown (.inr rfl), fun κ μ _ _ => .unknown _⟩ ?_
      simp [SmallPower]
    · rw [SmallPower, isLargeFinite_eq_true, isLargeFinite_eq_true, ofNat_inj, ofNat_inj, ofNat_inj]
      exact ⟨fun h hbad => not_powRight hbad h, powRight_finite⟩
    · exact iff_of_true (powRight_ofNat_ofBeth m k) (by simp [SmallPower])
  refine iff_of_true ?_ (by simp [SmallPower])
  rcases form c with _ | n | k
  · exact ⟨_, pow_unknown (.inr rfl), fun κ μ _ _ => .unknown _⟩
  · exact powRight_ofBeth_ofNat j n
  · exact powRight_ofBeth j k

/-- Sums and comparisons are always right.  Products are right unless zero meets a large number,
and powers unless the base is large and the exponent zero, or the base at most one and the
exponent large. -/
theorem arithmetic_right_iff (a c : Cardinality) :
    AddRight a c ∧ CompareRight a c ∧ (MulRight a c ↔ ¬ ZeroTimesLarge a c) ∧
      (PowRight a c ↔ ¬ SmallPower a c) :=
  ⟨addRight a c, compareRight a c, mulRight_iff a c, powRight_iff a c⟩

/-- Zero times `2^64` is said to be large, and so is the power of `2^64` with exponent zero. -/
theorem arithmetic_not_right :
    ¬ (∀ a c, AddRight a c ∧ MulRight a c ∧ PowRight a c ∧ CompareRight a c) ∧
      ¬ MulRight (ofNat 0) (ofNat (2 ^ 64)) ∧ ¬ PowRight (ofNat (2 ^ 64)) (ofNat 0) := by
  have hmul : ¬ MulRight (ofNat 0) (ofNat (2 ^ 64)) := not_mulRight (.inl ⟨rfl, isLarge_two_pow⟩)
  exact ⟨fun h => hmul (h _ _).2.1, hmul, not_powRight (.inl ⟨isLarge_two_pow, rfl⟩)⟩

end EthosCpc.Cvc5.Cardinalities
