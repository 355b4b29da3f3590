import EthosCpc.Cvc5.NativeValues
import EthosCpc.Semantics.Value

/-!
# What the native values compute

Each operation of `BitVector` computes the bit-vector operation of its name,
each search and replacement of `String` the operation of words, and the
division of `Integer` is the Euclidean one.
-/

namespace EthosCpc.Cvc5

open Library
open Nat (mod_eq_of_lt mul_one mul_sub pow_add pow_succ two_pow_pos)
open BitVec (eq_of_toNat_eq ofInt ofNat_toNat setWidth_eq toNat_allOnes toNat_eq toNat_ofInt
  toNat_ofNat)

/-! ## `Integer` -/

namespace Integer

variable {n : Nat}

lemma toUnsignedInt_of_lt (h : n < 2 ^ 32) : toUnsignedInt n = n := by
  rw [toUnsignedInt, Int.natAbs_natCast, mod_eq_of_lt h]

lemma euclidianQR_eq (x : Int) {y : Int} (hy : y ≠ 0) : euclidianQR x y = (x / y, x % y) := by
  have hnn : 0 ≤ x % y := Int.emod_nonneg x hy
  unfold euclidianQR floorQR
  dsimp only
  by_cases h : 0 ≤ y ∨ y ∣ x
  · rw [Int.fmod_eq_emod, Int.fdiv_eq_ediv, if_pos h, if_pos h, Int.add_zero, Int.sub_zero,
      if_neg (by omega)]
  have hlt : x % y < -y := by
    rw [← abs_of_neg (by omega)]
    exact Int.emod_lt_abs x hy
  rw [Int.fmod_eq_emod, Int.fdiv_eq_ediv, if_neg h, if_neg h, if_pos (by omega),
    if_neg (by omega), Int.sub_add_cancel, Int.add_sub_cancel]

lemma extractBitRange_one (v low : Nat) : extractBitRange v 1 low = v / 2 ^ low % 2 := by
  rw [extractBitRange, pow_add, Nat.mod_mul_right_div_self, Nat.pow_one]

/-- Setting the bits behind a number adds them. -/
lemma oneExtend_eq {v size : Nat} (hv : v < 2 ^ size) (amount : Nat) :
    oneExtend v size amount = v + 2 ^ size * (2 ^ amount - 1) := by
  unfold oneExtend
  induction amount with
  | zero => simp
  | succ amount ih =>
    rw [List.range'_concat, List.foldl_append, ih, Nat.one_mul]
    simp only [List.foldl_cons, List.foldl_nil]
    have hlt : v + 2 ^ size * (2 ^ amount - 1) < 2 ^ (size + amount) := by
      have hpow := two_pow_pos amount
      have hmul : 2 ^ size * (2 ^ amount - 1) + 2 ^ size = 2 ^ (size + amount) := by
        rw [Nat.pow_add, ← Nat.mul_succ]
        congr 1
        omega
      omega
    rw [Nat.or_comm, ← Nat.mul_one (2 ^ (size + amount)), ← Nat.two_pow_add_eq_or_of_lt hlt,
      Nat.mul_one, Nat.pow_add, Nat.pow_succ, Nat.mul_sub, Nat.mul_sub]
    have h1 : 2 ^ size * 1 ≤ 2 ^ size * 2 ^ amount := Nat.mul_le_mul_left _ (two_pow_pos amount)
    rw [← Nat.mul_assoc]
    omega

lemma popcount_bit (b : Bool) (hb : n = 0 → b = true) :
    popcount (Nat.bit b n) = popcount n + b.toNat := by
  unfold popcount
  rw [Nat.bits_append_bit n b hb]
  cases b <;> simp

lemma popcount_eq_zero : popcount n = 0 ↔ n = 0 := by
  induction n using Nat.binaryRec' with
  | zero => simp [popcount]
  | bit b n hb ih =>
    rw [popcount_bit b hb]
    cases b with
    | false => simpa [Nat.bit] using ih
    | true => simp [Nat.bit]

lemma popcount_eq_one : popcount n = 1 ↔ ∃ k, n = 2 ^ k := by
  induction n using Nat.binaryRec' with
  | zero => simpa [popcount] using fun k => (two_pow_pos k).ne
  | bit b n hb ih =>
    rw [popcount_bit b hb]
    cases b with
    | false =>
      have hn : n ≠ 0 := fun h => Bool.false_ne_true (hb h)
      refine ih.trans ⟨?_, ?_⟩
      · rintro ⟨k, hk⟩
        exact ⟨k + 1, by rw [pow_succ, Nat.mul_comm, ← hk, Nat.bit_false_apply]⟩
      rintro ⟨k, hk⟩
      rw [Nat.bit_false_apply] at hk
      cases k with
      | zero => omega
      | succ k => exact ⟨k, by rw [pow_succ] at hk; omega⟩
    | true =>
      rw [Nat.bit_true_apply]
      constructor
      · intro h
        have hn : n = 0 := popcount_eq_zero.1 (Nat.succ.inj h)
        exact ⟨0, by rw [hn]; rfl⟩
      rintro ⟨k, hk⟩
      have hn : n = 0 := by
        cases k with
        | zero => omega
        | succ k =>
          rw [pow_succ] at hk
          omega
      rw [popcount_eq_zero.2 hn]
      rfl

lemma isPow2_iff {z : Int} : isPow2 z = true ↔ intIspow2 z := by
  unfold isPow2 intIspow2
  by_cases hz : z ≤ 0
  · rw [if_pos hz]
    constructor
    · intro h
      cases h
    rintro ⟨k, rfl⟩
    have : (0 : Int) < 2 ^ k := by positivity
    omega
  rw [if_neg hz, beq_iff_eq, popcount_eq_one]
  have hcast : (z.toNat : Int) = z := Int.toNat_of_nonneg (by omega)
  constructor
  · rintro ⟨k, hk⟩
    exact ⟨k, by rw [← hcast, hk]; norm_cast⟩
  · rintro ⟨k, rfl⟩
    exact ⟨k, by rw [show ((2 : Int) ^ k) = ((2 ^ k : Nat) : Int) by norm_cast]; rfl⟩

lemma length_sub_one {z : Int} (hz : 0 ≤ z) : ((length z : Int) - 1) = intLog2 z := by
  unfold length intLog2
  by_cases h : z = 0
  · rw [if_pos h, if_pos (by omega)]
    rfl
  rw [if_neg h, if_neg (by omega)]
  have hnat : z.natAbs = z.toNat := by omega
  have hne : z.toNat ≠ 0 := by omega
  have hle : z.toNat.size ≤ z.toNat.log2 + 1 := Nat.size_le.2 Nat.lt_log2_self
  have hlt : z.toNat.log2 < z.toNat.size := Nat.lt_size.2 (Nat.log2_self_le hne)
  rw [hnat]
  omega

end Integer

/-! ## `BitVector` -/

namespace BitVector

open Integer

/-- A native bit-vector for a value. -/
structure Denotes (a : BitVector) {w : Nat} (x : BitVec w) : Prop where
  size_eq : a.size = w
  value_eq : a.value = x.toNat

lemma denotes_ofInteger (w : Nat) (h : w < 2 ^ 32) (z : Int) :
    (ofInteger w h z).Denotes (ofInt w z) where
  size_eq := rfl
  value_eq := by
    rw [toNat_ofInt]
    rfl

variable {z : Int}

lemma denotes_make {w : Nat} {r : BitVector} (h : make w z = some r) : r.Denotes (ofInt w z) := by
  unfold make at h
  split at h
  · cases h
    exact denotes_ofInteger w _ z
  · cases h

variable {a b r : BitVector} {w : Nat} {x y : BitVec w}

lemma Denotes.resized (ha : a.Denotes x) (z : Int) : (a.resized z).Denotes (ofInt w z) := by
  obtain ⟨hs, _⟩ := ha
  subst hs
  exact denotes_ofInteger _ _ z

/-- A computed value that has the right residue. -/
lemma Denotes.resized_of (ha : a.Denotes x) (hz : ofInt w z = y) :
    (a.resized z).Denotes y := hz ▸ ha.resized z

lemma Denotes.size_lt' (ha : a.Denotes x) : w < 2 ^ 32 := ha.size_eq ▸ a.size_lt

lemma Denotes.bitNot (ha : a.Denotes x) : a.bitNot.Denotes (~~~x) := by
  apply ha.resized_of
  rw [ha.value_eq]
  apply eq_of_toNat_eq
  have hx := x.isLt
  rw [toNat_ofInt, BitVec.toNat_not]
  have hcast : ((2 ^ w - 1 - x.toNat : Nat) : Int) = (2 ^ w : Nat) - 1 - x.toNat := by omega
  have h : -(x.toNat : Int) - 1 = ((2 ^ w - 1 - x.toNat : Nat) : Int) + (2 ^ w : Nat) * (-1) := by
    rw [hcast]
    ring
  rw [h, Int.add_mul_emod_self_left, Int.emod_eq_of_lt (Int.natCast_nonneg _) (by omega)]
  rfl

lemma Denotes.add (ha : a.Denotes x) (hb : b.Denotes y) : (a.add b).Denotes (x + y) := by
  apply ha.resized_of
  rw [ha.value_eq, hb.value_eq, BitVec.ofInt_add]
  simp

lemma Denotes.neg (ha : a.Denotes x) : a.neg.Denotes (-x) := by
  have h : (a.bitNot.add (a.resized 1)).Denotes (~~~x + ofInt w 1) :=
    ha.bitNot.add (ha.resized 1)
  rw [BitVec.neg_eq_not_add]
  exact h

lemma Denotes.mul (ha : a.Denotes x) (hb : b.Denotes y) : (a.mul b).Denotes (x * y) := by
  apply ha.resized_of
  rw [ha.value_eq, hb.value_eq, BitVec.ofInt_mul]
  simp

lemma Denotes.bitAnd (ha : a.Denotes x) (hb : b.Denotes y) : (a.bitAnd b).Denotes (x &&& y) := by
  apply ha.resized_of
  rw [ha.value_eq, hb.value_eq, BitVec.ofInt_natCast, ← BitVec.toNat_and, ofNat_toNat,
    setWidth_eq]

lemma Denotes.bitOr (ha : a.Denotes x) (hb : b.Denotes y) : (a.bitOr b).Denotes (x ||| y) := by
  apply ha.resized_of
  rw [ha.value_eq, hb.value_eq, BitVec.ofInt_natCast, ← BitVec.toNat_or, ofNat_toNat,
    setWidth_eq]

lemma Denotes.bitXor (ha : a.Denotes x) (hb : b.Denotes y) : (a.bitXor b).Denotes (x ^^^ y) := by
  apply ha.resized_of
  rw [ha.value_eq, hb.value_eq, BitVec.ofInt_natCast, ← BitVec.toNat_xor, ofNat_toNat,
    setWidth_eq]

lemma Denotes.unsignedDivTotal (ha : a.Denotes x) (hb : b.Denotes y) :
    (a.unsignedDivTotal b).Denotes (x.smtUDiv y) := by
  unfold BitVector.unsignedDivTotal
  rw [BitVec.smtUDiv_eq]
  have hzero : b.value = 0 ↔ y = 0#w := by rw [hb.value_eq, toNat_eq, toNat_ofNat, Nat.zero_mod]
  by_cases hy : y = 0#w
  · rw [if_pos (hzero.2 hy), if_pos hy]
    apply ha.resized_of
    apply eq_of_toNat_eq
    rw [BitVec.ofInt_natCast, toNat_ofNat, toNat_allOnes, ha.size_eq]
    rcases Nat.eq_zero_or_pos w with rfl | hw
    · exact Nat.mod_one _
    have hpow : 2 ^ (w - 1) * 2 = 2 ^ w := Nat.two_pow_pred_mul_two hw
    have hpos := two_pow_pos (w - 1)
    rw [oneExtend_eq (by decide), mod_eq_of_lt (by omega)]
    omega
  rw [if_neg (mt hzero.1 hy), if_neg hy]
  apply ha.resized_of
  apply eq_of_toNat_eq
  rw [BitVec.ofInt_natCast, toNat_ofNat, BitVec.toNat_udiv, ha.value_eq, hb.value_eq]
  exact mod_eq_of_lt (lt_of_le_of_lt (Nat.div_le_self _ _) x.isLt)

lemma Denotes.unsignedRemTotal (ha : a.Denotes x) (hb : b.Denotes y) :
    (a.unsignedRemTotal b).Denotes (x.umod y) := by
  have h : a.unsignedRemTotal b = a.resized (a.value % b.value : Nat) := by
    unfold BitVector.unsignedRemTotal
    split
    · rename_i hy
      rw [hy, Nat.mod_zero]
    · rfl
  rw [h]
  apply ha.resized_of
  apply eq_of_toNat_eq
  rw [BitVec.ofInt_natCast, toNat_ofNat, ha.value_eq, hb.value_eq]
  exact mod_eq_of_lt (lt_of_le_of_lt (Nat.mod_le _ _) x.isLt)

lemma Denotes.signBit (ha : a.Denotes x) :
    extractBitRange a.value 1 (a.size - 1) = if x.msb then 1 else 0 := by
  rw [extractBitRange_one, ha.size_eq, ha.value_eq, BitVec.msb_eq_decide]
  have hx := x.isLt
  rcases Nat.eq_zero_or_pos w with rfl | hw
  · have h0 : x.toNat = 0 := by omega
    rw [h0]
    rfl
  have hpow : 2 ^ (w - 1) * 2 = 2 ^ w := Nat.two_pow_pred_mul_two hw
  by_cases hle : 2 ^ (w - 1) ≤ x.toNat
  swap
  · rw [Nat.div_eq_of_lt (by omega), decide_eq_false hle]
    rfl
  have hdiv : x.toNat / 2 ^ (w - 1) = 1 := by apply Nat.div_eq_of_lt_le <;> omega
  rw [hdiv, decide_eq_true hle]
  rfl

lemma Denotes.toSignedInteger (ha : a.Denotes x) : a.toSignedInteger = x.toInt := by
  unfold BitVector.toSignedInteger
  rw [ha.signBit, BitVec.toInt_eq_msb_cond, ha.size_eq, extractBitRange, Nat.zero_add, Nat.pow_zero,
    Nat.div_one, ha.value_eq]
  have hx := x.isLt
  have hmsb : x.msb = true ↔ 2 ^ (w - 1) ≤ x.toNat := by
    rw [BitVec.msb_eq_decide, decide_eq_true_iff]
  rcases Nat.eq_zero_or_pos w with rfl | hw
  · have h0 : x.toNat = 0 := by omega
    have hm : x.msb = false := by
      rw [Bool.eq_false_iff, ne_eq, hmsb, h0]
      decide
    rw [hm, h0]
    rfl
  have hpow : 2 ^ (w - 1) * 2 = 2 ^ w := Nat.two_pow_pred_mul_two hw
  by_cases hle : x.msb = true
  swap
  · rw [if_neg hle, if_neg hle, mod_eq_of_lt (by rw [hmsb] at hle; omega)]
    simp
  have hge := hmsb.1 hle
  have hmod : x.toNat % 2 ^ (w - 1) = x.toNat - 2 ^ (w - 1) := by
    rw [Nat.mod_eq_sub_mod hge, mod_eq_of_lt (by omega)]
  rw [if_pos hle, if_pos hle, hmod, ← hpow]
  push_cast [hge]
  ring

lemma Denotes.leftShift (ha : a.Denotes x) (hb : b.Denotes y) :
    (a.leftShift b).Denotes (x <<< y) := by
  unfold BitVector.leftShift
  rw [BitVec.shiftLeft_eq', hb.value_eq, ha.size_eq]
  split
  · rename_i hlt
    rw [BitVec.shiftLeft_eq_zero (Nat.le_of_lt hlt)]
    exact ha.resized_of (by simp)
  rename_i hle
  split
  · rename_i h0
    rw [h0, BitVec.shiftLeft_zero]
    exact ha
  apply ha.resized_of
  have hfits : y.toNat < 2 ^ 32 := by
    have := ha.size_lt'
    omega
  rw [toUnsignedInt_of_lt hfits, ha.value_eq]
  apply eq_of_toNat_eq
  rw [BitVec.toNat_shiftLeft, Nat.shiftLeft_eq]
  norm_cast

lemma Denotes.arithRightShift (ha : a.Denotes x) (hb : b.Denotes y) :
    (a.arithRightShift b).Denotes (x.sshiftRight' y) := by
  unfold BitVector.arithRightShift
  dsimp only
  have hx := x.isLt
  rw [ha.signBit, hb.value_eq, ha.size_eq]
  by_cases hmsb : x.msb = true
  · simp only [hmsb, if_true, Nat.one_ne_zero, if_false]
    have key : y.toNat ≤ w →
        (x.sshiftRight' y).toNat = x.toNat / 2 ^ y.toNat + 2 ^ (w - y.toNat) * (2 ^ y.toNat - 1) := by
      intro hle
      rw [BitVec.toNat_sshiftRight'_of_msb_true hmsb, Nat.shiftRight_eq_div_pow]
      have hw : 2 ^ w = 2 ^ y.toNat * 2 ^ (w - y.toNat) := by rw [← pow_add]; congr 1; omega
      have hsub : (2 ^ w - 1 - x.toNat) / 2 ^ y.toNat =
          2 ^ (w - y.toNat) - (x.toNat / 2 ^ y.toNat + 1) := by
        rw [Nat.sub_sub, Nat.add_comm 1, hw, Nat.mul_sub_div _ _ _ (hw ▸ hx)]
      have hdiv : x.toNat / 2 ^ y.toNat < 2 ^ (w - y.toNat) :=
        Nat.div_lt_of_lt_mul (hw ▸ hx)
      have hmul : 2 ^ (w - y.toNat) * (2 ^ y.toNat - 1) + 2 ^ (w - y.toNat) = 2 ^ w := by
        rw [hw, mul_sub, mul_one, Nat.mul_comm (2 ^ y.toNat),
          Nat.sub_add_cancel (Nat.le_mul_of_pos_right _ (two_pow_pos _))]
      rw [hsub]
      clear hsub hw
      generalize x.toNat / 2 ^ y.toNat = d at hdiv ⊢
      generalize 2 ^ (w - y.toNat) * (2 ^ y.toNat - 1) = m at hmul ⊢
      omega
    split
    · rename_i hlt
      apply ha.resized_of
      apply eq_of_toNat_eq
      have hall : x.sshiftRight' y = BitVec.allOnes w := by
        apply eq_of_toNat_eq
        rw [BitVec.toNat_sshiftRight'_of_msb_true hmsb, toNat_allOnes,
          Nat.shiftRight_eq_div_pow, Nat.div_eq_of_lt]
        · rfl
        · have := Nat.pow_lt_pow_right (by decide : 1 < 2) hlt
          omega
      rw [hall, toNat_ofInt, toNat_allOnes]
      have hpow : 1 ≤ 2 ^ w := two_pow_pos w
      have hz : (w : Int) * 2 ^ w - 1 = ((2 ^ w - 1 : Nat) : Int) + (2 ^ w : Nat) * (w - 1) := by
        push_cast [hpow]
        ring
      rw [hz, Int.add_mul_emod_self_left, Int.emod_eq_of_lt (Int.natCast_nonneg _) (by omega)]
      rfl
    rename_i hle
    split
    · rename_i h0
      rw [BitVec.sshiftRight_eq', h0, BitVec.sshiftRight_zero]
      exact ha
    apply ha.resized_of
    have hfits : y.toNat < 2 ^ 32 := by
      have := ha.size_lt'
      omega
    apply eq_of_toNat_eq
    have hw : 2 ^ w = 2 ^ y.toNat * 2 ^ (w - y.toNat) := by rw [← pow_add]; congr 1; omega
    rw [toUnsignedInt_of_lt hfits, ha.value_eq,
      oneExtend_eq (Nat.div_lt_of_lt_mul (hw ▸ hx)), BitVec.ofInt_natCast,
      toNat_ofNat, ← key (by omega)]
    exact mod_eq_of_lt (x.sshiftRight' y).isLt
  · have hfalse : x.msb = false := by simpa using hmsb
    simp only [hfalse, Bool.false_eq_true, if_false, if_true]
    have hval := BitVec.toNat_sshiftRight'_of_msb_false (y := y) hfalse
    rw [Nat.shiftRight_eq_div_pow] at hval
    split
    · rename_i hlt
      apply ha.resized_of
      apply eq_of_toNat_eq
      rw [hval, Nat.div_eq_of_lt]
      · simp
      · exact lt_trans hx (Nat.pow_lt_pow_right (by decide) hlt)
    rename_i hle
    split
    · rename_i h0
      rw [BitVec.sshiftRight_eq', h0, BitVec.sshiftRight_zero]
      exact ha
    apply ha.resized_of
    have hfits : y.toNat < 2 ^ 32 := by
      have := ha.size_lt'
      omega
    apply eq_of_toNat_eq
    rw [toUnsignedInt_of_lt hfits, ha.value_eq, hval, BitVec.ofInt_natCast, toNat_ofNat]
    exact mod_eq_of_lt (lt_of_le_of_lt (Nat.div_le_self _ _) hx)

lemma denotes_make_of {v : Nat} {t : BitVec v} (h : make v z = some r)
    (hz : ofInt v z = t) : r.Denotes t := hz ▸ denotes_make h

lemma Denotes.concat {w' : Nat} {y : BitVec w'} (ha : a.Denotes x) (hb : b.Denotes y)
    (h : a.concat b = some r) : r.Denotes (x ++ y) := by
  unfold BitVector.concat at h
  rw [ha.size_eq, hb.size_eq, ha.value_eq, hb.value_eq] at h
  apply denotes_make_of h
  apply eq_of_toNat_eq
  have hval : (x.toNat : Int) * 2 ^ w' + y.toNat = (x.toNat <<< w' ||| y.toNat : Nat) := by
    rw [← Nat.shiftLeft_add_eq_or_of_lt y.isLt, Nat.shiftLeft_eq]
    push_cast
    rfl
  rw [hval, BitVec.ofInt_natCast, toNat_ofNat, BitVec.toNat_append]
  exact mod_eq_of_lt (BitVec.toNat_shiftLeft_or_toNat_lt_two_pow_add x y)

lemma Denotes.extract (ha : a.Denotes x) {high low : Nat} (h : a.extract high low = some r) :
    low ≤ high ∧ r.Denotes (x.extractLsb' low (high - low + 1)) := by
  unfold BitVector.extract at h
  split at h
  swap
  · cases h
  rename_i hle
  refine ⟨hle.2, denotes_make_of h ?_⟩
  apply eq_of_toNat_eq
  rw [BitVec.ofInt_natCast, toNat_ofNat, ha.value_eq, BitVec.extractLsb'_toNat,
    extractBitRange, pow_add, Nat.mod_mul_right_div_self, Nat.mod_mod, Nat.shiftRight_eq_div_pow]

lemma Denotes.zeroExtend (ha : a.Denotes x) {n : Nat} (h : a.zeroExtend n = some r) :
    r.Denotes (x.setWidth (w + n)) := by
  unfold BitVector.zeroExtend at h
  rw [ha.size_eq, ha.value_eq] at h
  apply denotes_make_of h
  rw [BitVec.ofInt_natCast, ofNat_toNat]

lemma Denotes.signExtend (ha : a.Denotes x) {n : Nat} (h : a.signExtend n = some r) :
    r.Denotes (x.signExtend (w + n)) := by
  unfold BitVector.signExtend at h
  have hx := x.isLt
  have hpow : 2 ^ w ≤ 2 ^ (w + n) := Nat.pow_le_pow_right (by decide) (by omega)
  have hwide : (x.setWidth (w + n)).toNat = x.toNat := by
    rw [BitVec.toNat_setWidth, mod_eq_of_lt (by omega)]
  rw [ha.signBit, ha.size_eq, ha.value_eq] at h
  by_cases hmsb : x.msb = true
  · rw [if_neg (by rw [if_pos hmsb]; decide)] at h
    apply denotes_make_of h
    apply eq_of_toNat_eq
    have hval : (x.signExtend (w + n)).toNat = oneExtend x.toNat w n := by
      rw [BitVec.toNat_signExtend, if_pos hmsb, hwide, oneExtend_eq hx, mul_sub, pow_add, mul_one]
    rw [BitVec.ofInt_natCast, toNat_ofNat, ← hval]
    exact mod_eq_of_lt (x.signExtend (w + n)).isLt
  rw [if_pos (by rw [if_neg hmsb])] at h
  apply denotes_make_of h
  apply eq_of_toNat_eq
  rw [BitVec.ofInt_natCast, toNat_ofNat, BitVec.toNat_signExtend, if_neg hmsb, hwide,
    mod_eq_of_lt (by omega), Nat.add_zero]

lemma Denotes.unsignedLessThan (ha : a.Denotes x) (hb : b.Denotes y) :
    a.unsignedLessThan b = x.ult y := by
  rw [BitVector.unsignedLessThan, ha.value_eq, hb.value_eq]
  rfl

lemma Denotes.unsignedLessThanEq (ha : a.Denotes x) (hb : b.Denotes y) :
    a.unsignedLessThanEq b = x.ule y := by
  rw [BitVector.unsignedLessThanEq, ha.value_eq, hb.value_eq]
  rfl

lemma Denotes.signedLessThan (ha : a.Denotes x) (hb : b.Denotes y) :
    a.signedLessThan b = x.slt y := by
  rw [BitVector.signedLessThan, ha.toSignedInteger, hb.toSignedInteger]
  rfl

lemma Denotes.signedLessThanEq (ha : a.Denotes x) (hb : b.Denotes y) :
    a.signedLessThanEq b = x.sle y := by
  rw [BitVector.signedLessThanEq, ha.toSignedInteger, hb.toSignedInteger]
  rfl

lemma Denotes.isBitSet_last (ha : a.Denotes x) : a.isBitSet (w - 1) = x.msb := by
  have h := ha.signBit
  rw [ha.size_eq] at h
  rw [BitVector.isBitSet, h]
  cases x.msb <;> rfl

/-- Equal bit-vectors are equal natively. -/
lemma Denotes.eq_iff (ha : a.Denotes x) (hb : b.Denotes y) : a = b ↔ x = y := by
  rw [toNat_eq, ← ha.value_eq, ← hb.value_eq]
  constructor
  · rintro rfl
    rfl
  intro h
  have hsize : a.size = b.size := ha.size_eq.trans hb.size_eq.symm
  obtain ⟨sa, va, _, _⟩ := a
  obtain ⟨sb, vb, _, _⟩ := b
  cases hsize
  cases h
  rfl

end BitVector

/-! ## `String` -/

namespace CodeString

variable {s x y : Str} {i j : Nat}

lemma find_eq (s x : Str) (i : Nat) :
    find s x i = if i ≤ s.length then (Words.find x (s.drop i)).map (i + ·) else none := by
  unfold find
  by_cases hi : i ≤ s.length
  swap
  · rw [if_neg hi, if_pos (by omega)]
  rw [if_pos hi]
  by_cases hlen : s.length < x.length + i
  · rw [if_pos hlen, Words.find_eq_none.2]
    · rfl
    · intro hin
      have := hin.length_le
      rw [List.length_drop] at this
      omega
  rw [if_neg hlen]
  by_cases hx : x = []
  · rw [if_pos hx, hx, Words.find_of_prefix List.nil_prefix]
    rfl
  have hs : s ≠ [] := by
    rintro rfl
    have := List.length_pos_iff.2 hx
    simp only [List.length_nil] at hlen hi
    omega
  rw [if_neg hx, if_neg hs]

/-- The search result as the code turns it into a number. -/
lemma find_indexof (s x : Str) (i : Nat) : (match find s x i with
      | some r => (r : Int)
      | none => -1) = Words.indexof s x i := by
  rw [find_eq, Words.indexof, Int.toNat_natCast]
  by_cases hi : i ≤ s.length
  swap
  · rw [if_neg hi, if_neg (by omega)]
  rw [if_pos hi, if_pos ⟨by omega, by omega⟩]
  cases Words.find x (s.drop i) with
  | none => rfl
  | some r =>
    show (((i + r : Nat)) : Int) = i + r
    push_cast
    rfl

lemma find_zero (s x : Str) : find s x 0 = Words.find x s := by
  rw [find_eq, if_pos (Nat.zero_le _), List.drop_zero]
  simp

lemma find_isSome : (find s x 0).isSome = true ↔ x <:+: s := by
  rw [find_zero, Words.find_isSome]

lemma replace_eq (s x y : Str) : replace s x y = Words.replace s x y := by
  unfold replace Words.replace
  rw [find_zero]
  cases Words.find x s with
  | none => rfl
  | some i => exact List.append_assoc _ _ _

lemma update_eq (s : Str) (i : Nat) (t : Str) : update s i t = Words.update s i t := by
  unfold update Words.update
  rw [Int.toNat_natCast]
  by_cases hi : i < s.length
  swap
  · rw [if_neg hi, if_neg (by omega)]
  have hin : (0 : Int) ≤ i ∧ (i : Int) < s.length := ⟨by omega, by omega⟩
  rw [if_pos hi, if_pos hin]
  by_cases ht : t.length ≥ s.length - i
  · rw [if_pos ht, List.drop_of_length_le (by omega), List.append_nil]
  · have hle : t.length ≤ s.length - i := by omega
    rw [if_neg ht, List.take_of_length_le hle, List.append_assoc]

lemma replaceAllLoop_eq (hx : x ≠ []) :
    ∀ (fuel index : Nat) (chars : Str), index ≤ s.length → s.length - index < fuel →
      replaceAllLoop s x y fuel index chars =
        chars ++ Words.replaceAllFrom x y fuel (s.drop index) := by
  have hpos : 0 < x.length := List.length_pos_iff.2 hx
  intro fuel
  induction fuel with
  | zero => exact fun _ _ _ h => absurd h (Nat.not_lt_zero _)
  | succ fuel ih =>
    intro index chars hindex hfuel
    rw [replaceAllLoop, Words.replaceAllFrom, find_eq, if_pos hindex]
    cases hf : Words.find x (s.drop index) with
    | none => rfl
    | some r =>
      obtain ⟨_, hpre, _⟩ := Words.find_eq_some.1 hf
      have hlen := hpre.length_le
      rw [List.length_drop, List.length_drop] at hlen
      simp only [Option.map_some]
      rw [if_pos (by omega), ih _ _ (by omega) (by omega), List.drop_take, Nat.add_sub_cancel_left,
        List.drop_drop, List.append_assoc, List.append_assoc, Nat.add_assoc]

lemma replaceAllFrom_succ (hx : x ≠ []) : ∀ (k : Nat) (s : Str), s.length ≤ k →
      Words.replaceAllFrom x y (k + 1) s = Words.replaceAllFrom x y k s := by
  have hpos : 0 < x.length := List.length_pos_iff.2 hx
  intro k
  induction k with
  | zero =>
    intro s hs
    have : s = [] := List.length_eq_zero_iff.1 (Nat.le_zero.1 hs)
    rw [this, Words.replaceAllFrom, Words.replaceAllFrom, Words.find, if_neg hx]
  | succ k ih =>
    intro s hs
    rw [Words.replaceAllFrom]
    conv_rhs => rw [Words.replaceAllFrom]
    cases Words.find x s with
    | none => rfl
    | some i =>
      simp only
      rw [ih]
      rw [List.length_drop]
      omega

lemma replaceAllLoop_spec (hx : x ≠ []) (s y : Str) :
    replaceAllLoop s x y (s.length + 1) 0 [] = Words.replaceAll s x y := by
  rw [replaceAllLoop_eq hx _ _ _ (Nat.zero_le _) (by omega), List.drop_zero, List.nil_append,
    replaceAllFrom_succ hx _ _ le_rfl, Words.replaceAll, if_neg hx]

lemma isLeq_iff : ∀ {s t : Str}, isLeq s t = true ↔ strLe s t
  | [], [] => by simp [isLeq, strLe]
  | [], d :: t => by simp [isLeq, strLe, strLt]
  | c :: s, [] => by simp [isLeq, strLe, strLt]
  | c :: s, d :: t => by
      have ih := isLeq_iff (s := s) (t := t)
      rw [isLeq]
      rcases lt_trichotomy c d with h | h | h
      · rw [if_neg (not_lt.2 h.le), if_pos h]
        exact iff_of_true rfl (.inr (.rel h))
      · subst h
        rw [if_neg (lt_irrefl c), if_neg (lt_irrefl c), ih]
        simp [strLe, strLt]
      rw [if_pos h]
      refine iff_of_false Bool.false_ne_true ?_
      rintro (heq | hlt)
      · exact h.ne' (List.cons.inj heq).1
      cases hlt with
      | cons => exact lt_irrefl _ h
      | rel hlt => exact lt_asymm h hlt

lemma isNumber_iff : isNumber s = true ↔ s ≠ [] ∧ ∀ c ∈ s, IsDigit c := by
  simp [isNumber, isDigit, IsDigit]

end CodeString

end EthosCpc.Cvc5
