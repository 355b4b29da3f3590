import EthosCpc.Cpc.BvRewrites
import EthosCpc.Cpc.BitblastStepSpec
import EthosCpc.Cpc.AciNormSpec
import EthosCpc.Library.MulOverflow

/-!
# Soundness of the parametric bit-vector rewrites

Each rule of `EthosCpc.Cpc.BvRewrites` concludes an equality, and the two
sides have the same value.  The circuits of the two overflow rules are
described by the set bits of their arguments: what a loop has collected is
that some pair of positions reaches the threshold.
`EthosCpc.Library.MulOverflow` says that this is overflow.
-/

namespace EthosCpc

open Term (bop uop)
open Library
open Option (some.inj)
open Bool (and_eq_true eq_iff_iff false_ne_true or_eq_true)
open BitVec (getLsbD getLsbD_of_ge ofBool toNat_append toNat_mul toNat_not toNat_ofNat
  toNat_setWidth)

variable {Γ : Nat → Ty} {I : Interp Γ} {t u r : Term} {n : Nat}

/-! ## Terms of one bit -/

/-- A term whose value is the single bit `p`. -/
def Bit (I : Interp Γ) (t : Term) (p : Bool) : Prop :=
  value I t = some (Val.bitvec (ofBool p))

variable {x : BitVec n}

lemma value_mkExtract {hi lo : Int} (h : value I t = some (Val.bitvec x)) :
    value I (mkExtract hi lo t) =
      some (Val.bitvec (x.extractLsb' lo.toNat (hi - lo + 1).toNat)) := by
  rw [value_top I rfl, value_num, value_num, h]
  rfl

lemma bit_mkBitOf (h : value I t = some (Val.bitvec x)) (i : Nat) :
    Bit I (mkBitOf i t) (x.getLsbD i) := by
  have hwidth : ((i : Int) - i + 1).toNat = 1 := by omega
  rw [Bit, value_mkExtract h]
  refine congrArg some (bitvec_eq_of_toNat hwidth ?_)
  rw [hwidth, BitVec.extractLsb'_toNat, Int.toNat_natCast, BitVec.toNat_ofBool, getLsbD,
    Nat.toNat_testBit, Nat.shiftRight_eq_div_pow, Nat.pow_one]

lemma type_of_value {T S : Ty} {x : Dom I.U T} (ht : value I t = some ⟨T, x⟩)
    (hS : typeof Γ t = some S) : S = T := by
  obtain ⟨y, hy⟩ := value_of_typeof I hS
  exact congrArg Sigma.fst (some.inj (hy.symm.trans ht))

lemma bvBitwidth_of_value {w : Nat} (ht : value I t = some (Val.bitvec x))
    (hw : bvBitwidth Γ t = some w) : w = n := by
  obtain ⟨T, hT, hw⟩ := bind_inv hw
  rw [type_of_value ht hT] at hw
  exact (some.inj hw).symm

section Nary

variable {s : Sym} {op : ∀ w, BitVec w → BitVec w → BitVec w}

/-- The nil terminator that an application gets from its first argument. -/
lemma BvNary.nilFor_of_value (hop : BvNary I s op) {nil : Term} {x : BitVec n}
    (ht : value I t = some (Val.bitvec x)) (h : EthosCpc.nilFor Γ s t = some nil) :
    ∃ v, nil = .bin n v ∧ ∀ y, op n y v = y := by
  obtain ⟨T, hT, _⟩ := bind_inv ((if_pos hop.par).symm.trans h)
  rw [type_of_value ht hT] at hT
  exact hop.nilFor hT h

lemma BvNary.value_bop_inv (hop : BvNary I s op) {x : BitVec n}
    (h : value I (bop s t u) = some (Val.bitvec x)) :
    ∃ p q : BitVec n, value I t = some (Val.bitvec p) ∧ value I u = some (Val.bitvec q) ∧
      x = op n p q := by
  obtain ⟨_, _, ht, hu, hv⟩ := EthosCpc.value_bop_inv I hop.arity h
  rw [hop.val] at hv
  obtain ⟨w, p, q, heq, hx⟩ := vBv2_inv hv
  cases heq
  obtain rfl := Val.width_eq hx
  exact ⟨p, q, ht, hu, Val.bitvec_inj.1 hx⟩

lemma BvNary.bitvec_of_bop (hop : BvNary I s op) {v : Val I.U}
    (h : value I (bop s t u) = some v) : ∃ (n : Nat) (x : BitVec n), v = Val.bitvec x := by
  obtain ⟨_, _, _, _, hv⟩ := EthosCpc.value_bop_inv I hop.arity h
  rw [hop.val] at hv
  obtain ⟨w, p, q, _, hx⟩ := vBv2_inv hv
  exact ⟨w, _, hx⟩

lemma BvNary.value_singletonElim (hop : BvNary I s op) {x : BitVec n}
    (ht : value I t = some (Val.bitvec x)) (hr : listSingletonElim Γ s t = some r) :
    value I r = some (Val.bitvec x) := by
  obtain ⟨nil, hnil, hr⟩ := bind_inv hr
  obtain ⟨v, rfl, hv⟩ := hop.nilFor_of_value ht hnil
  rcases eoListSingletonElim_spec hr with rfl | rfl
  · exact ht
  obtain ⟨p, q, hp, hq, rfl⟩ := hop.value_bop_inv ht
  obtain rfl : v = q := Val.bitvec_inj.1 (some.inj hq)
  rw [hp, hv]

lemma BvNary.value_mkNary_nil (hop : BvNary I s op) {x : BitVec n}
    (ht : value I t = some (Val.bitvec x)) (hr : mkNary Γ s t [] = some r) :
    value I r = some (Val.bitvec x) := by
  obtain ⟨nil, hnil, rfl⟩ := mkNary_inv hr
  obtain ⟨v, rfl, hv⟩ := hop.nilFor_of_value ht hnil
  rw [prependNAryChildren_nil, hop.value_bop ht (value_bin I n v), hv]

lemma BvNary.value_mkNary (hop : BvNary I s op) {x y : BitVec n}
    (ht : value I t = some (Val.bitvec x)) (hu : value I u = some (Val.bitvec y))
    (hr : mkNary Γ s t [u] = some r) : value I r = some (Val.bitvec (op n x y)) := by
  obtain ⟨nil, hnil, rfl⟩ := mkNary_inv hr
  obtain ⟨v, rfl, hv⟩ := hop.nilFor_of_value ht hnil
  rw [prependNAryChildren_cons, prependNAryChildren_nil,
    hop.value_bop ht (hop.value_bop hu (value_bin I n v)), hv]

end Nary

variable {p q : Bool}

lemma Bit.or (ht : Bit I t p) (hu : Bit I u q)
    (hr : mkNary Γ .bvor t [u] = some r) : Bit I r (p || q) := by
  rw [Bit, bvNary_bvor.value_mkNary ht hu hr, BitVec.ofBool_or_ofBool]

lemma Bit.and (ht : Bit I t p) (hu : Bit I u q)
    (hr : mkNary Γ .bvand t [u] = some r) : Bit I r (p && q) := by
  rw [Bit, bvNary_bvand.value_mkNary ht hu hr, BitVec.ofBool_and_ofBool]

lemma Bit.xor (ht : Bit I t p) (hu : Bit I u q)
    (hr : mkNary Γ .bvxor t [u] = some r) : Bit I r (p ^^ q) := by
  rw [Bit, bvNary_bvxor.value_mkNary ht hu hr, BitVec.ofBool_xor_ofBool]

lemma Bit.value_eq_one {p : Bool} (ht : Bit I t p) :
    value I (bop .eq t (.bin 1 1#1)) = some (Val.bool p) := by
  rw [value_bop I rfl, ht, value_bin]
  have htruth : truth (ofBool p = 1#1) = p := by
    rw [eq_comm, eq_truth]
    cases p <;> decide
  have hveq : vEq [Val.bitvec (ofBool p), Val.bitvec 1#1] =
      some (Val.bool (U := I.U) (truth (ofBool p = 1#1))) := rfl
  exact hveq.trans (by rw [htruth])

/-! ## Unsigned overflow -/

variable {a b c G : Term}

lemma bit_umuloElimRec {res : Term} {x y : BitVec n} {p : Bool}
    (ha : value I a = some (Val.bitvec x)) (hb : value I b = some (Val.bitvec y))
    (hres : Bit I res p) {k i : Nat} {uppc : Term} {q : Bool} (hik : i + k = n)
    (huppc : Bit I uppc q) (hq : q = true ↔ ∃ l, n - i ≤ l ∧ x.getLsbD l = true)
    (hr : bvUmuloElimRec Γ a b res uppc i k = some r) :
    ∃ p', Bit I r p' ∧ (p' = true ↔ p = true ∨
      ∃ j l, i ≤ j ∧ y.getLsbD j = true ∧ x.getLsbD l = true ∧ n ≤ j + l) := by
  induction k generalizing i uppc q r with
  | zero =>
    cases hr
    refine ⟨p, hres, ?_⟩
    constructor
    · exact .inl
    rintro (hp | ⟨j, l, hj, hy, -⟩)
    · exact hp
    · rw [getLsbD_of_ge y j (by omega)] at hy
      contradiction
  | succ k ih =>
    obtain ⟨uppcn, huppcn, hr⟩ := bind_inv hr
    obtain ⟨conj, hconj, hr⟩ := bind_inv hr
    obtain ⟨rest, hrest, rfl⟩ := map_inv hr
    have hq' : (x.getLsbD k || q) = true ↔ ∃ l, n - (i + 1) ≤ l ∧ x.getLsbD l = true := by
      rw [or_eq_true, hq]
      constructor
      · rintro (hk | ⟨l, hl, hx⟩)
        · exact ⟨k, by omega, hk⟩
        · exact ⟨l, by omega, hx⟩
      rintro ⟨l, hl, hx⟩
      by_cases hlk : l = k
      · exact .inl (hlk ▸ hx)
      · exact .inr ⟨l, by omega, hx⟩
    obtain ⟨p', hp', hiff⟩ := ih (by omega) ((bit_mkBitOf ha k).or huppc huppcn) hq' hrest
    refine ⟨(y.getLsbD i && q) || p', ?_, ?_⟩
    · rw [Bit, bvNary_bvor.value_bop ((bit_mkBitOf hb i).and huppc hconj) hp',
        BitVec.ofBool_or_ofBool]
    rw [or_eq_true, and_eq_true, hiff, hq]
    constructor
    · rintro (⟨hy, l, hl, hx⟩ | hp | ⟨j, l, hj, hy, hx, hjl⟩)
      · exact .inr ⟨i, l, le_refl i, hy, hx, by omega⟩
      · exact .inl hp
      · exact .inr ⟨j, l, by omega, hy, hx, hjl⟩
    rintro (hp | ⟨j, l, hj, hy, hx, hjl⟩)
    · exact .inr (.inl hp)
    by_cases hji : j = i
    · exact .inl ⟨hji ▸ hy, l, by omega, hx⟩
    · exact .inr (.inr ⟨j, l, by omega, hy, hx, hjl⟩)

lemma value_concat_zero {za : Term} (ha : value I a = some (Val.bitvec x))
    (hza : mkNary Γ .concat (.bin 1 0#1) [a] = some za) :
    value I za = some (Val.bitvec (x.setWidth (n + 1))) := by
  obtain ⟨nil, hnil, rfl⟩ := mkNary_inv hza
  obtain rfl : nil = .bin 0 0#0 := (some.inj hnil).symm
  rw [prependNAryChildren_cons, prependNAryChildren_nil, value_bop I rfl, value_bop I rfl,
    value_bin, value_bin, ha]
  refine congrArg some (bitvec_eq_of_toNat (by omega) ?_)
  rw [toNat_append, toNat_append, toNat_setWidth]
  have hlt : x.toNat < 2 ^ (n + 1) := Nat.lt_of_lt_of_le x.isLt (Nat.pow_le_pow_right (by decide)
    (Nat.le_succ n))
  simp [Nat.mod_eq_of_lt hlt]

lemma value_umuloElim {x y : BitVec n} (ha : value I a = some (Val.bitvec x))
    (hb : value I b = some (Val.bitvec y)) (hc : bvUmuloElim Γ a b = some c) :
    value I c = some (Val.bool (x.umulOverflow y)) := by
  obtain ⟨w, hw, hc⟩ := bind_inv hc
  obtain rfl := bvBitwidth_of_value ha hw
  match w, x, y, ha, hb, hc with
  | 1, x, y, ha, hb, hc =>
    obtain rfl := some.inj hc
    have hfalse : x.umulOverflow y = false := by
      have hx := x.isLt
      have hy := y.isLt
      rw [BitVec.umulOverflow, decide_eq_false_iff_not]
      have hmul : x.toNat * y.toNat ≤ 1 * 1 := Nat.mul_le_mul (by omega) (by omega)
      omega
    rw [hfalse]
    rfl
  | w + 2, x, y, ha, hb, hc =>
    obtain ⟨za, hza, hc⟩ := bind_inv hc
    obtain ⟨zb, hzb, hc⟩ := bind_inv hc
    obtain ⟨mul, hmul, hc⟩ := bind_inv hc
    obtain ⟨res0, hres0, hc⟩ := bind_inv hc
    obtain ⟨res, hres, rfl⟩ := map_inv hc
    have hmulv := bvNary_bvmul.value_mkNary (value_concat_zero ha hza) (value_concat_zero hb hzb)
      hmul
    have hres0v := bvNary_bvor.value_mkNary_nil (bit_mkBitOf hmulv (w + 2)) hres0
    have hq : x.getLsbD (w + 1) = true ↔ ∃ l, w + 2 - 1 ≤ l ∧ x.getLsbD l = true := by
      constructor
      · intro hx
        exact ⟨w + 1, by omega, hx⟩
      rintro ⟨l, hl, hx⟩
      by_cases hlw : l = w + 1
      · exact hlw ▸ hx
      · rw [getLsbD_of_ge x l (by omega)] at hx
        contradiction
    obtain ⟨p, hp, hiff⟩ := bit_umuloElimRec ha hb hres0v (by omega) (bit_mkBitOf ha (w + 1)) hq
      hres
    rw [hp.value_eq_one]
    congr 2
    rw [Bool.eq_iff_iff, hiff, BitVec.umulOverflow, decide_eq_true_iff, ge_iff_le,
      umul_overflow_iff x.isLt y.isLt]
    have hxlt : x.toNat < 2 ^ (w + 2 + 1) :=
      Nat.lt_of_lt_of_le x.isLt (Nat.pow_le_pow_right (by decide) (Nat.le_succ _))
    have hylt : y.toNat < 2 ^ (w + 2 + 1) :=
      Nat.lt_of_lt_of_le y.isLt (Nat.pow_le_pow_right (by decide) (Nat.le_succ _))
    have htop : (x.setWidth (w + 2 + 1) * y.setWidth (w + 2 + 1)).getLsbD (w + 2) =
        (x.toNat * y.toNat % 2 ^ (w + 2 + 1)).testBit (w + 2) := by
      rw [getLsbD, toNat_mul, toNat_setWidth, toNat_setWidth,
        Nat.mod_eq_of_lt hxlt, Nat.mod_eq_of_lt hylt]
    rw [htop]
    -- the loop starts at bit one of `b`: bit zero would need a bit of `a` past its width
    apply or_congr_right
    constructor
    · rintro ⟨j, l, -, hy, hx, hjl⟩
      exact ⟨j, l, hy, hx, hjl⟩
    rintro ⟨j, l, hy, hx, hjl⟩
    refine ⟨j, l, ?_, hy, hx, hjl⟩
    by_contra hj
    have hxl : x.getLsbD l = true := hx
    rw [getLsbD_of_ge x l (by omega)] at hxl
    contradiction

/-! ## Signed overflow -/

/-- The value without its sign bit, as the rule computes it. -/
def magBits (x : BitVec n) : BitVec n := if x.msb then ~~~ x else x

lemma toNat_magBits (x : BitVec n) : (magBits x).toNat = mag x.toInt := by
  have hlt := x.isLt
  rw [magBits, mag, BitVec.toInt_eq_msb_cond]
  cases x.msb
  · rw [if_neg Bool.false_ne_true, if_neg Bool.false_ne_true, if_neg (by omega)]
    omega
  · rw [if_pos rfl, if_pos rfl, toNat_not, if_pos (by omega)]
    omega

lemma mag_toInt_lt {t : Nat} (x : BitVec (t + 1)) : mag x.toInt < 2 ^ t := by
  have hmsb := BitVec.msb_eq_decide x
  have hpow : 2 ^ (t + 1) = 2 * 2 ^ t := Nat.pow_succ'
  have hlt := x.isLt
  rw [← toNat_magBits, magBits]
  rw [Nat.add_sub_cancel] at hmsb
  cases hm : x.msb
  · rw [hm, eq_comm, decide_eq_false_iff_not] at hmsb
    rw [if_neg Bool.false_ne_true]
    omega
  · rw [hm, eq_comm, decide_eq_true_iff] at hmsb
    rw [if_pos rfl, toNat_not]
    omega

lemma getLsbD_magBits_of_ge {t l : Nat} (x : BitVec (t + 1)) (hl : t ≤ l) :
    (magBits x).getLsbD l = false := by
  rw [getLsbD, toNat_magBits]
  exact Nat.testBit_lt_two_pow (Nat.lt_of_lt_of_le (mag_toInt_lt x)
    (Nat.pow_le_pow_right (by decide) hl))

lemma value_magBits {xa : Term} {t : Nat} {x : BitVec (t + 1)}
    (ha : value I a = some (Val.bitvec x))
    (hxa : mkNary Γ .bvxor a [bop .signExtend (.num t) (mkBitOf t a)] = some xa) :
    value I xa = some (Val.bitvec (magBits x)) := by
  have hsign : value I (bop .signExtend (.num t) (mkBitOf t a)) =
      some (Val.bitvec (if x.msb then BitVec.allOnes (t + 1) else 0#(t + 1))) := by
    have hbit : value I (mkBitOf t a) = some (Val.bitvec (ofBool x.msb)) := by
      rw [BitVec.msb_eq_getLsbD_last, Nat.add_sub_cancel]
      exact bit_mkBitOf ha t
    rw [value_bop I rfl, value_num, hbit]
    refine congrArg some (bitvec_eq_of_toNat (by rw [Int.toNat_natCast, Nat.add_comm]) ?_)
    rw [Int.toNat_natCast, Nat.add_comm 1 t]
    cases x.msb
    · have hzero : (ofBool false).toInt = 0 := rfl
      rw [BitVec.signExtend, hzero, if_neg Bool.false_ne_true]
      rfl
    · have hones : (ofBool true).toInt = -1 := rfl
      rw [BitVec.signExtend, hones, if_pos rfl]
      exact congrArg BitVec.toNat (BitVec.ofInt_negSucc_eq_not_ofNat.trans BitVec.not_zero)
  rw [bvNary_bvxor.value_mkNary ha hsign hxa, magBits]
  cases x.msb
  · rw [if_neg Bool.false_ne_true, if_neg Bool.false_ne_true, BitVec.xor_zero]
  · rw [if_pos rfl, if_pos rfl, BitVec.xor_allOnes]

lemma bit_mulTop {mul top : Term} {t : Nat} {x y : BitVec (t + 1)}
    (ha : value I a = some (Val.bitvec x)) (hb : value I b = some (Val.bitvec y))
    (hmul : mkNary Γ .bvmul (bop .signExtend (.num 1) a) [bop .signExtend (.num 1) b] = some mul)
    (htop : mkNary Γ .bvxor (mkBitOf (t + 1) mul) [mkBitOf t mul] = some top) :
    ∃ p, Bit I top p ∧ (p = true ↔
      (x.toInt * y.toInt % (2 : Int) ^ (t + 2)).toNat / 2 ^ (t + 1) % 2 ≠
        (x.toInt * y.toInt % (2 : Int) ^ (t + 2)).toNat / 2 ^ t % 2) := by
  have hext : ∀ {c : Term} {z : BitVec (t + 1)}, value I c = some (Val.bitvec z) →
      value I (bop .signExtend (.num 1) c) = some (Val.bitvec (BitVec.ofInt (t + 2) z.toInt)) := by
    intro c z hc
    rw [value_bop I rfl, value_num, hc]
    rfl
  have hmulv := bvNary_bvmul.value_mkNary (hext ha) (hext hb) hmul
  rw [← BitVec.ofInt_mul] at hmulv
  refine ⟨_, (bit_mkBitOf hmulv (t + 1)).xor (bit_mkBitOf hmulv t) htop, ?_⟩
  have hcast : ((2 ^ (t + 2) : Nat) : Int) = (2 : Int) ^ (t + 2) := by push_cast; rfl
  rw [getLsbD, getLsbD, BitVec.toNat_ofInt, hcast,
    Nat.testBit_eq_decide_div_mod_eq, Nat.testBit_eq_decide_div_mod_eq]
  generalize (x.toInt * y.toInt % (2 : Int) ^ (t + 2)).toNat = z
  have h1 := Nat.mod_two_eq_zero_or_one (z / 2 ^ (t + 1))
  have h2 := Nat.mod_two_eq_zero_or_one (z / 2 ^ t)
  rcases h1 with h1 | h1 <;> rcases h2 with h2 | h2 <;> rw [h1, h2] <;> decide

/-- The loop of `bv-smulo-elim` up to bit `i` of the second argument: `ppc` tells whether
a bit of the first one from `t - i` on is set. -/
lemma bit_smuloElimRec {xa xb : Term} {t : Nat} {x y : BitVec n}
    (ha : value I xa = some (Val.bitvec x)) (hb : value I xb = some (Val.bitvec y))
    {k i : Nat} {ppc res : Term} (hik : i + k + 1 = t)
    (hppc : Bit I ppc q) (hq : q = true ↔ ∃ l, t - i ≤ l ∧ x.getLsbD l = true)
    (hres : Bit I res p) (hp : p = true ↔
      ∃ j l, 1 ≤ j ∧ j ≤ i ∧ y.getLsbD j = true ∧ x.getLsbD l = true ∧ t ≤ j + l)
    (hr : bvSmuloElimRec Γ xa xb ppc res i k = some r) :
    ∃ p', Bit I r p' ∧ (p' = true ↔
      ∃ j l, 1 ≤ j ∧ j < t ∧ y.getLsbD j = true ∧ x.getLsbD l = true ∧ t ≤ j + l) := by
  induction k generalizing i ppc res p q with
  | zero =>
    cases hr
    refine ⟨p, hres, hp.trans ?_⟩
    have hlt : ∀ j, j ≤ i ↔ j < t := by omega
    simp only [hlt]
  | succ k ih =>
    obtain ⟨ppcn, hppcn, hr⟩ := bind_inv hr
    obtain ⟨conj, hconj, hr⟩ := bind_inv hr
    obtain ⟨resn, hresn, hr⟩ := bind_inv hr
    have hq' : (q || x.getLsbD (k + 1)) = true ↔ ∃ l, t - (i + 1) ≤ l ∧ x.getLsbD l = true := by
      rw [or_eq_true, hq]
      constructor
      · rintro (⟨l, hl, hx⟩ | hk)
        · exact ⟨l, by omega, hx⟩
        · exact ⟨k + 1, by omega, hk⟩
      rintro ⟨l, hl, hx⟩
      by_cases hlk : l = k + 1
      · exact .inr (hlk ▸ hx)
      · exact .inl ⟨l, by omega, hx⟩
    have hppc' := hppc.or (bit_mkBitOf ha (k + 1)) hppcn
    refine ih (by omega) hppc' hq' (hres.or ((bit_mkBitOf hb (i + 1)).and hppc' hconj) hresn) ?_ hr
    rw [or_eq_true, and_eq_true, hq', hp]
    constructor
    · rintro (⟨j, l, hj, hji, hy, hx, hjl⟩ | ⟨hy, l, hl, hx⟩)
      · exact ⟨j, l, hj, by omega, hy, hx, hjl⟩
      · exact ⟨i + 1, l, by omega, le_refl _, hy, hx, by omega⟩
    rintro ⟨j, l, hj, hji, hy, hx, hjl⟩
    by_cases hlast : j = i + 1
    · exact .inr ⟨hlast ▸ hy, l, by omega, hx⟩
    · exact .inl ⟨j, l, hj, by omega, hy, hx, hjl⟩

lemma smulOverflow_iff {t : Nat} (x y : BitVec (t + 1)) : x.smulOverflow y = true ↔
      (x.toInt * y.toInt % (2 : Int) ^ (t + 2)).toNat / 2 ^ (t + 1) % 2 ≠
          (x.toInt * y.toInt % (2 : Int) ^ (t + 2)).toNat / 2 ^ t % 2 ∨
        ∃ j l, (magBits y).getLsbD j = true ∧ (magBits x).getLsbD l = true ∧ t ≤ j + l := by
  have hoverflow := smul_overflow_iff (mag_toInt_lt x) (mag_toInt_lt y)
  rw [← toNat_magBits, ← toNat_magBits] at hoverflow
  rw [BitVec.smulOverflow, Nat.add_sub_cancel, or_eq_true, decide_eq_true_iff,
    decide_eq_true_iff]
  exact hoverflow

lemma ofBool_getLsbD_zero (x : BitVec 1) : ofBool (x.getLsbD 0) = x := by
  obtain rfl | rfl := BitVec.eq_zero_or_eq_one x <;> rfl

lemma smulOverflow_one (x y : BitVec 1) : x.smulOverflow y = (x &&& y).getLsbD 0 := by
  obtain rfl | rfl := BitVec.eq_zero_or_eq_one x <;> obtain rfl | rfl := BitVec.eq_zero_or_eq_one y <;>
    decide

lemma value_smuloElim {x y : BitVec n} (ha : value I a = some (Val.bitvec x))
    (hb : value I b = some (Val.bitvec y)) (hc : bvSmuloElim Γ a b = some c) :
    value I c = some (Val.bool (x.smulOverflow y)) := by
  obtain ⟨w, hw, hc⟩ := bind_inv hc
  obtain rfl := bvBitwidth_of_value ha hw
  match w, x, y, ha, hb, hc with
  | 1, x, y, ha, hb, hc =>
    obtain ⟨conj, hconj, rfl⟩ := map_inv hc
    have hbit : Bit I conj ((x &&& y).getLsbD 0) := by
      rw [Bit, bvNary_bvand.value_mkNary ha hb hconj, ofBool_getLsbD_zero]
    rw [hbit.value_eq_one, smulOverflow_one]
  | 2, x, y, ha, hb, hc =>
    obtain ⟨mul, hmul, hc⟩ := bind_inv hc
    obtain ⟨top, htop, rfl⟩ := map_inv hc
    obtain ⟨p, hp, hiff⟩ := bit_mulTop (t := 1) ha hb hmul htop
    rw [hp.value_eq_one]
    congr 2
    rw [Bool.eq_iff_iff, hiff, smulOverflow_iff (t := 1), or_iff_left]
    -- one bit besides the sign: no two positions reach the threshold
    rintro ⟨j, l, hy, hx, hjl⟩
    by_cases hj : 1 ≤ j
    · rw [getLsbD_magBits_of_ge (t := 1) y hj] at hy
      contradiction
    · rw [getLsbD_magBits_of_ge (t := 1) x (by omega)] at hx
      contradiction
  | w + 3, x, y, ha, hb, hc =>
    obtain ⟨mul, hmul, hc⟩ := bind_inv hc
    obtain ⟨xa, hxa, hc⟩ := bind_inv hc
    obtain ⟨xb, hxb, hc⟩ := bind_inv hc
    obtain ⟨res0, hres0, hc⟩ := bind_inv hc
    obtain ⟨res, hres, hc⟩ := bind_inv hc
    obtain ⟨top, htop, hc⟩ := bind_inv hc
    obtain ⟨last, hlast, rfl⟩ := map_inv hc
    obtain ⟨p, hp, htopiff⟩ := bit_mulTop (t := w + 2) ha hb hmul htop
    have hxav := value_magBits (t := w + 2) ha hxa
    have hxbv := value_magBits (t := w + 2) hb hxb
    have hppc : (magBits x).getLsbD (w + 1) = true ↔
        ∃ l, w + 2 - 1 ≤ l ∧ (magBits x).getLsbD l = true := by
      constructor
      · intro hx
        exact ⟨w + 1, by omega, hx⟩
      rintro ⟨l, hl, hx⟩
      by_cases hlw : l = w + 1
      · exact hlw ▸ hx
      · rw [getLsbD_magBits_of_ge (t := w + 2) x (by omega)] at hx
        contradiction
    have hstart : ((magBits y).getLsbD 1 && (magBits x).getLsbD (w + 1)) = true ↔
        ∃ j l, 1 ≤ j ∧ j ≤ 1 ∧ (magBits y).getLsbD j = true ∧
          (magBits x).getLsbD l = true ∧ w + 2 ≤ j + l := by
      rw [Bool.and_eq_true, hppc]
      constructor
      · rintro ⟨hy, l, hl, hx⟩
        exact ⟨1, l, le_refl 1, le_refl 1, hy, hx, by omega⟩
      rintro ⟨j, l, hj, hj1, hy, hx, hjl⟩
      obtain rfl : j = 1 := by omega
      exact ⟨hy, l, by omega, hx⟩
    obtain ⟨q, hq, hqiff⟩ := bit_smuloElimRec (t := w + 2) hxav hxbv (by omega)
      (bit_mkBitOf hxav (w + 1)) hppc
      ((bit_mkBitOf hxbv 1).and (bit_mkBitOf hxav (w + 1)) hres0) hstart hres
    rw [(hq.or hp hlast).value_eq_one]
    congr 2
    rw [Bool.eq_iff_iff, or_eq_true, hqiff, htopiff, smulOverflow_iff (t := w + 2), or_comm]
    -- the positions that the loop leaves out have no bit set, or no partner
    apply or_congr_right
    constructor
    · rintro ⟨j, l, -, -, hy, hx, hjl⟩
      exact ⟨j, l, hy, hx, hjl⟩
    rintro ⟨j, l, hy, hx, hjl⟩
    refine ⟨j, l, ?_, ?_, hy, hx, hjl⟩
    · by_contra hj
      rw [getLsbD_magBits_of_ge (t := w + 2) x (by omega)] at hx
      contradiction
    by_contra hj
    rw [getLsbD_magBits_of_ge (t := w + 2) y (by omega)] at hy
    contradiction

/-! ## Repetition -/

lemma value_unfoldRepeatRec (ht : value I t = some (Val.bitvec x)) (k : Nat) :
    value I (bvUnfoldRepeatRec t k) = some (Val.bitvec (x.replicate k)) := by
  induction k with
  | zero =>
    rw [bvUnfoldRepeatRec, value_bin]
    exact congrArg some (bitvec_eq_of_toNat rfl (by rw [BitVec.replicate_zero]))
  | succ k ih =>
    rw [bvUnfoldRepeatRec, value_bop I rfl, ht, ih]
    refine congrArg some (bitvec_eq_of_toNat (by rw [Nat.mul_succ, Nat.add_comm]) ?_)
    rw [BitVec.replicate_succ, BitVec.toNat_cast]

lemma value_unfoldRepeat {m : Term} {k : Int} (hm : value I m = some (Val.int k))
    (ht : value I t = some (Val.bitvec x)) (hr : bvUnfoldRepeat m t = some r) :
    value I r = some (Val.bitvec (x.replicate k.toNat)) := by
  have hrepeat : value I (bop .bvrepeat m t) = some (Val.bitvec (x.replicate k.toNat)) := by
    rw [value_bop I rfl, hm, ht]
    rfl
  unfold bvUnfoldRepeat at hr
  split at hr
  swap
  · obtain ⟨_, -, rfl⟩ := map_inv hr
    exact hrepeat
  rename_i i
  obtain rfl : i = k := Val.int_inj.1 (some.inj hm)
  split at hr
  · cases hr
    exact hrepeat
  · cases hr
    exact value_unfoldRepeatRec ht i.toNat

lemma value_concatElim (ht : value I t = some (Val.bitvec x))
    (hr : listSingletonElim Γ .concat t = some r) : value I r = some (Val.bitvec x) :=
  ListModel.read_eq_some.1 (ListModel.read_listSingletonElim (L := concatModel I n) (m := ⟨n, x⟩)
    (ListModel.read_eq_some.2 ht) hr)

/-- An equality is true when its right side has every value of its left side. -/
lemma sat_eq_of_value (hty : typeof Γ (bop .eq a b) = some .bool)
    (h : ∀ v, value I a = some v → value I b = some v) : Sat I (bop .eq a b) := by
  obtain ⟨T, _, _, x, _, hx, _⟩ := values_of_eq (I := I) hty
  exact sat_eq.2 ⟨_, hx, h _ hx⟩

lemma sat_of_bvRepeatElim {m : Term} (h : bvRepeatElim Γ m a b = some G)
    (hty : typeof Γ G = some .bool) : Sat I G := by
  unfold bvRepeatElim at h
  split at h
  swap
  · cases h
  rename_i hb
  cases h
  obtain ⟨r, hr, hb⟩ := bind_inv hb
  apply sat_eq_of_value hty
  intro v hv
  obtain ⟨_, _, hm, ha, hv⟩ := value_bop_inv I rfl hv
  obtain ⟨k, w, x, heq, rfl⟩ := vBvIdx_inv
    (show vBvIdx (fun i _ x => .bitvec (x.replicate i)) _ = some v from hv)
  cases heq
  exact value_concatElim (value_unfoldRepeat hm ha hr) hb

lemma sat_of_bvUmuloElim (h : bvUmuloElimRule Γ a b c = some G)
    (hty : typeof Γ G = some .bool) : Sat I G := by
  unfold bvUmuloElimRule at h
  split at h
  swap
  · cases h
  rename_i hc
  cases h
  apply sat_eq_of_value hty
  intro v hv
  obtain ⟨_, _, ha, hb, hv⟩ := value_bop_inv I rfl hv
  obtain ⟨w, x, y, heq, rfl⟩ := vBv2_inv
    (show vBv2 (fun _ x y => .bool (x.umulOverflow y)) _ = some v from hv)
  cases heq
  exact value_umuloElim ha hb hc

lemma sat_of_bvSmuloElim (h : bvSmuloElimRule Γ a b c = some G)
    (hty : typeof Γ G = some .bool) : Sat I G := by
  unfold bvSmuloElimRule at h
  split at h
  swap
  · cases h
  rename_i hc
  cases h
  apply sat_eq_of_value hty
  intro v hv
  obtain ⟨_, _, ha, hb, hv⟩ := value_bop_inv I rfl hv
  obtain ⟨w, x, y, heq, rfl⟩ := vBv2_inv
    (show vBv2 (fun _ x y => .bool (x.smulOverflow y)) _ = some v from hv)
  cases heq
  exact value_smuloElim ha hb hc

/-! ## Slicing -/

/-- An operator that is commutative and computed position by position. -/
structure BvBitwise (I : Interp Γ) (s : Sym) (op : ∀ w, BitVec w → BitVec w → BitVec w) : Prop
    extends BvNary I s op where
  comm : ∀ w (x y : BitVec w), op w x y = op w y x
  ext : ∀ w (x y : BitVec w) k l, (op w x y).extractLsb' k l =
    op l (x.extractLsb' k l) (y.extractLsb' k l)

lemma exists_bvBitwise (I : Interp Γ) {f : Sym} (hf : bvIsBitwiseSlicingOp f = true) :
    ∃ op, BvBitwise I f op := by
  rw [bvIsBitwiseSlicingOp, or_eq_true, or_eq_true, decide_eq_true_iff,
    decide_eq_true_iff, decide_eq_true_iff] at hf
  obtain (rfl | rfl) | rfl := hf
  · exact ⟨_, { bvNary_bvand with
      comm := fun _ => BitVec.and_comm
      ext := fun _ _ _ _ _ => BitVec.extractLsb'_and }⟩
  · exact ⟨_, { bvNary_bvor with
      comm := fun _ => BitVec.or_comm
      ext := fun _ _ _ _ _ => BitVec.extractLsb'_or }⟩
  exact ⟨_, { bvNary_bvxor with
    comm := fun _ => BitVec.xor_comm
    ext := fun _ _ _ _ _ => BitVec.extractLsb'_xor }⟩

section Slicing

variable {f : Sym} {op : ∀ w, BitVec w → BitVec w → BitVec w}

/-- The pieces from position `start` down, whatever the cuts are. -/
lemma value_slicingRec (hop : BvBitwise I f op) {c a : Term} {v x : BitVec n}
    (hc : value I c = some (Val.bitvec v)) (ha : value I a = some (Val.bitvec x))
    {bs bn : Term} {start stop : Int} (hstop : -1 ≤ stop) (hle : stop ≤ start)
    (hr : bvMkBitwiseSlicingRec Γ f c a bs bn start stop = some r) :
    value I r = some (Val.bitvec ((op n v x).extractLsb' 0 (start + 1).toNat)) := by
  have hpiece : ∀ {hi lo : Int} {p : Term},
      mkNary Γ f (mkExtract hi lo c) [mkExtract hi lo a] = some p →
        value I p = some (Val.bitvec ((op n v x).extractLsb' lo.toNat (hi - lo + 1).toNat)) := by
    intro hi lo p hp
    rw [hop.ext]
    exact hop.value_mkNary (value_mkExtract hc) (value_mkExtract ha) hp
  fun_induction bvMkBitwiseSlicingRec Γ f c a bs bn start stop generalizing r with
  | case1 bs bn start =>
    obtain ⟨p, hp, rfl⟩ := map_inv hr
    have hwidth : start - 0 + 1 = start + 1 := by omega
    rw [value_bop I rfl, hpiece hp, value_bin, hwidth]
    refine congrArg some (bitvec_eq_of_toNat (Nat.add_zero _) ?_)
    rw [toNat_append]
    simp
  | case2 start stop hne b bs em1 =>
    rename_i ih
    exact ih (by omega) (by omega) hr
  | case3 bn start stop hne b bs em1 ep1 hb =>
    rename_i ih
    obtain ⟨p, hp, hr⟩ := bind_inv hr
    obtain ⟨q, hq, rfl⟩ := map_inv hr
    rw [value_bop I rfl, hpiece hp, ih (by omega) (by omega) hq]
    have hlow : (stop + 1).toNat = 0 + (stop + 1).toNat := (Nat.zero_add _).symm
    have hwidth : (start - (stop + 1) + 1).toNat + (stop + 1).toNat = (start + 1).toNat := by omega
    refine congrArg some (bitvec_eq_of_toNat hwidth ?_)
    rw [BitVec.extractLsb'_append_extractLsb'_eq_extractLsb' hlow, hwidth]
  | case4 => contradiction

lemma firstConstChild_mem {c : Term} {w : Nat} {v : BitVec w} {xs : List Term}
    (hc : bvGetFirstConstChild (prependNAryChildren (.sym f) (.bin w v) xs) = some c) :
    c ∈ xs := by
  induction xs with
  | nil => contradiction
  | cons x xs ih =>
    rw [prependNAryChildren_cons, bvGetFirstConstChild] at hc
    split at hc
    · cases hc
      exact .head _
    · exact List.mem_cons_of_mem x (ih hc)

/-- Taking an element out of the list and combining it with the rest. -/
lemma BvBitwise.value_erase (hop : BvBitwise I f op) {xs : List Term} {c : Term} {e y : BitVec n}
    (hmem : c ∈ xs)
    (h : value I (prependNAryChildren (.sym f) (.bin n e) xs) = some (Val.bitvec y)) :
    ∃ p q : BitVec n, value I c = some (Val.bitvec p) ∧
      value I (prependNAryChildren (.sym f) (.bin n e) (xs.erase c)) = some (Val.bitvec q) ∧
      y = op n p q := by
  induction xs generalizing y with
  | nil => contradiction
  | cons x xs ih =>
    rw [prependNAryChildren_cons] at h
    obtain ⟨p, q, hp, hq, rfl⟩ := hop.value_bop_inv h
    by_cases hxc : x = c
    · rw [hxc, List.erase_cons_head]
      exact ⟨p, q, hxc ▸ hp, hq, rfl⟩
    obtain ⟨p', q', hp', hq', rfl⟩ := ih ((List.mem_cons.1 hmem).resolve_left (Ne.symm hxc)) hq
    rw [List.erase_cons_tail (by simpa using hxc), prependNAryChildren_cons]
    refine ⟨p', op n p q', hp', hop.value_bop hp hq', ?_⟩
    rw [← hop.assoc, ← hop.assoc, hop.comm n p p']

lemma value_mkBitwiseSlicing {a : Term} {y : Val I.U} (hy : value I a = some y)
    (hr : bvMkBitwiseSlicing Γ a = some r) : value I r = some y := by
  unfold bvMkBitwiseSlicing at hr
  split at hr
  swap
  · cases hr
  rename_i f a1 a2
  obtain ⟨c, hc, hr⟩ := bind_inv hr
  obtain ⟨hf, hr⟩ := eoRequires_eq_some.1 hr
  obtain ⟨op, hop⟩ := exists_bvBitwise I hf
  split at hr
  swap
  · cases hr
  rename_i w v _
  obtain ⟨t, ht, hr⟩ := bind_inv hr
  obtain ⟨bs, hbs, hr⟩ := bind_inv hr
  obtain ⟨bn, hbn, hr⟩ := bind_inv hr
  obtain ⟨r', hr', hr⟩ := bind_inv hr
  obtain ⟨rest, hrest, ht⟩ := bind_inv ht
  obtain ⟨nil, hnil, hrest⟩ := bind_inv hrest
  obtain ⟨n, x, rfl⟩ := hop.bitvec_of_bop hy
  obtain ⟨e, rfl, -⟩ := hop.nilFor_of_value hy hnil
  obtain ⟨xs, hxs, rfl⟩ := eoListErase_spec hrest
  have hlist : value I (bop f a1 a2) = some (Val.bitvec x) := hy
  rw [eq_of_getNAryChildren hxs] at hlist hc
  obtain ⟨p, q, hp, hq, rfl⟩ := hop.value_erase (firstConstChild_mem hc) hlist
  obtain rfl : w = n := Val.width_eq (some.inj hp)
  obtain rfl : v = p := Val.bitvec_inj.1 (some.inj hp)
  have hval := value_slicingRec hop (value_bin I w v) (hop.value_singletonElim hq ht) (by omega)
    (le_refl _) hr'
  have hwidth : ((w : Int) - 1 + 1).toNat = w := by omega
  rw [hwidth, BitVec.extractLsb'_eq_self] at hval
  exact value_concatElim hval hr

lemma sat_of_bvBitwiseSlicing {a b G : Term} (h : bvBitwiseSlicing Γ a b = some G)
    (hty : typeof Γ G = some .bool) : Sat I G := by
  unfold bvBitwiseSlicing at h
  split at h
  swap
  · cases h
  rename_i hb
  cases h
  apply sat_eq_of_value hty
  intro v hv
  exact value_mkBitwiseSlicing hv hb

end Slicing

/-! ## Equalities up to an odd factor -/

lemma mul_eq_zero_of_odd {v d : BitVec n} (hodd : v.toNat % 2 = 1) (h : v * d = 0#n) : d = 0#n := by
  have hcop : Nat.Coprime (2 ^ n) v.toNat :=
    Nat.Coprime.pow_left n (Nat.coprime_two_left.2 (Nat.odd_iff.2 hodd))
  have hmod := congrArg BitVec.toNat h
  rw [toNat_mul, toNat_ofNat, Nat.zero_mod] at hmod
  have hdvd := hcop.dvd_of_dvd_mul_left (Nat.dvd_of_mod_eq_zero hmod)
  apply BitVec.eq_of_toNat_eq
  rw [toNat_ofNat, Nat.zero_mod]
  exact Nat.eq_zero_of_dvd_of_lt hdvd d.isLt

/-- A bit-vector term that converts to an integer is a literal. -/
lemma bin_of_eoToZ {z : Int} (hz : eoToZ t = some z)
    (ht : value I t = some (Val.bitvec x)) : (x.toNat : Int) = z := by
  unfold eoToZ at hz
  split at hz
  · cases ht
  · cases ht
  · rename_i w v
    cases ht
    exact some.inj hz
  · cases ht
  · cases hz

lemma odd_of_isOddConst (ht : value I t = some (Val.bitvec x))
    (h : isOddConst t = true) : x.toNat % 2 = 1 := by
  obtain ⟨z, hz, hodd⟩ := (Option.any_eq_true _ _).1 h
  have hx := bin_of_eoToZ hz ht
  have := of_decide_eq_true hodd
  omega

/-- One side of the premise: the difference is zero when its product with an odd
constant is. -/
lemma value_oddMul {one : Term} (hodd : isOddConst c = true) (hone : eoToZ one = some 1)
    (h : value I (bop .bvmul c (bop .bvmul (bop .bvsub a b) one)) = some (Val.bitvec x)) :
    value I (bop .eq a b) = some (Val.bool (truth (x = 0#n))) := by
  obtain ⟨v, q, hv, hq, rfl⟩ := bvNary_bvmul.value_bop_inv h
  obtain ⟨d, e, hd, he, rfl⟩ := bvNary_bvmul.value_bop_inv hq
  obtain ⟨_, _, ha, hb, hsub⟩ := value_bop_inv I rfl hd
  obtain ⟨w, y, z, heq, hyz⟩ := vBv2_inv (show vBv2 (fun _ x y => .bitvec (x - y)) _ = _ from hsub)
  cases heq
  obtain rfl := Val.width_eq hyz
  obtain rfl : d = y - z := Val.bitvec_inj.1 hyz
  have hunit : e = 1#_ := by
    have he' := bin_of_eoToZ hone he
    have hlt := e.isLt
    apply BitVec.eq_of_toNat_eq
    rw [toNat_ofNat, Nat.mod_eq_of_lt (by omega)]
    omega
  have htruth : truth (v * ((y - z) * e) = 0#_) = truth (y = z) := by
    rw [truth_inj, hunit, BitVec.mul_one]
    constructor
    · intro hzero
      have hdiff := mul_eq_zero_of_odd (odd_of_isOddConst hv hodd) hzero
      rwa [BitVec.sub_eq_iff_eq_add, BitVec.zero_add] at hdiff
    · intro hyz
      rw [hyz, BitVec.sub_self, BitVec.mul_zero]
  rw [htruth, value_bop I rfl, ha, hb]
  exact dif_pos rfl

lemma sat_of_bvPolyNormEq {prem arg : Term} (h : bvPolyNormEq prem arg = some G)
    (hprem : Sat I prem) : Sat I G := by
  unfold bvPolyNormEq at h
  split at h
  swap
  · cases h
  rename_i cx xb1 xb2 one cy yb1 yb2 one' xa1 xa2 ya1 ya2
  split at h
  swap
  · cases h
  rename_i hcond
  obtain ⟨rfl, -, -, -, -, hone, hcx, hcy⟩ := hcond
  cases h
  obtain ⟨v, hx, hy⟩ := sat_eq.1 hprem
  obtain ⟨n, p, rfl⟩ := bvNary_bvmul.bitvec_of_bop hx
  exact sat_eq.2 ⟨_, value_oddMul hcx hone hx, value_oddMul hcy hone hy⟩

/-! ## Soundness of the rules -/

/-- Whenever one of the rules is applicable to a well-typed equality, the equality holds in
every interpretation; for `bv_poly_norm_eq`, in every interpretation of its premise. -/
theorem bvRewrites_sound (Γ : Nat → Ty) (I : Interp Γ) :
    (∀ n a b G, bvRepeatElim Γ n a b = some G → typeof Γ G = some .bool → Sat I G) ∧
    (∀ a b c G, bvSmuloElimRule Γ a b c = some G → typeof Γ G = some .bool → Sat I G) ∧
    (∀ a b c G, bvUmuloElimRule Γ a b c = some G → typeof Γ G = some .bool → Sat I G) ∧
    (∀ a b G, bvBitwiseSlicing Γ a b = some G → typeof Γ G = some .bool → Sat I G) ∧
    (∀ prem arg G, bvPolyNormEq prem arg = some G → typeof Γ G = some .bool → Sat I prem →
      Sat I G) := by
  refine ⟨?_, ?_, ?_, ?_, ?_⟩
  · intro n a b G h hty
    exact sat_of_bvRepeatElim h hty
  · intro a b c G h hty
    exact sat_of_bvSmuloElim h hty
  · intro a b c G h hty
    exact sat_of_bvUmuloElim h hty
  · intro a b G h hty
    exact sat_of_bvBitwiseSlicing h hty
  · intro prem arg G h _ hprem
    exact sat_of_bvPolyNormEq h hprem

/-- Two constants of one bit, both set. -/
noncomputable def oneBitInterp : Interp (fun _ => .bitvec 1) where
  U := fun _ => Unit
  const := fun _ => 1#1
  divByZero := fun _ => 0
  intDivByZero := fun _ => 0
  modByZero := fun _ => 0

/-- The circuit for two constants of one bit. -/
abbrev oneBitSmulo : Term :=
  bop .eq (bop .bvand (.const 0) (bop .bvand (.const 1) (.bin 1 1#1))) (.bin 1 1#1)

/-- Signed multiplication of two bits overflows when both are set. -/
theorem bvRewrites_sound_oneBit :
    bvSmuloElimRule (fun _ => .bitvec 1) (.const 0) (.const 1) oneBitSmulo =
      some (bop .eq (bop .bvsmulo (.const 0) (.const 1)) oneBitSmulo) ∧
    Sat oneBitInterp (bop .eq (bop .bvsmulo (.const 0) (.const 1)) oneBitSmulo) :=
  ⟨rfl, (bvRewrites_sound _ oneBitInterp).2.1 (.const 0) (.const 1) oneBitSmulo _ rfl rfl⟩

end EthosCpc
