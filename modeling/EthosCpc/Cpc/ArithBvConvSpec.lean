import EthosCpc.Cpc.ArithBvConv
import EthosCpc.Cpc.StrArithEntailSpec
import EthosCpc.Cpc.BvRewritesSpec

/-!
# Soundness of the conversions between integers and bit-vectors

The sum that `ubv-to-int-elim` builds from position `i` on is the number of
the bits from `i` on, and the concatenation that `int-to-bv-elim` builds for
`w` bits is the number modulo `2 ^ w`.  Both are inductions over the number
of bits that are left.
-/

namespace EthosCpc

open Term (bop uop)
open BitVec (ofInt)

variable {Γ : Nat → Ty} {I : Interp Γ} {b n m : Term} {w : Nat}

/-! ## From bit-vectors to integers -/

variable {x : BitVec w}

lemma value_extract_bit (hb : value I b = some (Val.bitvec x)) (i : Nat) :
    value I (.app (bop .extract (.num i) (.num i)) b) = some (Val.bitvec (x.extractLsb' i 1)) := by
  have hone : ((i : Int) - i + 1).toNat = 1 := by omega
  rw [value_top I rfl, value_num, hb]
  show some (Val.bitvec (x.extractLsb' i ((i : Int) - i + 1).toNat)) = _
  rw [hone]

lemma boolVal_bitIsOne (hb : value I b = some (Val.bitvec x)) (i : Nat) :
    BoolVal I (bitIsOne b i) (x.getLsbD i = true) := by
  have hbit : x.extractLsb' i 1 = 1#1 ↔ x.getLsbD i = true := by
    rw [BitVec.getLsbD_eq_extractLsb', beq_iff_eq]
  refine BoolVal.congr ?_ hbit
  unfold BoolVal bitIsOne
  rw [value_bop I rfl, value_extract_bit hb, value_bin]
  simp only [Option.bind_some, symVal.eq_def, vEq, dif_pos]
  rfl

lemma abconvUbvToIntElim_spec (hb : value I b = some (Val.bitvec x)) : ∀ (k i : Nat), i + k = w →
      IntVal I (abconvUbvToIntElim b k i (2 ^ i)) ((x.toNat / 2 ^ i * 2 ^ i : Nat) : Int) := by
  intro k
  induction k with
  | zero =>
    intro i hi
    have hlt : x.toNat < 2 ^ i := by
      rw [show i = w by omega]
      exact x.isLt
    rw [Nat.div_eq_of_lt hlt, Nat.zero_mul]
    exact intVal_num.2 rfl
  | succ k ih =>
    intro i hi
    have hrest := ih (i + 1) (by omega)
    have hbit : IntVal I (.app (bop .ite (bitIsOne b i) (.num (2 ^ i))) (.num 0))
        (if x.getLsbD i = true then 2 ^ i else 0) :=
      value_ite (boolVal_bitIsOne hb i) (value_num I _) (value_num I _)
    have hsplit : x.toNat / 2 ^ i * 2 ^ i =
        (if x.getLsbD i = true then 2 ^ i else 0) + x.toNat / 2 ^ (i + 1) * 2 ^ (i + 1) := by
      have hdiv : x.toNat / 2 ^ (i + 1) = x.toNat / 2 ^ i / 2 := by
        rw [Nat.pow_succ, Nat.div_div_eq_div_mul]
      have hlow : x.getLsbD i = decide (x.toNat / 2 ^ i % 2 = 1) := by
        rw [BitVec.getLsbD, Nat.testBit_eq_decide_div_mod_eq]
      rw [hdiv, hlow, Nat.pow_succ]
      generalize x.toNat / 2 ^ i = q
      have hq := Nat.div_add_mod q 2
      calc q * 2 ^ i = (2 * (q / 2) + q % 2) * 2 ^ i := by rw [hq]
        _ = q % 2 * 2 ^ i + q / 2 * (2 ^ i * 2) := by ring
        _ = _ := by
          rcases Nat.mod_two_eq_zero_or_one q with h | h
          · simp [h]
          · simp [h]
    have hsum := intVal_plus_iff.2 ⟨_, _, hbit, hrest, rfl⟩
    rw [hsplit]
    push_cast
    exact hsum

lemma intVal_listSingletonElim {a r : Term} {z : Int} (ha : IntVal I a z)
    (h : listSingletonElim Γ .plus a = some r) : IntVal I r z := by
  obtain ⟨nil, hnil, h⟩ := bind_inv h
  rcases eoListSingletonElim_spec h with rfl | rfl
  · exact ha
  obtain ⟨T, _, hnil⟩ := bind_inv hnil
  obtain ⟨x, y, hx, hy, rfl⟩ := intVal_plus_iff.1 ha
  have hzero := arithVal_zero (I := I) (T := T) hnil
  obtain ⟨_, hy0⟩ := (arithVal_int hy).unique hzero
  have hy0' : 0 = y := by exact_mod_cast hy0
  rw [← hy0', add_zero]
  exact hx

lemma ubvToIntElim_sat {F c : Term} (h : ubvToIntElim Γ F = some c) : Sat I c := by
  unfold ubvToIntElim at h
  split at h
  swap
  · cases h
  rename_i b m
  obtain ⟨T, hT, h⟩ := bind_inv h
  obtain ⟨w, hw, h⟩ := bind_inv h
  obtain ⟨hm, h⟩ := eoRequires_eq_some.1 h
  cases h
  obtain rfl : T = .bitvec w := by
    cases T with
    | bitvec w' => rw [Option.some.inj hw]
    | _ => contradiction
  obtain ⟨x, hx⟩ : ∃ x : BitVec w, value I b = some (Val.bitvec x) := value_of_typeof I hT
  have hsum : IntVal I (abconvUbvToIntElim b w 0 1) (x.toNat : Int) := by
    have h0 := abconvUbvToIntElim_spec hx w 0 (Nat.zero_add w)
    rw [Nat.pow_zero, Nat.div_one, Nat.mul_one] at h0
    exact h0
  have hval : IntVal I m (x.toNat : Int) := intVal_listSingletonElim hsum (of_decide_eq_true hm)
  refine sat_eq.2 ⟨Val.int x.toNat, ?_, hval⟩
  rw [value_uop I rfl, hx]
  rfl

/-! ## From integers to bit-vectors -/

lemma intVal_modTotal {n m : Term} {x y : Int} (hn : IntVal I n x) (hm : IntVal I m y) :
    IntVal I (bop .modTotal n m) (x % y) := by
  unfold IntVal
  rw [value_bop I rfl, show value I n = _ from hn, show value I m = _ from hm]
  rfl

/-- The top bit of a number modulo `2 ^ (w + 1)`, and what is left of it. -/
lemma emod_two_pow_succ (z : Int) (w : Nat) :
    z % 2 ^ (w + 1) = (if z % 2 ^ (w + 1) ≥ 2 ^ w then 2 ^ w else 0) + z % 2 ^ w := by
  have hpos : (0 : Int) < 2 ^ w := by positivity
  have hdvd : z % 2 ^ w = z % 2 ^ (w + 1) % 2 ^ w :=
    (Int.emod_emod_of_dvd z (pow_dvd_pow 2 (Nat.le_succ w))).symm
  have hlt : z % 2 ^ (w + 1) < 2 ^ w * 2 := by
    rw [← pow_succ]
    exact Int.emod_lt_of_pos z (by positivity)
  have hnonneg : 0 ≤ z % 2 ^ (w + 1) := Int.emod_nonneg z (by positivity)
  rw [hdvd]
  generalize z % 2 ^ (w + 1) = r at hlt hnonneg ⊢
  split
  · rename_i hge
    rw [← Int.sub_emod_right, Int.emod_eq_of_lt (by omega) (by omega)]
    omega
  rename_i hge
  rw [Int.emod_eq_of_lt hnonneg (by omega)]
  omega

lemma toNat_top_append (z : Int) (w : Nat) :
    ((if z % 2 ^ (w + 1) ≥ 2 ^ w then 1#1 else 0#1) ++ ofInt w z).toNat =
      (ofInt (w + 1) z).toNat := by
  have hlow : ((ofInt w z).toNat : Int) = z % 2 ^ w := by
    rw [BitVec.toNat_ofInt, Int.toNat_of_nonneg (Int.emod_nonneg _ (by positivity))]
    push_cast
    rfl
  have hall : ((ofInt (w + 1) z).toNat : Int) =
      (if z % 2 ^ (w + 1) ≥ 2 ^ w then 2 ^ w else 0) + z % 2 ^ w := by
    rw [← emod_two_pow_succ, BitVec.toNat_ofInt,
      Int.toNat_of_nonneg (Int.emod_nonneg _ (by positivity))]
    push_cast
    rfl
  apply Int.natCast_inj.1
  rw [hall, ← hlow, BitVec.toNat_append,
    ← Nat.shiftLeft_add_eq_or_of_lt (ofInt w z).isLt, Nat.shiftLeft_eq]
  split
  · simp
  · simp

lemma abconvIntToBvElim_spec {z : Int} (hn : IntVal I n z) (w : Nat) :
    value I (abconvIntToBvElim n w (2 ^ w)) = some (Val.bitvec (ofInt w z)) := by
  induction w with
  | zero =>
    rw [abconvIntToBvElim, value_bin]
    exact congrArg some (bitvec_eq_of_toNat rfl (by simp))
  | succ w ih =>
    have hhalf : (2 : Int) ^ (w + 1) / 2 = 2 ^ w := by
      rw [pow_succ]
      exact Int.mul_ediv_cancel _ (by decide)
    rw [abconvIntToBvElim, hhalf]
    have hpow : IntVal I (.num (2 ^ (w + 1))) (2 ^ (w + 1)) := intVal_num.2 rfl
    have hge := boolVal_intGeq (intVal_modTotal hn hpow)
      (intVal_num.2 rfl : IntVal I (.num (2 ^ w)) (2 ^ w))
    have hbit := value_ite hge (value_bin I 1 1#1) (value_bin I 1 0#1)
    rw [value_bop I rfl, hbit, ih]
    refine congrArg some (bitvec_eq_of_toNat (Nat.add_comm 1 w) ?_)
    exact toNat_top_append z w

lemma intToBvElim_sat {F c : Term} {T : Ty} (hF : typeof Γ F = some T)
    (h : intToBvElim Γ F = some c) : Sat I c := by
  unfold intToBvElim at h
  split at h
  swap
  · cases h
  rename_i w n b
  split at h
  swap
  · cases h
  rename_i hw
  obtain ⟨hb, h⟩ := eoRequires_eq_some.1 h
  cases h
  obtain ⟨A, hA, _⟩ := typeof_eq_sides hF
  obtain ⟨S, S', hS, hn, hsym⟩ := typeof_bop_inv rfl hA
  obtain rfl : S' = .int := by
    cases S' with
    | int => rfl
    | _ => contradiction
  obtain ⟨z, hz⟩ := value_of_typeof I hn
  have hpow : arithEvalIntPow2Num w = 2 ^ w.toNat := by
    rw [← arithEvalIntPow2Num_nat, Int.toNat_of_nonneg hw]
  have hval := abconvIntToBvElim_spec hz w.toNat
  rw [← hpow] at hval
  refine sat_eq.2 ⟨Val.bitvec (ofInt w.toNat z), ?_, value_concatElim hval (of_decide_eq_true hb)⟩
  rw [value_bop I rfl, value_num, hz]
  rfl

end EthosCpc
