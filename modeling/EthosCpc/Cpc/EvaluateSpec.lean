import EthosCpc.Cpc.Evaluate
import EthosCpc.Semantics.Arith

/-!
# Soundness of the evaluator

A term and the term it evaluates to have the same value.  The builtin
operators compute with literals, so each case of `$run_evaluate` compares a
builtin operator on literals with the meaning of the symbol it stands for.

The one operator that may differ from its symbol is concatenation: the
width of a binary is an `uint32_t`, and the sum of two widths wraps.
Evaluation is therefore sound exactly for terms whose bit-vectors are
narrower than `2 ^ 32` (`runEvaluate_sound_iff`).
-/

namespace EthosCpc

open Term (bop uop)
open Option (bind_some map_some some.inj)
open BitVec (allOnes eq_of_toNat_eq ofBool ofInt of_length_zero slt toNat_append toNat_ofNat ult)

variable {Γ : Nat → Ty} {I : Interp Γ}

/-! ## Values of evaluated arguments -/

lemma value_uop_congr {s : Sym} (hs : s.arity = 1) {a x : Term} (ha : value I a = value I x) :
    value I (uop s a) = value I (uop s x) := by
  rw [value_uop I hs, value_uop I hs, ha]

lemma value_bop_congr {s : Sym} (hs : s.arity = 2) {a b x y : Term}
    (ha : value I a = value I x) (hb : value I b = value I y) :
    value I (bop s a b) = value I (bop s x y) := by
  rw [value_bop I hs, value_bop I hs, ha, hb]

lemma truth_decide (p : Prop) [Decidable p] : truth p = decide p := by
  by_cases hp : p
  · simp [hp]
  · simp [hp]

variable {U : Nat → Type}

/-- Bit-vectors of equal width and number are equal values. -/
lemma bitvec_eq_of_toNat {w w' : Nat} {x : BitVec w} {y : BitVec w'}
    (hw : w = w') (h : x.toNat = y.toNat) : (Val.bitvec x : Val U) = Val.bitvec y := by
  subst hw
  rw [eq_of_toNat_eq h]

/-! ## Operators on two literals -/

section Families

variable {s : Sym} {a b r : Term} {v : Val I.U}

variable {g : ∀ w, BitVec w → BitVec w → BitVec w}

lemma logicOp_bool {f : Bool → Bool → Bool}
    (hs : s.arity = 2) (hsym : symVal I s = vBool2 f) (h : logicOp f g a b = some r)
    (hv : value I (bop s a b) = some v) : value I r = some v := by
  rw [value_bop I hs, hsym] at hv
  rcases logicOp_inv h with ⟨p, q, rfl, rfl, rfl⟩ | ⟨w, p, q, rfl, rfl, rfl⟩
  · simpa [vBool2] using hv
  · simp [vBool2] at hv

lemma logicOp_bv {f : Bool → Bool → Bool}
    (hs : s.arity = 2) (hsym : symVal I s = vBv2 fun w x y => .bitvec (g w x y))
    (h : logicOp f g a b = some r) (hv : value I (bop s a b) = some v) : value I r = some v := by
  rw [value_bop I hs, hsym] at hv
  rcases logicOp_inv h with ⟨p, q, rfl, rfl, rfl⟩ | ⟨w, p, q, rfl, rfl, rfl⟩
  · simp [vBv2] at hv
  · simpa [vBv2] using hv

variable {k : ∀ w, BitVec w → BitVec w → BitVec w} {f : Int → Int → Int}

lemma numOp_arith {g : Rat → Rat → Rat} {fr : ℝ → ℝ → ℝ}
    (hs : s.arity = 2) (hsym : symVal I s = vArith2 f fr)
    (hcast : ∀ p q : Rat, ((g p q : Rat) : ℝ) = fr p q) (h : numOp f g k a b = some r)
    (hv : value I (bop s a b) = some v) : value I r = some v := by
  rw [value_bop I hs, hsym] at hv
  rcases numOp_inv h with ⟨p, q, rfl, rfl, rfl⟩ | ⟨p, q, rfl, rfl, rfl⟩ | ⟨w, p, q, rfl, rfl, rfl⟩
  · simpa [vArith2] using hv
  · simpa [vArith2, hcast] using hv
  · simp [vArith2] at hv

lemma numOp_bv {g : Rat → Rat → Rat} (hs : s.arity = 2)
    (hsym : symVal I s = vBv2 fun w x y => .bitvec (k w x y)) (h : numOp f g k a b = some r)
    (hv : value I (bop s a b) = some v) : value I r = some v := by
  rw [value_bop I hs, hsym] at hv
  rcases numOp_inv h with ⟨p, q, rfl, rfl, rfl⟩ | ⟨p, q, rfl, rfl, rfl⟩ | ⟨w, p, q, rfl, rfl, rfl⟩
  · simp [vBv2] at hv
  · simp [vBv2] at hv
  · simpa [vBv2] using hv

lemma intDivOp_int {f g : Int → Int → Int}
    (hs : s.arity = 2) (hsym : symVal I s = vInt2 fun x y => .int (g x y))
    (hg : ∀ x y, y ≠ 0 → g x y = f x y) (h : intDivOp f k a b = some r)
    (hv : value I (bop s a b) = some v) : value I r = some v := by
  rw [value_bop I hs, hsym] at hv
  rcases intDivOp_inv h with ⟨p, q, rfl, rfl, hq, rfl⟩ | ⟨w, p, q, rfl, rfl, rfl⟩
  · simpa [vInt2, hg p q hq] using hv
  · simp [vInt2] at hv

lemma intDivOp_bv (hs : s.arity = 2) (hsym : symVal I s = vBv2 fun w x y => .bitvec (k w x y))
    (h : intDivOp f k a b = some r) (hv : value I (bop s a b) = some v) : value I r = some v := by
  rw [value_bop I hs, hsym] at hv
  rcases intDivOp_inv h with ⟨p, q, rfl, rfl, hq, rfl⟩ | ⟨w, p, q, rfl, rfl, rfl⟩
  · simp [vBv2] at hv
  · simpa [vBv2] using hv

end Families

/-! ## Comparisons -/

lemma evalLt_inv {a b r : Term} (h : evalLt a b = some r) :
    (∃ p q : Int, a = .num p ∧ b = .num q ∧ r = .bool (decide (p < q))) ∨
    (∃ p q : Rat, a = .rat p ∧ b = .rat q ∧ r = .bool (decide (p < q))) := by
  obtain ⟨nb, hnb, h⟩ := bind_inv h
  obtain ⟨d, hd, h⟩ := bind_inv h
  obtain ⟨n, hn, rfl⟩ := map_inv h
  rcases numOp_inv hd with ⟨p, q, rfl, rfl, rfl⟩ | ⟨p, q, rfl, rfl, rfl⟩ | ⟨w, p, q, -, -, rfl⟩
  · rcases eoNeg_inv hnb with ⟨q', rfl, hq⟩ | ⟨q', rfl, hq⟩ | ⟨w, q', rfl, hq⟩ <;> cases hq
    cases hn
    refine .inl ⟨p, q', rfl, rfl, ?_⟩
    congr 2
    exact propext (by omega)
  · rcases eoNeg_inv hnb with ⟨q', rfl, hq⟩ | ⟨q', rfl, hq⟩ | ⟨w, q', rfl, hq⟩ <;> cases hq
    cases hn
    refine .inr ⟨p, q', rfl, rfl, ?_⟩
    congr 2
    rw [← sub_eq_add_neg, sub_neg]
  · simp [eoIsNeg] at hn

lemma evalLeq_inv {a b r : Term} (h : evalLeq a b = some r) :
    (∃ p q : Int, a = .num p ∧ b = .num q ∧ r = .bool (decide (p ≤ q))) ∨
    (∃ p q : Rat, a = .rat p ∧ b = .rat q ∧ r = .bool (decide (p ≤ q))) := by
  obtain ⟨nb, hnb, h⟩ := bind_inv h
  obtain ⟨d, hd, h⟩ := bind_inv h
  obtain ⟨n, hn, h⟩ := bind_inv h
  obtain ⟨z, hz, rfl⟩ := map_inv h
  rcases numOp_inv hd with ⟨p, q, rfl, rfl, rfl⟩ | ⟨p, q, rfl, rfl, rfl⟩ | ⟨w, p, q, -, -, rfl⟩
  · rcases eoNeg_inv hnb with ⟨q', rfl, hq⟩ | ⟨q', rfl, hq⟩ | ⟨w, q', rfl, hq⟩ <;> cases hq
    cases hn
    cases hz
    refine .inl ⟨p, q', rfl, rfl, ?_⟩
    rw [← Bool.decide_or]
    congr 2
    rw [Int.cast_eq_zero]
    exact propext (by omega)
  · rcases eoNeg_inv hnb with ⟨q', rfl, hq⟩ | ⟨q', rfl, hq⟩ | ⟨w, q', rfl, hq⟩ <;> cases hq
    cases hn
    cases hz
    refine .inr ⟨p, q', rfl, rfl, ?_⟩
    rw [← Bool.decide_or]
    congr 2
    rw [← le_iff_lt_or_eq, ← sub_eq_add_neg, sub_nonpos]
  · simp [eoIsNeg] at hn

section Comparisons

variable {s : Sym} {a b r : Term} {v : Val I.U} {fi : Int → Int → Prop} {fr : ℝ → ℝ → Prop}

/-- A comparison of two numerals or two rationals. -/
lemma rel_lit [DecidableRel fi] {g : Rat → Rat → Prop} [DecidableRel g] (hs : s.arity = 2)
    (hsym : symVal I s = vRel fi fr) (hcast : ∀ p q : Rat, fr p q ↔ g p q)
    (h : (∃ p q : Int, a = .num p ∧ b = .num q ∧ r = .bool (decide (fi p q))) ∨
      (∃ p q : Rat, a = .rat p ∧ b = .rat q ∧ r = .bool (decide (g p q))))
    (hv : value I (bop s a b) = some v) : value I r = some v := by
  rw [value_bop I hs, hsym] at hv
  rcases h with ⟨p, q, rfl, rfl, rfl⟩ | ⟨p, q, rfl, rfl, rfl⟩
  · simpa [vRel, truth_decide] using hv
  · simpa [vRel, hcast, truth_decide] using hv

lemma evalLt_lt (h : evalLt a b = some r) (hv : value I (bop .lt a b) = some v) :
    value I r = some v :=
  rel_lit rfl rfl (fun _ _ => Rat.cast_lt) (evalLt_inv h) hv

lemma evalLeq_leq (h : evalLeq a b = some r) (hv : value I (bop .leq a b) = some v) :
    value I r = some v :=
  rel_lit rfl rfl (fun _ _ => Rat.cast_le) (evalLeq_inv h) hv

lemma evalLt_gt (h : evalLt b a = some r) (hv : value I (bop .gt a b) = some v) :
    value I r = some v := by
  refine rel_lit (g := fun p q : Rat => p > q) rfl rfl (fun _ _ => Rat.cast_lt) ?_ hv
  rcases evalLt_inv h with ⟨p, q, ha, hb, hr⟩ | ⟨p, q, ha, hb, hr⟩
  · exact .inl ⟨q, p, hb, ha, hr⟩
  · exact .inr ⟨q, p, hb, ha, hr⟩

lemma evalLeq_geq (h : evalLeq b a = some r) (hv : value I (bop .geq a b) = some v) :
    value I r = some v := by
  refine rel_lit (g := fun p q : Rat => p ≥ q) rfl rfl (fun _ _ => Rat.cast_le) ?_ hv
  rcases evalLeq_inv h with ⟨p, q, ha, hb, hr⟩ | ⟨p, q, ha, hb, hr⟩
  · exact .inl ⟨q, p, hb, ha, hr⟩
  · exact .inr ⟨q, p, hb, ha, hr⟩

end Comparisons

/-! ## Arithmetic -/

section Arithmetic

variable {a b r : Term} {v : Val I.U}

lemma eoNeg_uminus (h : eoNeg a = some r) (hv : value I (uop .uminus a) = some v) :
    value I r = some v := by
  rw [value_uop I rfl] at hv
  rcases eoNeg_inv h with ⟨p, rfl, rfl⟩ | ⟨p, rfl, rfl⟩ | ⟨w, p, rfl, rfl⟩
  · simpa [symVal.eq_def, vArith1] using hv
  · simpa [symVal.eq_def, vArith1] using hv
  · simp [symVal.eq_def, vArith1] at hv

lemma eoNeg_bvneg (h : eoNeg a = some r) (hv : value I (uop .bvneg a) = some v) :
    value I r = some v := by
  rw [value_uop I rfl] at hv
  rcases eoNeg_inv h with ⟨p, rfl, rfl⟩ | ⟨p, rfl, rfl⟩ | ⟨w, p, rfl, rfl⟩
  · simp [symVal.eq_def, vBv1] at hv
  · simp [symVal.eq_def, vBv1] at hv
  · simpa [symVal.eq_def, vBv1] using hv

lemma eoNot_not (h : eoNot a = some r) (hv : value I (uop .not a) = some v) :
    value I r = some v := by
  rw [value_uop I rfl] at hv
  rcases eoNot_inv h with ⟨p, rfl, rfl⟩ | ⟨w, p, rfl, rfl⟩
  · simpa [symVal.eq_def, vBool1] using hv
  · simp [symVal.eq_def, vBool1] at hv

lemma eoNot_bvnot (h : eoNot a = some r) (hv : value I (uop .bvnot a) = some v) :
    value I r = some v := by
  rw [value_uop I rfl] at hv
  rcases eoNot_inv h with ⟨p, rfl, rfl⟩ | ⟨w, p, rfl, rfl⟩
  · simp [symVal.eq_def, vBv1] at hv
  · simpa [symVal.eq_def, vBv1] using hv

lemma eoOr_imp {na : Term} (hna : eoNot a = some na) (h : eoOr na b = some r)
    (hv : value I (bop .imp a b) = some v) : value I r = some v := by
  rw [value_bop I rfl] at hv
  rcases eoNot_inv hna with ⟨p, rfl, rfl⟩ | ⟨w, p, rfl, rfl⟩ <;>
    rcases logicOp_inv h with ⟨p', q, hp, rfl, rfl⟩ | ⟨w, p', q, hp, rfl, rfl⟩ <;> cases hp
  · simpa [symVal.eq_def, vBool2] using hv
  · simp [symVal.eq_def, vBool2] at hv

lemma eoAdd_minus {nb : Term} (hnb : eoNeg b = some nb) (h : eoAdd a nb = some r)
    (hv : value I (bop .minus a b) = some v) : value I r = some v := by
  rw [value_bop I rfl] at hv
  rcases eoNeg_inv hnb with ⟨q, rfl, rfl⟩ | ⟨q, rfl, rfl⟩ | ⟨w, q, rfl, rfl⟩ <;>
    rcases numOp_inv h with ⟨p, q', rfl, hq, rfl⟩ | ⟨p, q', rfl, hq, rfl⟩ | ⟨w, p, q', rfl, hq, rfl⟩ <;>
    cases hq
  · simpa [symVal.eq_def, vArith2, ← sub_eq_add_neg] using hv
  · simpa [symVal.eq_def, vArith2, ← sub_eq_add_neg] using hv
  · simp [symVal.eq_def, vArith2] at hv

lemma eoAdd_bvsub {nb : Term} (hnb : eoNeg b = some nb) (h : eoAdd a nb = some r)
    (hv : value I (bop .bvsub a b) = some v) : value I r = some v := by
  rw [value_bop I rfl] at hv
  rcases eoNeg_inv hnb with ⟨q, rfl, rfl⟩ | ⟨q, rfl, rfl⟩ | ⟨w, q, rfl, rfl⟩ <;>
    rcases numOp_inv h with ⟨p, q', rfl, hq, rfl⟩ | ⟨p, q', rfl, hq, rfl⟩ | ⟨w, p, q', rfl, hq, rfl⟩ <;>
    cases hq
  · simp [symVal.eq_def, vBv2] at hv
  · simp [symVal.eq_def, vBv2] at hv
  · simpa [symVal.eq_def, vBv2, ← BitVec.sub_eq_add_neg] using hv

lemma eoToQ_toReal {q : Rat} (h : eoToQ a = some q) (hv : value I (uop .toReal a) = some v) :
    value I (.rat q) = some v := by
  rw [value_uop I rfl] at hv
  rcases eoToQ_inv h with ⟨p, rfl, rfl⟩ | rfl
  · simpa [symVal.eq_def, vToReal] using hv
  · simpa [symVal.eq_def, vToReal] using hv

lemma eoToZ_toInt {z : Int} (h : eoToZ a = some z) (hv : value I (uop .toInt a) = some v) :
    value I (.num z) = some v := by
  rw [value_uop I rfl] at hv
  unfold eoToZ at h
  split at h <;> cases h
  · simp [symVal.eq_def, vReal1] at hv
  · simpa [symVal.eq_def, vReal1] using hv
  · simp [symVal.eq_def, vReal1] at hv
  · simp [symVal.eq_def, vReal1] at hv

lemma isInt_lit {z : Int} {q : Rat} (hz : eoToZ a = some z) (hq : eoToQ a = some q)
    (hv : value I (uop .isInt a) = some v) : value I (.bool (decide ((z : Rat) = q))) = some v := by
  rw [value_uop I rfl] at hv
  rcases eoToQ_inv hq with ⟨p, rfl, rfl⟩ | rfl
  · simp [symVal.eq_def, vReal1] at hv
  cases hz
  have hiff : (∃ z : Int, (q : ℝ) = z) ↔ (⌊q⌋ : Rat) = q := by
    constructor
    · rintro ⟨z, hz⟩
      have : q = z := by exact_mod_cast hz
      rw [this, Int.floor_intCast]
    · intro h
      exact ⟨⌊q⌋, by exact_mod_cast h.symm⟩
  simpa [symVal.eq_def, vReal1, truth_decide, hiff] using hv

lemma abs_lit {n : Bool} (hn : eoIsNeg a = some n)
    (h : (if n then eoNeg a else some a) = some r) (hv : value I (uop .abs a) = some v) :
    value I r = some v := by
  rw [value_uop I rfl] at hv
  rcases eoIsNeg_inv hn with ⟨p, rfl, rfl⟩ | ⟨p, rfl, rfl⟩
  · by_cases hp : p < 0
    · obtain rfl : .num (-p) = r := by simpa [hp, eoNeg] using h
      simpa [symVal.eq_def, vArith1, abs_of_neg hp] using hv
    · obtain rfl : .num p = r := by simpa [hp] using h
      simpa [symVal.eq_def, vArith1, abs_of_nonneg (not_lt.1 hp)] using hv
  by_cases hp : p < 0
  · obtain rfl : .rat (-p) = r := by simpa [hp, eoNeg] using h
    have hp' : (p : ℝ) < 0 := by exact_mod_cast hp
    simpa [symVal.eq_def, vArith1, abs_of_neg hp'] using hv
  obtain rfl : .rat p = r := by simpa [hp] using h
  have hp' : (0 : ℝ) ≤ p := by exact_mod_cast not_lt.1 hp
  simpa [symVal.eq_def, vArith1, abs_of_nonneg hp'] using hv

lemma eoQdiv_lit {s : Sym} {f : ℝ → ℝ → ℝ} (hs : s.arity = 2) (hsym : symVal I s = vQdiv f)
    (hf : ∀ x y : ℝ, y ≠ 0 → f x y = x / y) {p q : Rat} (ha : eoToQ a = some p)
    (hb : eoToQ b = some q) (h : eoQdiv (.rat p) (.rat q) = some r)
    (hv : value I (bop s a b) = some v) : value I r = some v := by
  rw [value_bop I hs, hsym] at hv
  by_cases hq : q = 0
  · simp [eoQdiv, hq] at h
  obtain rfl : .rat (p / q) = r := by simpa [eoQdiv, hq] using h
  have hdiv : f p q = p / q := hf p q (Rat.cast_ne_zero.2 hq)
  rcases eoToQ_inv ha with ⟨p', rfl, rfl⟩ | rfl <;>
    rcases eoToQ_inv hb with ⟨q', rfl, rfl⟩ | rfl
  · simp only [Rat.cast_intCast] at hdiv
    simpa [vQdiv, hdiv] using hv
  · simp [vQdiv] at hv
  · simp [vQdiv] at hv
  · simpa [vQdiv, hdiv] using hv

lemma qdivTotal_zero (hb : eoToQ b = some 0) (hv : value I (bop .qdivTotal a b) = some v) :
    value I (.rat 0) = some v := by
  obtain ⟨va, vb, _, hvb, hv⟩ := value_bop_inv I rfl hv
  rcases vQdiv_inv (show vQdiv (fun x y => x / y) [va, vb] = some v from hv) with
    ⟨p, q, heq, rfl⟩ | ⟨p, q, heq, rfl⟩
  · cases heq
    have hq := arithVal_of_eoToQ hb (arithVal_int hvb)
    simp [hq]
  cases heq
  have hq := arithVal_of_eoToQ hb (arithVal_real hvb)
  simp [hq]

lemma divTotal_zero (hv : value I (bop .divTotal a (.num 0)) = some v) :
    value I (.num 0) = some v := by
  obtain ⟨va, vb, _, hvb, hv⟩ := value_bop_inv I rfl hv
  obtain ⟨p, q, heq, rfl⟩ := vInt2_inv (show vInt2 (fun x y => .int (x / y)) [va, vb] = some v from hv)
  cases heq
  obtain rfl : 0 = q := by simpa using hvb
  simp

lemma modTotal_zero (hv : value I (bop .modTotal a (.num 0)) = some v) : value I a = some v := by
  obtain ⟨va, vb, hva, hvb, hv⟩ := value_bop_inv I rfl hv
  obtain ⟨p, q, heq, rfl⟩ := vInt2_inv (show vInt2 (fun x y => .int (x % y)) [va, vb] = some v from hv)
  cases heq
  obtain rfl : 0 = q := by simpa using hvb
  simpa using hva

end Arithmetic

/-! ## Powers of two -/

lemma arithEvalIntPow2Rec_eq (n : Nat) : arithEvalIntPow2Rec n = 2 ^ n := by
  induction n with
  | zero => rfl
  | succ n ih => rw [arithEvalIntPow2Rec, ih, pow_succ, mul_comm]

lemma arithEvalIntPow2Num_eq (z : Int) : arithEvalIntPow2Num z = intPow2 z := by
  rw [arithEvalIntPow2Num, intPow2, arithEvalIntPow2Rec_eq]

lemma arithEvalIntPow2Num_nat (n : Nat) : arithEvalIntPow2Num n = 2 ^ n := by
  rw [arithEvalIntPow2Num_eq, intPow2, if_neg (by omega), Int.toNat_natCast]

lemma arithEvalIntLog2Rec_eq (n : Nat) : arithEvalIntLog2Rec n = (Nat.log2 n : Nat) := by
  induction n using Nat.strongRecOn with
  | ind n ih =>
    rw [arithEvalIntLog2Rec, Nat.log2_def]
    by_cases hn : n ≤ 1
    · rw [if_pos hn, if_neg (by omega)]
      rfl
    rw [if_neg hn, if_pos (by omega), ih (n / 2) (by omega)]
    push_cast
    ring

lemma arithEvalIntLog2_num (z : Int) : arithEvalIntLog2 (.num z) = some (.num (intLog2 z)) := by
  simp only [arithEvalIntLog2, eoNeg, eoIsNeg, bind_some, decide_eq_true_eq, intLog2]
  by_cases hz : z ≤ 0
  · rw [if_neg (by omega), if_pos hz]
  · rw [if_pos (by omega), if_neg hz, arithEvalIntLog2Rec_eq]

/-- A number is a power of two if it is the power of its logarithm. -/
lemma intIspow2_iff {z : Int} (hz : 0 ≤ z) : intIspow2 z ↔ z = intPow2 (intLog2 z) := by
  constructor
  · rintro ⟨k, rfl⟩
    have hpos : ¬ (2 : Int) ^ k ≤ 0 := not_le.2 (by positivity)
    rw [intLog2, if_neg hpos, intPow2, if_neg (by omega)]
    have hnat : ((2 : Int) ^ k).toNat = 2 ^ k := by
      rw [← Int.toNat_natCast (2 ^ k)]
      push_cast
      rfl
    rw [hnat, Nat.log2_two_pow, Int.toNat_natCast]
  · intro h
    refine ⟨(intLog2 z).toNat, ?_⟩
    have hl : ¬ intLog2 z < 0 := by
      unfold intLog2
      split <;> omega
    rw [intPow2, if_neg hl] at h
    exact h

section PowersOfTwo

variable {a r : Term} {v : Val I.U}

lemma intPow2_lit (hv : value I (uop .intPow2 a) = some v) :
    value I (arithEvalIntPow2 a) = some v := by
  unfold arithEvalIntPow2
  split
  · rw [value_uop I rfl] at hv
    simpa [symVal.eq_def, vInt1, arithEvalIntPow2Num_eq] using hv
  · exact hv

lemma intLog2_lit (h : arithEvalIntLog2 a = some r) (hv : value I (uop .intLog2 a) = some v) :
    value I r = some v := by
  rw [value_uop I rfl] at hv
  obtain ⟨n, hn, _⟩ := bind_inv h
  obtain ⟨na, hna, _⟩ := bind_inv hn
  rcases eoNeg_inv hna with ⟨p, rfl, -⟩ | ⟨p, rfl, -⟩ | ⟨w, p, rfl, -⟩
  · rw [arithEvalIntLog2_num] at h
    cases h
    simpa [symVal.eq_def, vInt1] using hv
  · simp [symVal.eq_def, vInt1] at hv
  · simp [symVal.eq_def, vInt1] at hv

lemma intIspow2_lit (h : arithEvalIntIsPow2 a = some r)
    (hv : value I (uop .intIspow2 a) = some v) : value I r = some v := by
  unfold arithEvalIntIsPow2 at h
  split at h
  swap
  · cases h
    exact hv
  rename_i z
  rw [value_uop I rfl] at hv
  split at h
  · rename_i hz
    cases h
    have hnot : ¬ intIspow2 z := by
      rintro ⟨k, rfl⟩
      exact absurd hz (not_lt.2 (by positivity))
    simpa [symVal.eq_def, vInt1, truth_of_not hnot] using hv
  rename_i hz
  rw [arithEvalIntLog2_num] at h
  cases h
  simpa [symVal.eq_def, vInt1, intIspow2_iff (not_lt.1 hz), arithEvalIntPow2,
    arithEvalIntPow2Num_eq, truth_decide] using hv

end PowersOfTwo

/-! ## Bit-vectors as integers -/

section BitVectors

variable {a b r : Term} {v : Val I.U}

variable {w : Nat}

variable {p : BitVec w} {z i n : Int}

lemma eq_bin_of_eoToZ (h : eoToZ a = some z)
    (ha : value I a = some (Val.bitvec p)) : a = .bin w p ∧ z = p.toNat := by
  unfold eoToZ at h
  split at h <;> cases h
  · cases ha
  · cases ha
  · rw [value_bin, Option.some.injEq] at ha
    obtain rfl := Val.width_eq ha
    obtain rfl := Val.bitvec_inj.1 ha
    exact ⟨rfl, rfl⟩
  · cases ha

lemma eoExtract_inv {j : Int} (h : eoExtract a i j = some r) : ∃ w p, a = .bin w p := by
  unfold eoExtract at h
  split at h
  · exact ⟨_, _, rfl⟩
  · cases h

lemma eoExtract_bin (p : BitVec w) {l h : Nat} (hl : l ≤ h) (hh : h < w) :
    eoExtract (.bin w p) l h = some (.bin (h - l + 1) (p.extractLsb' l (h - l + 1))) := by
  have hin : ¬ ((l : Int) < 0 ∨ (h : Int) < 0 ∨ (l : Int) > w ∨ w = 0) := by omega
  have hv2 : (if (h : Int) > w then w - 1 else h) = h := if_neg (by omega)
  have hlt : ¬ l > h := by omega
  rw [eoExtract, if_neg hin]
  simp only [Int.toNat_natCast]
  rw [hv2, if_neg hlt]

lemma eoExtract_empty (p : BitVec w) {l h : Int} (hl : l ≤ w) (hh : h < l) :
    eoExtract (.bin w p) l h = some (.bin 0 0#0) := by
  rw [eoExtract]
  split
  · rfl
  have hv2 : (if h > w then w - 1 else h.toNat) = h.toNat := if_neg (by omega)
  have hlt : l.toNat > h.toNat := by omega
  simp only [hv2, if_pos hlt]

lemma bvBitwidth_bin (w : Nat) (p : BitVec w) : bvBitwidth Γ (.bin w p) = some w := rfl

private lemma extractLsb'_top (p : BitVec (w + 1)) : p.extractLsb' w 1 = ofBool p.msb := by
  apply BitVec.eq_of_getLsbD_eq
  intro i hi
  obtain rfl : i = 0 := by omega
  simp [BitVec.msb_eq_getLsbD_last]

lemma bvSignBit_bin (p : BitVec (w + 1)) :
    bvSignBit Γ (.bin (w + 1) p) = some (.bin 1 (ofBool p.msb)) := by
  have hw : ((w + 1 : Nat) : Int) - 1 = (w : Nat) := by omega
  rw [bvSignBit, bvBitwidth_bin, bind_some, hw, eoExtract_bin p (le_refl w) (by omega),
    Nat.sub_self, Nat.zero_add, extractLsb'_top]

lemma bvToSignedInt_bin (p : BitVec w) : bvToSignedInt Γ (.bin w p) = some p.toInt := by
  cases w with
  | zero =>
    have hp : p.toInt = 0 := by simp [of_length_zero]
    rw [hp]
    rfl
  | succ w =>
    -- the bits below the sign bit
    have hlow : (eoExtract (.bin (w + 1) p) 0 (((w + 1 : Nat) : Int) - 2)).bind eoToZ =
        some ((p.toNat % 2 ^ w : Nat) : Int) := by
      cases w with
      | zero =>
        rw [eoExtract_empty p (by omega) (by omega)]
        simp [eoToZ, Nat.mod_one]
      | succ w =>
        have hw : ((w + 1 + 1 : Nat) : Int) - 2 = (w : Nat) := by omega
        rw [hw, show (0 : Int) = (0 : Nat) from rfl, eoExtract_bin p (by omega) (by omega)]
        simp [eoToZ, BitVec.extractLsb'_toNat]
    have hw : ((w + 1 : Nat) : Int) - 1 = (w : Nat) := by omega
    have hlt : p.toNat < 2 ^ w * 2 := by simpa [pow_succ] using p.isLt
    rw [bvToSignedInt, bvBitwidth_bin, bind_some, hlow, bind_some, bvSignBit_bin,
      map_some, hw, arithEvalIntPow2Num_nat, BitVec.toInt_eq_msb_cond]
    by_cases hmsb : p.msb = true
    swap
    · have hlow' : p.toNat < 2 ^ w := by simpa [BitVec.msb_eq_decide] using hmsb
      rw [if_neg (by simp [hmsb]), if_neg hmsb, Nat.mod_eq_of_lt hlow']
    have hle : 2 ^ w ≤ p.toNat := by simpa [BitVec.msb_eq_decide] using hmsb
    have hmod : p.toNat % 2 ^ w = p.toNat - 2 ^ w := by
      rw [Nat.mod_eq_sub_mod hle, Nat.mod_eq_of_lt (by omega)]
    have hone : Term.bin 1 (ofBool p.msb) = .bin 1 1#1 := by rw [hmsb]; rfl
    rw [if_pos hone, if_pos hmsb, hmod, Int.natCast_sub hle]
    push_cast
    ring_nf

lemma eq_bin_of_bvToSignedInt
    (h : bvToSignedInt Γ a = some z) (ha : value I a = some (Val.bitvec p)) :
    a = .bin w p ∧ z = p.toInt := by
  obtain ⟨n, hn, hrest⟩ := bind_inv h
  obtain ⟨y, hy, _⟩ := bind_inv hrest
  obtain ⟨c, hc, _⟩ := bind_inv hy
  obtain ⟨w', q, rfl⟩ := eoExtract_inv hc
  rw [value_bin, Option.some.injEq] at ha
  obtain rfl := Val.width_eq ha
  obtain rfl := Val.bitvec_inj.1 ha
  rw [bvToSignedInt_bin, Option.some.injEq] at h
  exact ⟨rfl, h.symm⟩

lemma eoToBin_inv {w : Int} (h : eoToBin w n = some r) :
    0 ≤ w ∧ w < maxWidth ∧ r = .bin w.toNat (ofInt w.toNat n) := by
  unfold eoToBin at h
  split at h
  · rename_i hw
    exact ⟨hw.1, hw.2, (some.inj h).symm⟩
  · cases h

variable {x : Term}

lemma bvBitwidth_inv (h : bvBitwidth Γ x = some w) :
    ∃ p : BitVec w, value I x = some (Val.bitvec p) := by
  obtain ⟨T, hT, hw⟩ := bind_inv h
  unfold Ty.width at hw
  split at hw
  · cases hw
    exact value_of_typeof I hT
  · cases hw

variable {s : Sym}

/-- A binary operator on bit-vectors, with the width of the first argument
known from its type. -/
lemma bvVal_of_bvBitwidth {f : ∀ w, BitVec w → BitVec w → Val I.U} {x : Term} {w : Nat}
    (hs : s.arity = 2) (hsym : symVal I s = vBv2 f) (hw : bvBitwidth Γ x = some w)
    (hv : value I (bop s x b) = some v) :
    ∃ p q : BitVec w, value I x = some (Val.bitvec p) ∧ value I b = some (Val.bitvec q) ∧
      v = f w p q := by
  obtain ⟨p, hp⟩ := bvBitwidth_inv (I := I) hw
  obtain ⟨va, vb, ha, hb, hv⟩ := value_bop_inv I hs hv
  rw [hsym] at hv
  obtain ⟨w', x', y', heq, rfl⟩ := vBv2_inv hv
  cases heq
  rw [hp, Option.some.injEq] at ha
  obtain rfl := Val.width_eq ha
  obtain rfl := Val.bitvec_inj.1 ha
  exact ⟨p, y', hp, hb, rfl⟩

private lemma eoToBin_nat (h : eoToBin w n = some r) : r = .bin w (ofInt w n) := by
  obtain ⟨-, -, rfl⟩ := eoToBin_inv h
  rfl

lemma bvOnes_inv (h : bvOnes w = some r) : r = .bin w (allOnes w) := by
  obtain rfl := eoToBin_nat h
  have hones : ofInt w (arithEvalIntPow2Num w - 1) = allOnes w := by
    apply eq_of_toNat_eq
    have hpos : (0 : Int) < 2 ^ w := by positivity
    rw [arithEvalIntPow2Num_nat, BitVec.toNat_ofInt, BitVec.toNat_allOnes]
    push_cast
    rw [Int.emod_eq_of_lt (by omega) (by omega)]
    have hcast : ((2 ^ w : Nat) : Int) = 2 ^ w := by push_cast; rfl
    omega
  rw [hones]

variable {nil m : Term} {ex ey : Option Term}

lemma nilFor_of_value {T : Ty} {a n : Term} {v : Dom I.U T}
    (hpar : s.nilIsParameterized = true) (hnil : eoNil s T = some nil)
    (ha : value I a = some ⟨T, v⟩) (h : nilFor Γ s a = some n) : n = nil := by
  rw [nilFor, if_pos hpar] at h
  obtain ⟨S, hS, h⟩ := bind_inv h
  obtain ⟨u, hu⟩ := value_of_typeof I hS
  have hST : S = T := some.inj (congrArg (Option.map Sigma.fst) (hu.symm.trans ha))
  rw [hST, hnil] at h
  exact (some.inj h).symm

lemma eoToBin_zero_inv {r : Term} (h : eoToBin w 0 = some r) : r = .bin w 0#w := by
  rw [eoToBin_nat h]
  rfl

lemma width_toBin_inv (h : ((Ty.bitvec w).width.bind fun w : Nat => eoToBin w 0) = some nil) :
    nil = .bin w 0#w := by
  rw [Ty.width, bind_some] at h
  exact eoToBin_zero_inv h

lemma eoNil_bvand_inv (h : eoNil .bvand (.bitvec w) = some nil) : nil = .bin w (~~~ 0#w) := by
  rw [eoNil, Ty.width, bind_some] at h
  obtain ⟨z, hz, hnot⟩ := bind_inv h
  obtain rfl := eoToBin_zero_inv hz
  cases hnot
  rfl

lemma eoNil_bvmul_inv (h : eoNil .bvmul (.bitvec w) = some nil) : nil = .bin w 1#w := by
  rw [eoNil, Ty.width, bind_some] at h
  rw [eoToBin_nat h]
  rfl

lemma bvudiv_zero (hb : eoToZ b = some 0) (hw : bvBitwidth Γ x = some w)
    (h : bvOnes w = some r) (hv : value I (bop .bvudiv x b) = some v) : value I r = some v := by
  obtain ⟨p, q, -, hq, rfl⟩ := bvVal_of_bvBitwidth (s := .bvudiv)
    (f := fun _ x y => .bitvec (x.smtUDiv y)) rfl rfl hw hv
  obtain rfl := bvOnes_inv h
  obtain ⟨_, hz⟩ := eq_bin_of_eoToZ hb hq
  have hq0 : q = 0#w := eq_of_toNat_eq (by simp; omega)
  rw [value_bin, hq0, BitVec.smtUDiv]
  simp

lemma bvurem_zero (hb : eoToZ b = some 0) (hv : value I (bop .bvurem a b) = some v) :
    value I a = some v := by
  obtain ⟨va, vb, ha, hvb, hv⟩ := value_bop_inv I rfl hv
  obtain ⟨w, p, q, heq, rfl⟩ := vBv2_inv
    (show vBv2 (fun _ x y => .bitvec (x.umod y)) [va, vb] = some v from hv)
  cases heq
  obtain ⟨_, hz⟩ := eq_bin_of_eoToZ hb hvb
  have hq0 : q.toNat = 0 := by omega
  have hmod : p.umod q = p := eq_of_toNat_eq (by simp [hq0])
  rw [ha, hmod]

lemma evalShift_lit {f : Int → Int → Option Term}
    {g : ∀ w, BitVec w → BitVec w → BitVec w} (hs : s.arity = 2)
    (hsym : symVal I s = vBv2 fun w x y => .bitvec (g w x y))
    (hbig : ∀ w (x y : BitVec w), w < y.toNat → g w x y = 0#w)
    (hf : ∀ w (x y : BitVec w), ∃ n, f x.toNat (2 ^ y.toNat) = some (.num n) ∧ ofInt w n = g w x y)
    {x : Term} (hex : ∀ a, ex = some a → value I a = value I x)
    (hey : ey = some b) (h : evalShift Γ f x ex ey = some r)
    (hv : value I (bop s x b) = some v) : value I r = some v := by
  rw [evalShift, hey, bind_some] at h
  obtain ⟨n, hn, h⟩ := bind_inv h
  obtain ⟨w, hw, h⟩ := bind_inv h
  obtain ⟨p, q, hp, hq, rfl⟩ := bvVal_of_bvBitwidth hs hsym hw hv
  obtain ⟨-, rfl⟩ := eq_bin_of_eoToZ hn hq
  split at h
  · rename_i hlt
    obtain rfl := eoToBin_nat h
    rw [hbig w p q (by omega)]
    simp
  obtain ⟨a, ha, h⟩ := bind_inv h
  obtain ⟨z, hz, h⟩ := bind_inv h
  obtain ⟨t, ht, h⟩ := bind_inv h
  obtain ⟨-, rfl⟩ := eq_bin_of_eoToZ hz ((hex a ha).trans hp)
  obtain ⟨n, hn, hg⟩ := hf w p q
  rw [arithEvalIntPow2Num_nat, hn, Option.some.injEq] at ht
  obtain rfl := ht
  obtain rfl := eoToBin_nat (show eoToBin w n = some r from h)
  rw [value_bin, hg]

lemma ofInt_natCast (n : Nat) : ofInt w n = BitVec.ofNat w n := by
  apply eq_of_toNat_eq
  rw [BitVec.toNat_ofInt, toNat_ofNat]
  omega

lemma ofInt_mul_two_pow (x y : BitVec w) : ofInt w (x.toNat * 2 ^ y.toNat) = x <<< y := by
  have hcast : (x.toNat * 2 ^ y.toNat : Int) = ((x.toNat * 2 ^ y.toNat : Nat) : Int) := by
    push_cast
    rfl
  apply eq_of_toNat_eq
  rw [hcast, ofInt_natCast, toNat_ofNat, BitVec.shiftLeft_eq', BitVec.toNat_shiftLeft,
    Nat.shiftLeft_eq]

lemma ofInt_div_two_pow (x y : BitVec w) : ofInt w (x.toNat / 2 ^ y.toNat) = x >>> y := by
  have hcast : (x.toNat / 2 ^ y.toNat : Int) = ((x.toNat / 2 ^ y.toNat : Nat) : Int) := by
    push_cast
    rfl
  apply eq_of_toNat_eq
  rw [hcast, ofInt_natCast, toNat_ofNat, BitVec.ushiftRight_eq', BitVec.toNat_ushiftRight,
    Nat.shiftRight_eq_div_pow]
  exact Nat.mod_eq_of_lt (lt_of_le_of_lt (Nat.div_le_self _ _) x.isLt)

lemma eoZdiv_two_pow (z : Int) (n : Nat) :
    eoZdiv (.num z) (.num (2 ^ n)) = some (.num (z / 2 ^ n)) := by
  simp [eoZdiv, intDivOp]

lemma bvshl_lit (hex : ∀ a, ex = some a → value I a = value I x)
    (hey : ey = some b) (h : evalShift Γ (fun z p => some (.num (z * p))) x ex ey = some r)
    (hv : value I (bop .bvshl x b) = some v) : value I r = some v := by
  refine evalShift_lit (g := fun _ x y => x <<< y) rfl rfl ?_ ?_ hex hey h hv
  · intro w x y hlt
    rw [BitVec.shiftLeft_eq', BitVec.shiftLeft_eq_zero (le_of_lt hlt)]
  · exact fun w x y => ⟨_, rfl, ofInt_mul_two_pow x y⟩

lemma bvlshr_lit (hex : ∀ a, ex = some a → value I a = value I x) (hey : ey = some b)
    (h : evalShift Γ (fun z p => eoZdiv (.num z) (.num p)) x ex ey = some r)
    (hv : value I (bop .bvlshr x b) = some v) : value I r = some v := by
  refine evalShift_lit (g := fun _ x y => x >>> y) rfl rfl ?_ ?_ hex hey h hv
  · intro w x y hlt
    rw [BitVec.ushiftRight_eq', BitVec.ushiftRight_eq_zero (le_of_lt hlt)]
  · exact fun w x y => ⟨_, eoZdiv_two_pow _ _, ofInt_div_two_pow x y⟩

lemma bvashr_lit {x t : Term} (ha : value I a = value I x)
    (hn : eoToZ b = some n) (hw : bvBitwidth Γ x = some w) (hz : bvToSignedInt Γ a = some z)
    (ht : eoZdiv (.num z) (.num (arithEvalIntPow2Num n)) = some t)
    (h : eoToBinLit (.num w) t = some r) (hv : value I (bop .bvashr x b) = some v) :
    value I r = some v := by
  obtain ⟨p, q, hp, hq, rfl⟩ := bvVal_of_bvBitwidth (s := .bvashr)
    (f := fun _ x y => .bitvec (x.sshiftRight' y)) rfl rfl hw hv
  obtain ⟨-, rfl⟩ := eq_bin_of_eoToZ hn hq
  obtain ⟨-, rfl⟩ := eq_bin_of_bvToSignedInt hz (ha.trans hp)
  rw [arithEvalIntPow2Num_nat, eoZdiv_two_pow, Option.some.injEq] at ht
  obtain rfl := ht
  obtain rfl := eoToBin_nat (show eoToBin w _ = some r from h)
  rw [value_bin, BitVec.sshiftRight_eq', BitVec.sshiftRight, Int.shiftRight_eq_div_pow]
  push_cast
  rfl

/-! ## Building and cutting bit-vectors -/

lemma eoConcat_bin {w w' : Nat} (p : BitVec w) (q : BitVec w') (hw : w + w' < maxWidth) :
    eoConcat (.bin w p) (.bin w' q) = some (.bin (w + w') (p ++ q)) := by
  have hmod : (w + w') % maxWidth = w + w' := Nat.mod_eq_of_lt hw
  have hval : BitVec.ofNat (w + w') (p.toNat * 2 ^ w' + q.toNat) = p ++ q := by
    apply eq_of_toNat_eq
    rw [toNat_ofNat, toNat_append, ← Nat.shiftLeft_eq, Nat.shiftLeft_add_eq_or_of_lt q.isLt]
    refine Nat.mod_eq_of_lt ?_
    rw [← toNat_append]
    exact (p ++ q).isLt
  rw [eoConcat, hmod, hval]

lemma concat_lit (h : eoConcat a b = some r) (hv : value I (bop .concat a b) = some v)
    (hw : ∀ w (p : BitVec w), v = Val.bitvec p → w < maxWidth) : value I r = some v := by
  rw [value_bop I rfl] at hv
  unfold eoConcat at h
  split at h
  · rename_i w p w' q
    have hval : (Val.bitvec (p ++ q) : Val I.U) = v := by simpa [symVal.eq_def, vConcat] using hv
    rw [← eoConcat.eq_1, eoConcat_bin p q (hw _ (p ++ q) hval.symm), Option.some.injEq] at h
    rw [← h, value_bin, hval]
  · simp [symVal.eq_def, vConcat] at hv
  · cases h

lemma bin_eq_of_toNat {w w' : Nat} {x : BitVec w} {y : BitVec w'} (hw : w = w')
    (h : x.toNat = y.toNat) : Term.bin w x = .bin w' y := by
  subst hw
  rw [eq_of_toNat_eq h]

lemma bvRepeatEvalRec_bin (p : BitVec w) :
    ∀ n, w * n < maxWidth → bvRepeatEvalRec n (.bin w p) = some (.bin (w * n) (p.replicate n))
  | 0, _ => rfl
  | n + 1, hw => by
      have hwn : w * (n + 1) = w + w * n := by ring
      rw [bvRepeatEvalRec, bvRepeatEvalRec_bin p n (by omega), bind_some,
        eoConcat_bin p _ (by omega)]
      congr 1
      exact bin_eq_of_toNat hwn.symm (by simp [BitVec.replicate_succ])

lemma repeat_lit (ha : value I a = some (Val.int i)) (hi : 0 ≤ i)
    (h : evalRepeat a b = some r) (hv : value I (bop .bvrepeat a b) = some v)
    (hw : ∀ w (p : BitVec w), v = Val.bitvec p → w < maxWidth) : value I r = some v := by
  unfold evalRepeat at h
  split at h
  swap
  · obtain ⟨n, hn, rfl⟩ := map_inv h
    exact hv
  rename_i j
  obtain rfl : j = i := by simpa using ha
  rw [if_neg (not_lt.2 hi)] at h
  obtain ⟨va, vb, hva, hvb, hv⟩ := value_bop_inv I rfl hv
  obtain ⟨k, w, p, heq, rfl⟩ := vBvIdx_inv
    (show vBvIdx (fun i _ x => .bitvec (x.replicate i)) [va, vb] = some v from hv)
  cases heq
  obtain rfl : j = k := by simpa using hva
  have hlt := hw _ _ rfl
  rcases Nat.eq_zero_or_pos j.toNat with hn | hn
  · rw [hn] at h ⊢
    cases h
    rfl
  -- a repetition that is not empty asks for a binary
  obtain ⟨n, hn⟩ : ∃ n, j.toNat = n + 1 := ⟨j.toNat - 1, by omega⟩
  have hrec := h
  rw [hn, bvRepeatEvalRec] at hrec
  obtain ⟨t, _, hc⟩ := bind_inv hrec
  have hbin : b = .bin w p := by
    unfold eoConcat at hc
    split at hc
    · rw [value_bin, Option.some.injEq] at hvb
      obtain rfl := Val.width_eq hvb
      rw [Val.bitvec_inj.1 hvb]
    · cases hvb
    · cases hc
  rw [hbin, bvRepeatEvalRec_bin p _ hlt, Option.some.injEq] at h
  rw [← h, value_bin]

lemma extend_lit {f : Term → Option Int} {g : Nat → ∀ w, BitVec w → Val I.U}
    (hs : s.arity = 2) (hsym : symVal I s = vBvIdx g)
    (hf : ∀ {a w} {p : BitVec w} {z}, f a = some z → value I a = some (Val.bitvec p) →
      a = .bin w p ∧ ∀ i, g i w p = Val.bitvec (ofInt (w + i) z))
    {w : Nat} (ha : value I a = some (Val.int i)) (hi : 0 ≤ i)
    (hw : bvBitwidth Γ b = some w) (hm : eoAdd (.num w) a = some m) (hz : f b = some z)
    (h : eoToBinLit m (.num z) = some r) (hv : value I (bop s a b) = some v) :
    value I r = some v := by
  obtain ⟨va, vb, hva, hvb, hv⟩ := value_bop_inv I hs hv
  rw [hsym] at hv
  obtain ⟨k, w', p, heq, rfl⟩ := vBvIdx_inv hv
  cases heq
  obtain rfl : i = k := by simpa using ha.symm.trans hva
  obtain ⟨rfl, hg⟩ := hf hz hvb
  obtain rfl := some.inj hw
  rcases numOp_inv hm with ⟨x, y, hx, rfl, rfl⟩ | ⟨x, y, hx, -⟩ | ⟨n, x, y, hx, -⟩ <;> cases hx
  obtain rfl : y = i := by simpa using ha
  obtain ⟨-, -, rfl⟩ := eoToBin_inv h
  have hlen : ((w' : Int) + y).toNat = w' + y.toNat := by omega
  rw [hg, value_bin, hlen]

lemma signExtend_lit (ha : value I a = some (Val.int i))
    (hi : 0 ≤ i) (hw : bvBitwidth Γ b = some w) (hm : eoAdd (.num w) a = some m)
    (hz : bvToSignedInt Γ b = some z) (h : eoToBinLit m (.num z) = some r)
    (hv : value I (bop .signExtend a b) = some v) : value I r = some v := by
  refine extend_lit (f := bvToSignedInt Γ) (g := fun i w x => .bitvec (x.signExtend (w + i))) rfl rfl
    ?_ ha hi hw hm hz h hv
  intro a w p z hz ha
  obtain ⟨rfl, rfl⟩ := eq_bin_of_bvToSignedInt hz ha
  exact ⟨rfl, fun i => rfl⟩

lemma zeroExtend_lit (ha : value I a = some (Val.int i))
    (hi : 0 ≤ i) (hw : bvBitwidth Γ b = some w) (hm : eoAdd (.num w) a = some m)
    (hz : eoToZ b = some z) (h : eoToBinLit m (.num z) = some r)
    (hv : value I (bop .zeroExtend a b) = some v) : value I r = some v := by
  refine extend_lit (f := eoToZ) (g := fun i w x => .bitvec (x.setWidth (w + i))) rfl rfl
    ?_ ha hi hw hm hz h hv
  intro a w p z hz ha
  obtain ⟨rfl, rfl⟩ := eq_bin_of_eoToZ hz ha
  refine ⟨rfl, fun i => ?_⟩
  congr 1
  rw [ofInt_natCast, BitVec.ofNat_toNat]

/-- The conversions from integers: the width and the number are numerals. -/
lemma toBin_lit {w : Int} (ha : value I a = some (Val.int w)) (hb : value I b = some (Val.int z))
    (h : eoToBinLit a b = some r) :
    value I r = some (Val.bitvec (ofInt w.toNat z)) := by
  unfold eoToBinLit at h
  split at h
  · obtain rfl := Val.int_inj.1 (some.inj ha)
    obtain rfl := Val.int_inj.1 (some.inj hb)
    obtain ⟨-, -, rfl⟩ := eoToBin_inv h
    rfl
  · cases hb
  · cases h

lemma extract_lit {m : Int} (hn : 0 ≤ n) (hmn : n ≤ m + 1) (hm : m < w)
    (hb : value I b = some (Val.bitvec p)) (h : eoExtract b n m = some r) :
    value I r = some (Val.bitvec (p.extractLsb' n.toNat (m - n + 1).toNat)) := by
  obtain ⟨w', q, rfl⟩ := eoExtract_inv h
  rw [value_bin, Option.some.injEq] at hb
  obtain rfl := Val.width_eq hb
  obtain rfl := Val.bitvec_inj.1 hb
  by_cases hlt : m < n
  · rw [eoExtract_empty q (by omega) hlt, Option.some.injEq] at h
    have hlen : (m - n + 1).toNat = 0 := by omega
    rw [← h, value_bin, hlen]
    congr 2
    exact (of_length_zero).symm
  have hm' : m = (m.toNat : Int) := by omega
  have hn' : n = (n.toNat : Int) := by omega
  rw [hm', hn', eoExtract_bin q (by omega) (by omega), Option.some.injEq] at h
  have hlen : (m - n + 1).toNat = m.toNat - n.toNat + 1 := by omega
  rw [← h, value_bin, hlen]

lemma sbvToInt_lit (ha : value I a = value I x) (hw : bvBitwidth Γ a = some w)
    (h : (if w = 0 then some (.num 0)
      else (bvSignBit Γ x).bind fun b => (eoToZ a).map fun z =>
        if b = .bin 1 0#1 then .num z else .num (z + -arithEvalIntPow2Num w)) = some r)
    (hv : value I (uop .sbvToInt a) = some v) : value I r = some v := by
  obtain ⟨p, hp⟩ := bvBitwidth_inv (I := I) hw
  have hval : (Val.int p.toInt : Val I.U) = v := by
    rw [value_uop I rfl, hp] at hv
    exact some.inj hv
  rw [← hval]
  cases w with
  | zero =>
    cases h
    simp [of_length_zero]
  | succ w =>
    rw [if_neg (Nat.succ_ne_zero w)] at h
    obtain ⟨c, hc, h⟩ := bind_inv h
    obtain ⟨z, hz, rfl⟩ := map_inv h
    obtain ⟨rfl, rfl⟩ := eq_bin_of_eoToZ hz hp
    obtain ⟨n, hn, hext⟩ := bind_inv hc
    obtain ⟨w', q, rfl⟩ := eoExtract_inv hext
    rw [value_bin, value_bin, Option.some.injEq] at ha
    obtain rfl := Val.width_eq ha
    obtain rfl := Val.bitvec_inj.1 ha
    rw [bvSignBit_bin, Option.some.injEq] at hc
    rw [← hc, BitVec.toInt_eq_msb_cond]
    by_cases hmsb : p.msb = true
    · rw [if_neg (by simp [hmsb]), if_pos hmsb, arithEvalIntPow2Num_nat, value_num]
      push_cast
      rfl
    have hzero : Term.bin 1 (ofBool p.msb) = .bin 1 0#1 := by
      rw [Bool.not_eq_true] at hmsb
      rw [hmsb]
      rfl
    rw [if_pos hzero, if_neg hmsb, value_num]

end BitVectors

/-! ## Equality -/

private lemma eq_lit {a b : Term} {va vb v : Val I.U} (ha : value I a = some va)
    (hb : value I b = some vb) (hiff : a = b ↔ va = vb) (hv : value I (bop .eq a b) = some v) :
    value I (.bool (decide (a = b))) = some v := by
  rw [value_bop I rfl, ha, hb] at hv
  obtain ⟨T, x, y, heq, rfl⟩ := vEq_inv (show vEq [va, vb] = some v from hv)
  cases heq
  rw [Val.mk_inj] at hiff
  rw [value_bool, ← truth_decide, truth_inj.2 hiff]

private lemma bin_eq_iff {w w' : Nat} {p : BitVec w} {q : BitVec w'} :
    Term.bin w p = .bin w' q ↔ (Val.bitvec p : Val U) = Val.bitvec q := by
  constructor
  · intro h
    cases h
    rfl
  intro h
  obtain rfl := Val.width_eq h
  rw [Val.bitvec_inj.1 h]

private lemma str_eq_iff {p q : Str} :
    Term.str p = .str q ↔ (Val.seq .char p : Val U) = Val.seq .char q :=
  ⟨fun h => Val.mk_inj.2 (Term.str.inj h), fun h => congrArg Term.str (Val.mk_inj.1 h)⟩

lemma evalEq_sound {a b : Term} {v : Val I.U} (hv : value I (bop .eq a b) = some v) :
    value I (evalEq a b) = some v := by
  unfold evalEq
  split
  · rename_i h
    cases a <;> cases b <;> simp [isQ] at h
    exact eq_lit (value_rat I _) (value_rat I _) (by simp) hv
  split
  · rename_i h
    cases a <;> cases b <;> simp [isZ] at h
    exact eq_lit (value_num I _) (value_num I _) (by simp) hv
  split
  · rename_i h
    cases a <;> cases b <;> simp [isBin] at h
    exact eq_lit (value_bin I _ _) (value_bin I _ _) bin_eq_iff hv
  split
  · rename_i h
    cases a <;> cases b <;> simp [isStr] at h
    exact eq_lit (value_str I _) (value_str I _) str_eq_iff hv
  split
  · rename_i h
    cases a <;> cases b <;> simp [isBool] at h
    exact eq_lit (value_bool I _) (value_bool I _) (by simp) hv
  · exact hv

/-! ## One case of the evaluator -/

section Cases

variable {s : Sym} {x y z r : Term} {ex ey ez : Option Term} {v : Val I.U} {T : Ty}

/-- A case that evaluates its argument first. -/
private lemma strict_uop {f : Term → Option Term} (hs : s.arity = 1)
    (hex : ∀ a, ex = some a → value I a = value I x) (hv : value I (uop s x) = some v)
    (h : ex.bind f = some r)
    (hop : ∀ {a}, f a = some r → value I (uop s a) = some v → value I r = some v) :
    value I r = some v := by
  obtain ⟨a, ha, h⟩ := bind_inv h
  exact hop h ((value_uop_congr hs (hex a ha)).trans hv)

/-- A case that evaluates both arguments first. -/
private lemma strict_bop {f : Term → Term → Option Term} (hs : s.arity = 2)
    (hex : ∀ a, ex = some a → value I a = value I x)
    (hey : ∀ b, ey = some b → value I b = value I y) (hv : value I (bop s x y) = some v)
    (h : (ex.bind fun a => ey.bind fun b => f a b) = some r)
    (hop : ∀ {a b}, f a b = some r → value I (bop s a b) = some v → value I r = some v) :
    value I r = some v := by
  obtain ⟨a, ha, h⟩ := bind_inv h
  obtain ⟨b, hb, h⟩ := bind_inv h
  exact hop h ((value_bop_congr hs (hex a ha) (hey b hb)).trans hv)

lemma evalUop_sound (hex : ∀ a, ex = some a → value I a = value I x)
    (hv : value I (uop s x) = some v) (h : evalUop Γ s x ex = some r) : value I r = some v := by
  unfold evalUop at h
  split at h
  · exact strict_uop rfl hex hv h eoNot_not
  · exact strict_uop rfl hex hv h eoNeg_uminus
  · obtain ⟨q, hq, rfl⟩ := map_inv h
    obtain ⟨a, ha, hq⟩ := bind_inv hq
    exact eoToQ_toReal hq ((value_uop_congr rfl (hex a ha)).trans hv)
  · obtain ⟨q, hq, rfl⟩ := map_inv h
    obtain ⟨a, ha, hq⟩ := bind_inv hq
    exact eoToZ_toInt hq ((value_uop_congr rfl (hex a ha)).trans hv)
  · refine strict_uop rfl hex hv h fun h hv => ?_
    obtain ⟨m, hm, h⟩ := bind_inv h
    obtain ⟨q, hq, rfl⟩ := map_inv h
    exact isInt_lit hm hq hv
  · refine strict_uop rfl hex hv h fun h hv => ?_
    obtain ⟨n, hn, h⟩ := bind_inv h
    exact abs_lit hn h hv
  · exact strict_uop rfl hex hv h intLog2_lit
  · obtain ⟨a, ha, rfl⟩ := map_inv h
    exact intPow2_lit ((value_uop_congr rfl (hex a ha)).trans hv)
  · exact strict_uop rfl hex hv h intIspow2_lit
  · exact strict_uop rfl hex hv h eoNot_bvnot
  · exact strict_uop rfl hex hv h eoNeg_bvneg
  · obtain ⟨w, hw, rfl⟩ := map_inv h
    obtain ⟨p, hp⟩ := bvBitwidth_inv (I := I) hw
    rw [value_uop I rfl, hp] at hv
    exact hv
  · obtain ⟨n, hn, rfl⟩ := map_inv h
    obtain ⟨a, ha, hn⟩ := bind_inv hn
    obtain ⟨va, hva, hsym⟩ := value_uop_inv I rfl hv
    obtain ⟨w, p, heq, rfl⟩ := vBv1_inv (show vBv1 (fun _ x => .int x.toNat) [va] = some v from hsym)
    cases heq
    obtain ⟨-, rfl⟩ := eq_bin_of_eoToZ hn ((hex a ha).trans hva)
    rfl
  · obtain ⟨a, ha, h⟩ := bind_inv h
    obtain ⟨w, hw, h⟩ := bind_inv h
    exact sbvToInt_lit (hex a ha) hw h ((value_uop_congr rfl (hex a ha)).trans hv)
  · cases h
    exact hv

lemma index_of_typeof {R : Nat → Nat → Ty} (hs : s.arity = 2) (hty : symTy s = tyBvIdx R)
    (h : typeof Γ (bop s x y) = some T) :
    ∃ i : Int, 0 ≤ i ∧ value I x = some (Val.int i) := by
  obtain ⟨A, B, _, _, hsym⟩ := typeof_bop_inv hs h
  rw [hty] at hsym
  obtain ⟨i, S, t, w, heq, hi, _⟩ := tyBvIdx_inv hsym
  cases heq
  exact ⟨i, hi, rfl⟩

private lemma width_of_value (hty : typeof Γ x = some T) (hv : value I x = some v)
    (hw : ∀ w, T = .bitvec w → w < maxWidth) :
    ∀ w (p : BitVec w), v = Val.bitvec p → w < maxWidth := by
  rintro w p rfl
  obtain ⟨t, ht⟩ := value_of_typeof I hty
  have heq := congrArg (Option.map Sigma.fst) (ht.symm.trans hv)
  exact hw w (some.inj heq)

variable {w : Nat}

variable {a b : Term} {p : BitVec w}

private lemma eoGt_bin {q : BitVec w} {g : Bool}
    (ha : value I a = some (Val.bitvec p)) (hb : value I b = some (Val.bitvec q))
    (h : eoGt a b = some g) : a = .bin w p ∧ b = .bin w q ∧ g = decide (p.toNat > q.toNat) := by
  unfold eoGt at h
  split at h
  · cases ha
  · cases ha
  · rw [value_bin, Option.some.injEq] at ha hb
    obtain rfl := Val.width_eq ha
    obtain rfl := Val.width_eq hb
    obtain rfl := Val.bitvec_inj.1 ha
    obtain rfl := Val.bitvec_inj.1 hb
    exact ⟨rfl, rfl, (some.inj h).symm⟩
  · cases h

private lemma bin_inj {q : BitVec w} : Term.bin w p = .bin w q ↔ p.toNat = q.toNat := by
  rw [BitVec.toNat_inj]
  simp

private lemma gt_or_eq {α : Type*} [LinearOrder α] {m n : α} {P : Prop} [Decidable P]
    (hP : P ↔ m = n) : (decide (n > m) || decide P) = decide (m ≤ n) := by
  rw [← Bool.decide_or, decide_eq_decide, hP]
  exact le_iff_lt_or_eq.symm

private lemma bvule_lit (h : ((eoGt b a).map fun g => Term.bool (g || decide (a = b))) = some r)
    (hv : value I (bop .bvule a b) = some v) : value I r = some v := by
  obtain ⟨va, vb, hva, hvb, hsym⟩ := value_bop_inv I rfl hv
  obtain ⟨w, p, q, heq, rfl⟩ := vBv2_inv
    (show vBv2 (fun _ x y => .bool (x.ule y)) [va, vb] = some v from hsym)
  cases heq
  obtain ⟨g, hg, rfl⟩ := map_inv h
  obtain ⟨rfl, rfl, rfl⟩ := eoGt_bin hvb hva hg
  rw [value_bool, gt_or_eq bin_inj]
  rfl

private lemma bvuge_lit (h : ((eoGt a b).map fun g => Term.bool (g || decide (a = b))) = some r)
    (hv : value I (bop .bvuge a b) = some v) : value I r = some v := by
  obtain ⟨va, vb, hva, hvb, hsym⟩ := value_bop_inv I rfl hv
  obtain ⟨w, p, q, heq, rfl⟩ := vBv2_inv
    (show vBv2 (fun _ x y => .bool (y.ule x)) [va, vb] = some v from hsym)
  cases heq
  obtain ⟨g, hg, rfl⟩ := map_inv h
  obtain ⟨rfl, rfl, rfl⟩ := eoGt_bin hva hvb hg
  rw [value_bool, gt_or_eq (bin_inj.trans eq_comm)]
  rfl

private lemma unsigned_lit {m : Int} (h : eoToZ a = some m)
    (ha : value I a = some (Val.bitvec p)) : m = p.toNat := (eq_bin_of_eoToZ h ha).2

private lemma signed_lit {m : Int}
    (h : bvToSignedInt Γ a = some m) (ha : value I a = some (Val.bitvec p)) : m = p.toInt :=
  (eq_bin_of_bvToSignedInt h ha).2

/-- A comparison of the integers that `f` reads off the evaluated arguments. -/
private lemma bvRel_case {f : Term → Option Int} {g : ∀ w, BitVec w → BitVec w → Bool}
    {k : ∀ w, BitVec w → Int} {c : Int → Int → Bool} (hs : s.arity = 2)
    (hsym : symVal I s = vBv2 fun w x y => .bool (g w x y))
    (hf : ∀ {a w} {p : BitVec w} {m}, f a = some m → value I a = some (Val.bitvec p) → m = k w p)
    (hg : ∀ w (x y : BitVec w), g w x y = c (k w x) (k w y))
    (hex : ∀ a, ex = some a → value I a = value I x)
    (hey : ∀ b, ey = some b → value I b = value I y) (hv : value I (bop s x y) = some v)
    (h : ((ex.bind f).bind fun a => (ey.bind f).map fun b => Term.bool (c a b)) = some r) :
    value I r = some v := by
  obtain ⟨m, hm, h⟩ := bind_inv h
  obtain ⟨a, ha, hm⟩ := bind_inv hm
  obtain ⟨n, hn, rfl⟩ := map_inv h
  obtain ⟨b, hb, hn⟩ := bind_inv hn
  obtain ⟨va, vb, hva, hvb, hv⟩ := value_bop_inv I hs hv
  rw [hsym] at hv
  obtain ⟨w, p, q, heq, rfl⟩ := vBv2_inv hv
  cases heq
  rw [hf hm ((hex a ha).trans hva), hf hn ((hey b hb).trans hvb), hg]
  rfl

lemma evalBop_sound (hex : ∀ a, ex = some a → value I a = value I x)
    (hey : ∀ b, ey = some b → value I b = value I y) (hty : typeof Γ (bop s x y) = some T)
    (hw : ∀ w, T = .bitvec w → w < maxWidth) (hv : value I (bop s x y) = some v)
    (h : evalBop Γ s x y ex ey = some r) : value I r = some v := by
  cases s with
  | eq =>
    obtain ⟨a, ha, h⟩ := bind_inv h
    obtain ⟨b, hb, rfl⟩ := map_inv h
    exact evalEq_sound ((value_bop_congr rfl (hex a ha) (hey b hb)).trans hv)
  | or => exact strict_bop rfl hex hey hv h (logicOp_bool rfl rfl)
  | imp =>
    obtain ⟨na, hna, h⟩ := bind_inv h
    obtain ⟨a, ha, hna⟩ := bind_inv hna
    obtain ⟨b, hb, h⟩ := bind_inv h
    exact eoOr_imp hna h ((value_bop_congr rfl (hex a ha) (hey b hb)).trans hv)
  | and => exact strict_bop rfl hex hey hv h (logicOp_bool rfl rfl)
  | xor => exact strict_bop rfl hex hey hv h (logicOp_bool rfl rfl)
  | lt => exact strict_bop rfl hex hey hv h evalLt_lt
  | leq => exact strict_bop rfl hex hey hv h evalLeq_leq
  | gt => exact strict_bop rfl hex hey hv h evalLt_gt
  | geq => exact strict_bop rfl hex hey hv h evalLeq_geq
  | plus => exact strict_bop rfl hex hey hv h (numOp_arith rfl rfl (by simp))
  | minus =>
    obtain ⟨a, ha, h⟩ := bind_inv h
    obtain ⟨nb, hnb, h⟩ := bind_inv h
    obtain ⟨b, hb, hnb⟩ := bind_inv hnb
    exact eoAdd_minus hnb h ((value_bop_congr rfl (hex a ha) (hey b hb)).trans hv)
  | times => exact strict_bop rfl hex hey hv h (numOp_arith rfl rfl (by simp))
  | qdiv =>
    obtain ⟨p, hp, h⟩ := bind_inv h
    obtain ⟨a, ha, hp⟩ := bind_inv hp
    obtain ⟨q, hq, h⟩ := bind_inv h
    obtain ⟨b, hb, hq⟩ := bind_inv hq
    refine eoQdiv_lit (s := .qdiv) rfl rfl ?_ hp hq h
      ((value_bop_congr rfl (hex a ha) (hey b hb)).trans hv)
    exact fun x y hy => if_neg hy
  | qdivTotal =>
    obtain ⟨q, hq, h⟩ := bind_inv h
    obtain ⟨b, hb, hq⟩ := bind_inv hq
    have hvb := (value_bop_congr (s := .qdivTotal) rfl (rfl : value I x = _) (hey b hb)).trans hv
    split at h
    · rename_i hq0
      cases h
      exact qdivTotal_zero (hq0 ▸ hq) hvb
    obtain ⟨p, hp, h⟩ := bind_inv h
    obtain ⟨a, ha, hp⟩ := bind_inv hp
    exact eoQdiv_lit (s := .qdivTotal) rfl rfl (fun _ _ _ => rfl) hp hq h
      ((value_bop_congr rfl (hex a ha) (hey b hb)).trans hv)
  | div => exact strict_bop rfl hex hey hv h (intDivOp_int rfl rfl fun _ _ hy => if_neg hy)
  | divTotal =>
    obtain ⟨b, hb, h⟩ := bind_inv h
    split at h
    · rename_i hb0
      subst hb0
      cases h
      exact divTotal_zero ((value_bop_congr (a := x) rfl rfl (hey _ hb)).trans hv)
    obtain ⟨a, ha, h⟩ := bind_inv h
    exact intDivOp_int (s := .divTotal) rfl rfl (fun _ _ _ => rfl) h
      ((value_bop_congr rfl (hex a ha) (hey b hb)).trans hv)
  | mod => exact strict_bop rfl hex hey hv h (intDivOp_int rfl rfl fun _ _ hy => if_neg hy)
  | modTotal =>
    obtain ⟨b, hb, h⟩ := bind_inv h
    split at h
    · rename_i hb0
      subst hb0
      rw [hex r h]
      exact modTotal_zero ((value_bop_congr (a := x) rfl rfl (hey _ hb)).trans hv)
    obtain ⟨a, ha, h⟩ := bind_inv h
    exact intDivOp_int (s := .modTotal) rfl rfl (fun _ _ _ => rfl) h
      ((value_bop_congr rfl (hex a ha) (hey b hb)).trans hv)
  | bvadd => exact strict_bop rfl hex hey hv h (numOp_bv rfl rfl)
  | bvmul => exact strict_bop rfl hex hey hv h (numOp_bv rfl rfl)
  | bvudiv =>
    obtain ⟨b, hb, h⟩ := bind_inv h
    obtain ⟨n, hn, h⟩ := bind_inv h
    split at h
    · rename_i hn0
      obtain ⟨w, hwx, h⟩ := bind_inv h
      exact bvudiv_zero (hn0 ▸ hn) hwx h ((value_bop_congr (a := x) rfl rfl (hey b hb)).trans hv)
    obtain ⟨a, ha, h⟩ := bind_inv h
    exact intDivOp_bv (s := .bvudiv) rfl rfl h
      ((value_bop_congr rfl (hex a ha) (hey b hb)).trans hv)
  | bvurem =>
    obtain ⟨b, hb, h⟩ := bind_inv h
    obtain ⟨n, hn, h⟩ := bind_inv h
    split at h
    · rename_i hn0
      rw [hex r h]
      exact bvurem_zero (hn0 ▸ hn) ((value_bop_congr (a := x) rfl rfl (hey b hb)).trans hv)
    obtain ⟨a, ha, h⟩ := bind_inv h
    exact intDivOp_bv (s := .bvurem) rfl rfl h
      ((value_bop_congr rfl (hex a ha) (hey b hb)).trans hv)
  | bvand => exact strict_bop rfl hex hey hv h (logicOp_bv rfl rfl)
  | bvor => exact strict_bop rfl hex hey hv h (logicOp_bv rfl rfl)
  | bvxor => exact strict_bop rfl hex hey hv h (logicOp_bv rfl rfl)
  | concat =>
    exact strict_bop rfl hex hey hv h fun h hv' => concat_lit h hv' (width_of_value hty hv hw)
  | bvsub =>
    obtain ⟨a, ha, h⟩ := bind_inv h
    obtain ⟨nb, hnb, h⟩ := bind_inv h
    obtain ⟨b, hb, hnb⟩ := bind_inv hnb
    exact eoAdd_bvsub hnb h ((value_bop_congr rfl (hex a ha) (hey b hb)).trans hv)
  | bvult =>
    refine bvRel_case (g := fun _ x y => x.ult y) (c := fun m n => decide (n > m)) rfl rfl
      unsigned_lit ?_ hex hey hv h
    intro w p q
    simp [ult]
  | bvule => exact strict_bop rfl hex hey hv h bvule_lit
  | bvugt =>
    refine bvRel_case (g := fun _ x y => y.ult x) (c := fun m n => decide (m > n)) rfl rfl
      unsigned_lit ?_ hex hey hv h
    intro w p q
    simp [ult]
  | bvuge => exact strict_bop rfl hex hey hv h bvuge_lit
  | bvslt =>
    refine bvRel_case (g := fun _ x y => x.slt y) (c := fun m n => decide (n > m)) rfl rfl
      signed_lit ?_ hex hey hv h
    intro w p q
    simp [slt]
  | bvsle =>
    refine bvRel_case (g := fun _ x y => x.sle y)
      (c := fun m n => decide (n > m) || decide (m = n)) rfl rfl signed_lit ?_ hex hey hv h
    intro w p q
    rw [gt_or_eq Iff.rfl]
    rfl
  | bvsgt =>
    refine bvRel_case (g := fun _ x y => y.slt x) (c := fun m n => decide (m > n)) rfl rfl
      signed_lit ?_ hex hey hv h
    intro w p q
    simp [slt]
  | bvsge =>
    refine bvRel_case (g := fun _ x y => y.sle x)
      (c := fun m n => decide (m > n) || decide (m = n)) rfl rfl signed_lit ?_ hex hey hv h
    intro w p q
    rw [gt_or_eq eq_comm]
    rfl
  | bvshl =>
    obtain ⟨b, hb, _⟩ := bind_inv h
    exact bvshl_lit hex hb h ((value_bop_congr (a := x) rfl rfl (hey b hb)).trans hv)
  | bvlshr =>
    obtain ⟨b, hb, _⟩ := bind_inv h
    exact bvlshr_lit hex hb h ((value_bop_congr (a := x) rfl rfl (hey b hb)).trans hv)
  | bvashr =>
    obtain ⟨a, ha, h⟩ := bind_inv h
    obtain ⟨b, hb, h⟩ := bind_inv h
    obtain ⟨n, hn, h⟩ := bind_inv h
    obtain ⟨w, hwx, h⟩ := bind_inv h
    obtain ⟨m, hm, h⟩ := bind_inv h
    obtain ⟨t, ht, h⟩ := bind_inv h
    exact bvashr_lit (hex a ha) hn hwx hm ht h
      ((value_bop_congr (a := x) rfl rfl (hey b hb)).trans hv)
  | bvrepeat =>
    obtain ⟨i, hi, hxi⟩ := index_of_typeof (I := I) (R := fun i w => .bitvec (w * i)) rfl rfl hty
    obtain ⟨a, ha, h⟩ := bind_inv h
    obtain ⟨b, hb, h⟩ := bind_inv h
    exact repeat_lit ((hex a ha).trans hxi) hi h
      ((value_bop_congr rfl (hex a ha) (hey b hb)).trans hv) (width_of_value hty hv hw)
  | signExtend =>
    obtain ⟨i, hi, hxi⟩ := index_of_typeof (I := I) (R := fun i w => .bitvec (w + i)) rfl rfl hty
    obtain ⟨a, ha, h⟩ := bind_inv h
    obtain ⟨b, hb, h⟩ := bind_inv h
    obtain ⟨w, hwb, h⟩ := bind_inv h
    obtain ⟨m, hm, h⟩ := bind_inv h
    obtain ⟨n, hn, h⟩ := bind_inv h
    exact signExtend_lit ((hex a ha).trans hxi) hi hwb hm hn h
      ((value_bop_congr rfl (hex a ha) (hey b hb)).trans hv)
  | zeroExtend =>
    obtain ⟨i, hi, hxi⟩ := index_of_typeof (I := I) (R := fun i w => .bitvec (w + i)) rfl rfl hty
    obtain ⟨a, ha, h⟩ := bind_inv h
    obtain ⟨b, hb, h⟩ := bind_inv h
    obtain ⟨w, hwb, h⟩ := bind_inv h
    obtain ⟨m, hm, h⟩ := bind_inv h
    obtain ⟨n, hn, h⟩ := bind_inv h
    exact zeroExtend_lit ((hex a ha).trans hxi) hi hwb hm hn h
      ((value_bop_congr rfl (hex a ha) (hey b hb)).trans hv)
  | bv =>
    obtain ⟨b, hb, h⟩ := bind_inv h
    obtain ⟨a, ha, h⟩ := bind_inv h
    obtain ⟨va, vb, hva, hvb, hsym⟩ := value_bop_inv I rfl hv
    obtain ⟨m, n, heq, rfl⟩ := vInt2_inv
      (show vInt2 (fun n w => .bitvec (ofInt w.toNat n)) [va, vb] = some v from hsym)
    cases heq
    exact toBin_lit ((hey b hb).trans hvb) ((hex a ha).trans hva) h
  | intToBv =>
    obtain ⟨a, ha, h⟩ := bind_inv h
    obtain ⟨b, hb, h⟩ := bind_inv h
    obtain ⟨va, vb, hva, hvb, hsym⟩ := value_bop_inv I rfl hv
    obtain ⟨m, n, heq, rfl⟩ := vInt2_inv
      (show vInt2 (fun w n => .bitvec (ofInt w.toNat n)) [va, vb] = some v from hsym)
    cases heq
    exact toBin_lit ((hex a ha).trans hva) ((hey b hb).trans hvb) h
  | _ =>
    cases h
    exact hv

lemma evalTop_sound (hex : ∀ a, ex = some a → value I a = value I x)
    (hey : ∀ b, ey = some b → value I b = value I y)
    (hez : ∀ c, ez = some c → value I c = value I z)
    (hty : typeof Γ (.app (bop s x y) z) = some T) (hv : value I (.app (bop s x y) z) = some v)
    (h : evalTop s x y z ex ey ez = some r) : value I r = some v := by
  cases s with
  | ite =>
    obtain ⟨c, hc, h⟩ := bind_inv h
    obtain ⟨t, ht, h⟩ := bind_inv h
    have hcx := hex c hc
    rw [value_top I rfl, ← hcx] at hv
    obtain ⟨vc, hvc, hv⟩ := bind_inv hv
    obtain ⟨vy, hvy, hv⟩ := bind_inv hv
    obtain ⟨vz, hvz, hv⟩ := bind_inv hv
    obtain ⟨b, S, p, q, heq, rfl⟩ := vIte_inv (show vIte [vc, vy, vz] = some v from hv)
    cases heq
    unfold eoIte at ht
    split at ht
    · cases ht
      obtain rfl : true = b := by simpa using hvc
      exact (hey r h).trans hvy
    · cases ht
      obtain rfl : false = b := by simpa using hvc
      exact (hez r h).trans hvz
    · cases ht
  | extract =>
    obtain ⟨b, hb, h⟩ := bind_inv h
    split at h
    swap
    · cases h
    rename_i m n _
    rw [typeof_top Γ rfl] at hty
    obtain ⟨A, hA, hty⟩ := bind_inv hty
    obtain ⟨B, hB, hty⟩ := bind_inv hty
    obtain ⟨C, hC, hty⟩ := bind_inv hty
    obtain ⟨m, S, n, S', t, w, heq, hn, hmn, hm, _⟩ := tyExtract_inv
      (show tyExtract [(.num m, A), (.num n, B), (z, C)] = some T from hty)
    cases heq
    obtain ⟨p, hp⟩ := value_of_typeof I hC
    have hval := extract_lit hn hmn hm ((hez b hb).trans hp) h
    rw [value_top I rfl, hp] at hv
    rw [hval]
    exact hv
  | _ =>
    cases h
    exact hv

end Cases

/-! ## Soundness -/

/-- All bit-vectors that occur in a term have at most the width `W`. -/
def WidthsLe (Γ : Nat → Ty) (W : Nat) : Term → Prop
  | .app f a => (∀ w, typeof Γ (.app f a) = some (.bitvec w) → w ≤ W) ∧
      WidthsLe Γ W f ∧ WidthsLe Γ W a
  | t => ∀ w, typeof Γ t = some (.bitvec w) → w ≤ W

/-- The parts of a well-typed application are well typed. -/
private lemma tyDen_parts {f a : Term} {d : TyDen} (h : tyDen Γ (.app f a) = some d) :
    (∃ e, tyDen Γ f = some e) ∧ ∃ S, typeof Γ a = some S := by
  obtain ⟨S, hS, ⟨B, hf, -⟩ | ⟨s, args, hf, -⟩⟩ := tyDen_app_inv h
  · exact ⟨⟨_, hf⟩, S, hS⟩
  · exact ⟨⟨_, hf⟩, S, hS⟩

/-- A well-typed term has the value of the term it evaluates to, as long as
widths fit an `uint32_t`. -/
lemma runEvaluate_sound {W : Nat} (hW : W < maxWidth) :
    ∀ {t : Term} {T : Ty} {r : Term}, typeof Γ t = some T → WidthsLe Γ W t →
      runEvaluate Γ t = some r → value I r = value I t := by
  intro t
  induction t using runEvaluate.induct with
  | case1 s x ih =>
    intro T r hty hw h
    obtain ⟨v, hv⟩ := value_of_typeof I hty
    obtain ⟨_, S, hS⟩ := tyDen_parts (typeof_eq_some.1 hty)
    rw [hv]
    rw [runEvaluate] at h
    exact evalUop_sound (fun a ha => ih hS hw.2.2 ha) hv h
  | case2 s x y ihx ihy =>
    intro T r hty hw h
    obtain ⟨v, hv⟩ := value_of_typeof I hty
    obtain ⟨⟨e, he⟩, S, hS⟩ := tyDen_parts (typeof_eq_some.1 hty)
    obtain ⟨_, S', hS'⟩ := tyDen_parts he
    rw [hv]
    rw [runEvaluate] at h
    refine evalBop_sound (fun a ha => ihx hS' hw.2.1.2.2 ha) (fun b hb => ihy hS hw.2.2 hb) hty
      ?_ hv h
    rintro w rfl
    exact lt_of_le_of_lt (hw.1 w hty) hW
  | case3 s x y z ihx ihy ihz =>
    intro T r hty hw h
    obtain ⟨v, hv⟩ := value_of_typeof I hty
    obtain ⟨⟨e, he⟩, S, hS⟩ := tyDen_parts (typeof_eq_some.1 hty)
    obtain ⟨⟨e', he'⟩, S', hS'⟩ := tyDen_parts he
    obtain ⟨_, S'', hS''⟩ := tyDen_parts he'
    rw [hv]
    rw [runEvaluate] at h
    exact evalTop_sound (fun a ha => ihx hS'' hw.2.1.2.1.2.2 ha)
      (fun b hb => ihy hS' hw.2.1.2.2 hb) (fun c hc => ihz hS hw.2.2 hc) hty hv h
  | case4 t h1 h2 h3 =>
    intro T r hty hw h
    rw [runEvaluate] at h
    · rw [some.inj h]
    all_goals assumption

/-- The operators of the Booleans, of arithmetic and of bit-vectors that
`$run_evaluate` has a case for. -/
def Sym.evaluated : Sym → Bool
  | .listNil | .listCons | .divisible | .seqEmpty _ | .strConcat | .strToRe | .reNone | .reAll
  | .reAllchar | .reConcat | .reInter | .reUnion | .aciSorted => false
  | _ => true

/-- Terms over the operators that are evaluated. -/
def Evaluated (t : Term) : Prop := ∀ s ∈ t.syms, s.evaluated = true

/-- Every term whose bit-vectors have at most the width `W` evaluates to a term
of the same value. -/
def RunEvaluateSound (W : Nat) : Prop :=
  ∀ (Γ : Nat → Ty) (I : Interp Γ) (t r : Term) (T : Ty), typeof Γ t = some T → Evaluated t →
    WidthsLe Γ W t → runEvaluate Γ t = some r → value I r = value I t

/-- The rule `evaluate` concludes true equations. -/
def EvaluateSound (W : Nat) : Prop :=
  ∀ (Γ : Nat → Ty) (I : Interp Γ) (t c : Term) (T : Ty), typeof Γ t = some T → Evaluated t →
    WidthsLe Γ W t → evaluate Γ t = some c → Sat I c

lemma evaluateSound_of_runEvaluateSound {W : Nat} (h : RunEvaluateSound W) : EvaluateSound W := by
  intro Γ I t c T hty heval hw hc
  obtain ⟨r, hr, rfl⟩ := map_inv hc
  obtain ⟨v, hv⟩ := value_of_typeof I hty
  exact sat_eq.2 ⟨_, hv, (h Γ I t r T hty heval hw hr).trans hv⟩

/-! ## A width that wraps -/

/-- The number of a concatenation of a zero of width `a` and a one of width `b`. -/
def wideConcat (a b : Nat) : Term :=
  uop .ubvToInt (bop .concat (bop .bv (.num 0) (.num a))
    (bop .concat (bop .bv (.num 1) (.num b)) (.bin 0 0#0)))

lemma eoToBin_natCast {n : Nat} (hn : n < maxWidth) (z : Int) :
    eoToBin n z = some (.bin n (ofInt n z)) := by
  have hcond : (0 : Int) ≤ n ∧ (n : Int) < maxWidth := by omega
  rw [eoToBin, if_pos hcond, Int.toNat_natCast]

private lemma runEvaluate_bop (s : Sym) (x y : Term) :
    runEvaluate Γ (bop s x y) = evalBop Γ s x y (runEvaluate Γ x) (runEvaluate Γ y) := by
  rw [runEvaluate]

private lemma runEvaluate_bv (z : Int) {n : Nat} (hn : n < maxWidth) :
    runEvaluate Γ (bop .bv (.num z) (.num n)) = some (.bin n (ofInt n z)) := by
  have hlit : ∀ x y a b, evalBop Γ .bv x y (some a) (some b) = eoToBinLit b a :=
    fun _ _ _ _ => rfl
  have hnum : ∀ m : Int, runEvaluate Γ (.num m) = some (.num m) := fun _ => rfl
  rw [runEvaluate_bop, hnum, hnum, hlit, eoToBinLit, eoToBin_natCast hn]

private lemma runEvaluate_concat {x y a b : Term} (ha : runEvaluate Γ x = some a)
    (hb : runEvaluate Γ y = some b) : runEvaluate Γ (bop .concat x y) = eoConcat a b := by
  have hlit : evalBop Γ .concat x y (some a) (some b) = eoConcat a b := rfl
  rw [runEvaluate_bop, ha, hb, hlit]

/-- Concatenation of binaries whose widths add up to `2 ^ 32` gives the empty
binary. -/
lemma eoConcat_wraps {a b : Nat} (hab : a + b = maxWidth) (p : BitVec a) (q : BitVec b) :
    (eoConcat (.bin a p) (.bin b q)).bind eoToZ = some 0 := by
  have hw : (a + b) % maxWidth = 0 := by rw [hab, Nat.mod_self]
  have hzero : ∀ n (x : BitVec n), n = 0 → x.toNat = 0 := by
    intro n x hn
    subst hn
    simp [of_length_zero]
  simp only [eoConcat, bind_some, eoToZ, hzero _ _ hw]
  rfl

lemma runEvaluate_wideConcat {a b : Nat} (ha : a < maxWidth) (hb : b < maxWidth)
    (hab : a + b = maxWidth) : runEvaluate Γ (wideConcat a b) = some (.num 0) := by
  have htail : runEvaluate Γ (bop .concat (bop .bv (.num 1) (.num b)) (.bin 0 0#0)) =
      some (.bin b (ofInt b 1 ++ 0#0)) := by
    rw [runEvaluate_concat (runEvaluate_bv 1 hb) (rfl : runEvaluate Γ (.bin 0 0#0) = _)]
    exact eoConcat_bin _ _ hb
  have hconcat := runEvaluate_concat (runEvaluate_bv (Γ := Γ) 0 ha) htail
  have hubv : ∀ x, runEvaluate Γ (uop .ubvToInt x) = ((runEvaluate Γ x).bind eoToZ).map .num := by
    intro x
    rw [runEvaluate]
    rfl
  rw [wideConcat, hubv, hconcat, eoConcat_wraps hab]
  rfl

lemma value_wideConcat {a b : Nat} (hb : 0 < b) : value I (wideConcat a b) = some (Val.int 1) := by
  have hone : 1 < 2 ^ b := Nat.one_lt_two_pow (by omega)
  rw [wideConcat, value_uop I rfl, value_bop I rfl, value_bop I rfl, value_bop I rfl,
    value_bop I rfl]
  simp only [value_num, value_bin, bind_some]
  show some (Val.int ((ofInt a 0 ++ (ofInt b 1 ++ 0#0)).toNat : Int)) = _
  have hval : (ofInt a 0 ++ (ofInt b 1 ++ 0#0)).toNat = 1 := by
    rw [toNat_append, toNat_append, show (1 : Int) = ((1 : Nat) : Int) from rfl,
      ofInt_natCast, toNat_ofNat, Nat.mod_eq_of_lt hone]
    simp
  rw [hval]
  rfl

private lemma typeof_bv (z : Int) (n : Nat) :
    typeof Γ (bop .bv (.num z) (.num n)) = some (.bitvec n) := by
  rw [typeof_bop Γ rfl]
  show tyBvLit [(.num z, .int), (.num n, .int)] = _
  rw [tyBvLit, if_pos (by omega), Int.toNat_natCast]

private lemma typeof_concat {x y : Term} {m n : Nat} (hx : typeof Γ x = some (.bitvec m))
    (hy : typeof Γ y = some (.bitvec n)) :
    typeof Γ (bop .concat x y) = some (.bitvec (m + n)) := by
  rw [typeof_bop Γ rfl, hx, hy]
  rfl

lemma typeof_wideConcat (a b : Nat) : typeof Γ (wideConcat a b) = some .int := by
  have hconcat := typeof_concat (typeof_bv (Γ := Γ) 0 a)
    (typeof_concat (typeof_bv (Γ := Γ) 1 b) (rfl : typeof Γ (.bin 0 0#0) = _))
  rw [wideConcat, typeof_uop Γ rfl, hconcat]
  rfl

private lemma widthsLe_bop {W n : Nat} {s : Sym} {x y : Term} (hs : s.arity = 2)
    (hx : WidthsLe Γ W x) (hy : WidthsLe Γ W y) (hty : typeof Γ (bop s x y) = some (.bitvec n))
    (hn : n ≤ W) : WidthsLe Γ W (bop s x y) := by
  have hpart : ∀ w, typeof Γ (.app (.sym s) x) ≠ some (.bitvec w) := by
    intro w h
    obtain ⟨S, hS, ⟨B, hf, -⟩ | ⟨s', args, hf, hc⟩⟩ := tyDen_app_inv (typeof_eq_some.1 h)
    · simp [tyDen, completeTy, hs] at hf
    · obtain ⟨rfl, rfl⟩ : s' = s ∧ args = [] := by simpa [tyDen, completeTy, hs, eq_comm] using hf
      simp [completeTy, hs] at hc
  have hsym : ∀ w, typeof Γ (.sym s) ≠ some (.bitvec w) := by
    intro w h
    simp [typeof, tyDen, completeTy, hs, TyDen.ty?] at h
  refine ⟨fun w h => ?_, ⟨fun w h => absurd h (hpart w), fun w h => absurd h (hsym w), hx⟩, hy⟩
  rw [hty] at h
  cases h
  exact hn

lemma widthsLe_wideConcat {a b W : Nat} (hW : a + b ≤ W) : WidthsLe Γ W (wideConcat a b) := by
  have hlit : ∀ z : Int, WidthsLe Γ W (.num z) := by
    intro z w h
    cases h
  have hnil : WidthsLe Γ W (.bin 0 0#0) := by
    intro w h
    cases h
    exact Nat.zero_le W
  have hbv : ∀ (z : Int) {n : Nat}, n ≤ W → WidthsLe Γ W (bop .bv (.num z) (.num n)) :=
    fun z n hn => widthsLe_bop rfl (hlit z) (hlit n) (typeof_bv z n) hn
  have htail : typeof Γ (bop .concat (bop .bv (.num 1) (.num b)) (.bin 0 0#0)) =
      some (.bitvec (b + 0)) := typeof_concat (typeof_bv 1 b) rfl
  refine ⟨fun w h => ?_, fun w h => ?_, ?_⟩
  · have hint := (typeof_wideConcat a b).symm.trans h
    cases hint
  · cases h
  · exact widthsLe_bop rfl (hbv 0 (by omega)) (widthsLe_bop rfl (hbv 1 (by omega)) hnil htail (by omega))
      (typeof_concat (typeof_bv 0 a) htail) hW

lemma evaluated_wideConcat (a b : Nat) : Evaluated (wideConcat a b) := by
  intro s hs
  simp only [wideConcat, Term.syms, List.mem_append, List.mem_singleton, List.not_mem_nil,
    or_false] at hs
  rcases hs with rfl | ((rfl | rfl) | ((rfl | rfl))) <;> rfl

/-- Constants are zero, and so is everything that is not determined. -/
noncomputable def zeroInterp : Interp fun _ => .int where
  U := fun _ => Unit
  const := fun _ => (0 : Int)
  divByZero := fun _ => 0
  intDivByZero := fun _ => 0
  modByZero := fun _ => 0

end EthosCpc
