import EthosCpc.Cpc.ArithRewrites
import EthosCpc.Cpc.ArithBvConvSpec
import EthosCpc.Cpc.ArithLinearSpec

/-!
# Validity of the arithmetic rewrites

What the conclusion of a rule says is computed from the values of the
parameters, for every typing that the conclusion admits.  The rules over one
arithmetic type are read over the reals; a rule with a numeral next to a
parameter is only well typed over the integers.

The one rule whose typing admits too much is `arith-int-eq-conflict`: it
declares an integer below `to_real`, where a real is accepted as well.
-/

namespace EthosCpc

open Term (bop uop)
variable {Γ : Nat → Ty} {I : Interp Γ} {a b c r s t z : Term} {T : Ty} {p q : Prop}

/-! ## Typed applications -/

lemma arithVals_of_rel {op : Sym} {R : Ty → Ty} (hs : op.arity = 2)
    (hty : symTy op = tyArith2 R) (h : typeof Γ (bop op a b) = some T) (I : Interp Γ) :
    ∃ S x y, ArithVal I S a x ∧ ArithVal I S b y := by
  obtain ⟨S, ha, hb, hS, -⟩ := typeof_arith2_inv hs hty h
  obtain ⟨x, hx⟩ := arithVal_of_typeof ha hS
  obtain ⟨y, hy⟩ := arithVal_of_typeof hb hS
  exact ⟨S, x, y, hx, hy⟩

lemma intVals_of_fn {op : Sym} {R : Ty} (hs : op.arity = 2)
    (hty : symTy op = tyFn2 .int .int R) (h : typeof Γ (bop op a b) = some T) (I : Interp Γ) :
    ∃ x y, IntVal I a x ∧ IntVal I b y := by
  obtain ⟨A, B, ha, hb, h⟩ := typeof_bop_inv hs h
  rw [hty] at h
  obtain ⟨_, _, heq, _⟩ := tyFn2_inv h
  cases heq
  obtain ⟨x, hx⟩ := value_of_typeof I ha
  obtain ⟨y, hy⟩ := value_of_typeof I hb
  exact ⟨x, y, hx, hy⟩

lemma ArithVal.intVal {x : ℝ} (h : ArithVal I .int a x) : ∃ n : Int, IntVal I a n ∧ x = n := by
  rcases h with ⟨-, n, hn, hx⟩ | ⟨h, -⟩
  · exact ⟨n, hn, hx⟩
  · contradiction

lemma IntVal.arithVal {n : Int} (h : IntVal I a n) : ArithVal I .int a n := arithVal_int h

variable {S : Ty}

lemma ArithVal.type_eq {x : ℝ} {n : Int} (h : ArithVal I S a x) (hn : IntVal I a n) :
    S = .int ∧ x = n := by
  obtain ⟨rfl, rfl⟩ := (arithVal_int hn).unique h
  exact ⟨rfl, rfl⟩

lemma intVals_of_intPlus {op : Sym} {R : Ty → Ty} {k : Int} (hs : op.arity = 2)
    (hty : symTy op = tyArith2 R) (h : typeof Γ (bop op a (intPlus b (.num k))) = some T)
    (I : Interp Γ) :
    ∃ x y, IntVal I a x ∧ IntVal I b y ∧ IntVal I (intPlus b (.num k)) (y + k) := by
  obtain ⟨S, x, w, ha, hsum⟩ := arithVals_of_rel hs hty h I
  obtain ⟨y, w', hb, hk, _⟩ := arithVal_op2_inv rfl rfl (fun _ _ => Int.cast_add _ _) hsum
  obtain ⟨y', w', hk, _, _⟩ := arithVal_op2_inv rfl rfl (fun _ _ => Int.cast_add _ _) hk
  have hnum : IntVal I (.num k) k := intVal_num.2 rfl
  obtain ⟨rfl, -⟩ := hk.type_eq hnum
  obtain ⟨m, hm, _⟩ := ha.intVal
  obtain ⟨n, hn, _⟩ := hb.intVal
  exact ⟨m, n, hm, hn, intVal_intPlus_iff.2 ⟨n, k, hn, hnum, rfl⟩⟩

lemma typeof_ite_inv (h : typeof Γ (.app (bop .ite c a) b) = some T) :
    typeof Γ c = some .bool ∧ typeof Γ a = some T ∧ typeof Γ b = some T := by
  rw [typeof_top Γ rfl] at h
  obtain ⟨C, hc, h⟩ := bind_inv h
  obtain ⟨A, ha, h⟩ := bind_inv h
  obtain ⟨B, hb, h⟩ := bind_inv h
  obtain ⟨_, _, _, heq⟩ := tyIte_inv (show tyIte [(c, C), (a, A), (b, B)] = some T from h)
  cases heq
  exact ⟨hc, ha, hb⟩

lemma typeof_abs_inv (h : typeof Γ (uop .abs a) = some T) :
    typeof Γ a = some T ∧ (T = .int ∨ T = .real) := by
  rw [typeof_uop Γ rfl] at h
  obtain ⟨A, hA, h⟩ := bind_inv h
  obtain ⟨_, S, heq, hS, rfl⟩ := tyArith1_inv (show tyArith1 id [(a, A)] = some T from h)
  cases heq
  exact ⟨hA, hS⟩

lemma arithVal_numZero : ArithVal I .int (.num 0) 0 := by
  simpa using arithVal_int (I := I) (value_num I 0)

lemma arithVal_ratZero : ArithVal I .real (.rat 0) 0 := by
  simpa using arithVal_real (I := I) (value_rat I 0)

/-! ## Comparisons of both types -/

section Comparisons

variable {x y : ℝ} (ht : ArithVal I T t x) (hs : ArithVal I T s y)
include ht hs

lemma elimGt_sat : Sat I (bop .eq (bop .gt t s) (uop .not (bop .geq s t))) :=
  (boolVal_eq (boolVal_gt ht hs) (boolVal_not (boolVal_geq hs ht))).sat.2 not_le.symm

lemma elimLt_sat : Sat I (bop .eq (bop .lt t s) (uop .not (bop .geq t s))) :=
  (boolVal_eq (boolVal_lt ht hs) (boolVal_not (boolVal_geq ht hs))).sat.2 not_le.symm

lemma elimLeq_sat : Sat I (bop .eq (bop .leq t s) (bop .geq s t)) :=
  (boolVal_eq (boolVal_leq ht hs) (boolVal_geq hs ht)).sat.2 Iff.rfl

lemma geqNorm1_sat (hz : ArithVal I T z 0) :
    Sat I (bop .eq (bop .geq t s) (bop .geq (bop .minus t s) z)) :=
  (boolVal_eq (boolVal_geq ht hs) (boolVal_geq (arithVal_minus ht hs) hz)).sat.2 sub_nonneg.symm

lemma eqElim_sat : Sat I (bop .eq (bop .eq t s) (mkAnd [bop .geq t s, bop .leq t s])) := by
  have hand := boolVal_and (boolVal_geq ht hs) (boolVal_and (boolVal_leq ht hs) (boolVal_bool true))
  refine (boolVal_eq (boolVal_arithEq ht hs) hand).sat.2 ?_
  constructor
  · intro h
    exact ⟨h.ge, h.le, rfl⟩
  · intro h
    exact le_antisymm h.2.1 h.1

lemma absEq_sat : Sat I (bop .eq (bop .eq (uop .abs t) (uop .abs s))
      (bop .or (bop .eq t s) (bop .or (bop .eq t (uop .uminus s)) (.bool false)))) := by
  have hor := boolVal_or (boolVal_arithEq ht hs)
    (boolVal_or (boolVal_arithEq ht (arithVal_uminus hs)) (boolVal_bool (I := I) false))
  refine (boolVal_eq (boolVal_arithEq (arithVal_abs ht) (arithVal_abs hs)) hor).sat.2 ?_
  rw [abs_eq_abs]
  simp

lemma arithAbsGt_sat (hz : ArithVal I T z 0) : Sat I (arithAbsGt z t s) := by
  have hs' := arithVal_uminus hs
  have ht' := arithVal_uminus ht
  have hite := boolVal_ite (boolVal_geq ht hz)
    (boolVal_ite (boolVal_geq hs hz) (boolVal_gt ht hs) (boolVal_gt ht hs'))
    (boolVal_ite (boolVal_geq hs hz) (boolVal_gt ht' hs) (boolVal_gt ht' hs'))
  refine (boolVal_eq (boolVal_gt (arithVal_abs ht) (arithVal_abs hs)) hite).sat.2 ?_
  by_cases hx : x ≥ 0
  · by_cases hy : y ≥ 0
    · simp [hx, hy, abs_of_nonneg]
    · simp [hx, hy, abs_of_nonneg, abs_of_neg (not_le.1 hy)]
  by_cases hy : y ≥ 0
  · simp [hx, hy, abs_of_nonneg, abs_of_neg (not_le.1 hx)]
  · simp [hx, hy, abs_of_neg (not_le.1 hx), abs_of_neg (not_le.1 hy)]

lemma minLt1_sat :
    Sat I (bop .eq (bop .leq (.app (bop .ite (bop .lt t s) t) s) t) (.bool true)) := by
  have hmin := arithVal_ite (boolVal_lt ht hs) ht hs
  refine (boolVal_eq (boolVal_leq hmin ht) (boolVal_bool true)).sat.2 (iff_of_true ?_ rfl)
  split
  · exact le_refl x
  · exact not_lt.1 ‹_›

lemma minLt2_sat :
    Sat I (bop .eq (bop .leq (.app (bop .ite (bop .lt t s) t) s) s) (.bool true)) := by
  have hmin := arithVal_ite (boolVal_lt ht hs) ht hs
  refine (boolVal_eq (boolVal_leq hmin hs) (boolVal_bool true)).sat.2 (iff_of_true ?_ rfl)
  split
  · exact le_of_lt ‹_›
  · exact le_refl y

lemma maxGeq1_sat :
    Sat I (bop .eq (bop .geq (.app (bop .ite (bop .geq t s) t) s) t) (.bool true)) := by
  have hmax := arithVal_ite (boolVal_geq ht hs) ht hs
  refine (boolVal_eq (boolVal_geq hmax ht) (boolVal_bool true)).sat.2 (iff_of_true ?_ rfl)
  split
  · exact le_refl x
  · exact le_of_lt (not_le.1 ‹_›)

lemma maxGeq2_sat :
    Sat I (bop .eq (bop .geq (.app (bop .ite (bop .geq t s) t) s) s) (.bool true)) := by
  have hmax := arithVal_ite (boolVal_geq ht hs) ht hs
  refine (boolVal_eq (boolVal_geq hmax hs) (boolVal_bool true)).sat.2 (iff_of_true ?_ rfl)
  split
  · assumption
  · exact le_refl y

end Comparisons

/-! ## Comparisons with an `ite` -/

section Lifting

variable {op : Sym} {f : ℝ → ℝ → Prop}

lemma iteLift_sat {S : Ty} {x y w : ℝ}
    (hrel : ∀ {a b : Term} {x y : ℝ}, ArithVal I S a x → ArithVal I S b y →
      BoolVal I (bop op a b) (f x y)) (hc : BoolVal I c p) (ht : ArithVal I S t x)
    (hs : ArithVal I S s y) (hr : ArithVal I S r w) :
    Sat I (bop .eq (bop op (.app (bop .ite c t) s) r)
      (.app (bop .ite c (bop op t r)) (bop op s r))) := by
  have hlhs := hrel (arithVal_ite hc ht hs) hr
  refine (boolVal_eq hlhs (boolVal_ite hc (hrel ht hr) (hrel hs hr))).sat.2 ?_
  by_cases hp : p
  · simp [hp]
  · simp [hp]

lemma vals_of_rel_ite {R : Ty → Ty} (hs : op.arity = 2) (hty : symTy op = tyArith2 R)
    (h : typeof Γ (bop op (.app (bop .ite c t) s) r) = some T) (I : Interp Γ) :
    ∃ S x y w, BoolVal I c (Sat I c) ∧ ArithVal I S t x ∧ ArithVal I S s y ∧ ArithVal I S r w := by
  obtain ⟨S, hite, hr, hS, -⟩ := typeof_arith2_inv hs hty h
  obtain ⟨hc, ht, hs⟩ := typeof_ite_inv hite
  obtain ⟨x, hx⟩ := arithVal_of_typeof ht hS
  obtain ⟨y, hy⟩ := arithVal_of_typeof hs hS
  obtain ⟨w, hw⟩ := arithVal_of_typeof hr hS
  exact ⟨S, x, y, w, boolVal_of_typeof hc, hx, hy, hw⟩

end Lifting

/-! ## Integers -/

section Integers

variable {m n : Int} (ht : IntVal I t m) (hs : IntVal I s n)
include ht hs

lemma elimIntGt_sat (hone : IntVal I (intPlus s (.num 1)) (n + 1)) :
    Sat I (bop .eq (bop .gt t s) (bop .geq t (intPlus s (.num 1)))) := by
  refine (boolVal_eq (boolVal_intGt ht hs) (boolVal_intGeq ht hone)).sat.2 ?_
  omega

lemma leqNorm_sat (hone : IntVal I (intPlus s (.num 1)) (n + 1)) :
    Sat I (bop .eq (bop .leq t s) (uop .not (bop .geq t (intPlus s (.num 1))))) := by
  refine (boolVal_eq (boolVal_intLeq ht hs) (boolVal_not (boolVal_intGeq ht hone))).sat.2 ?_
  omega

lemma elimIntLt_sat (hone : IntVal I (intPlus t (.num 1)) (m + 1)) :
    Sat I (bop .eq (bop .lt t s) (bop .geq s (intPlus t (.num 1)))) := by
  refine (boolVal_eq (boolVal_intLt ht hs) (boolVal_intGeq hs hone)).sat.2 ?_
  omega

lemma geqTighten_sat (hone : IntVal I (intPlus t (.num 1)) (m + 1)) :
    Sat I (bop .eq (uop .not (bop .geq t s)) (bop .geq s (intPlus t (.num 1)))) := by
  refine (boolVal_eq (boolVal_not (boolVal_intGeq ht hs)) (boolVal_intGeq hs hone)).sat.2 ?_
  omega

end Integers

/-! ## Division of integers -/

lemma value_int2 {o : Sym} {f : Int → Int → Val I.U} {m n : Int} (hs : o.arity = 2)
    (hv : symVal I o = vInt2 f) (ha : IntVal I a m) (hb : IntVal I b n) :
    value I (bop o a b) = some (f m n) := by
  rw [value_bop I hs, show value I a = _ from ha, show value I b = _ from hb, hv]
  rfl

section Division

variable {m n : Int}

lemma intVal_divTotal (ha : IntVal I a m) (hb : IntVal I b n) :
    IntVal I (bop .divTotal a b) (m / n) :=
  value_int2 (o := .divTotal) (f := fun x y => .int (x / y)) rfl rfl ha hb

lemma intVal_uminus (ha : IntVal I a m) : IntVal I (uop .uminus a) (-m) := by
  obtain ⟨k, hk, hval⟩ := (arithVal_uminus ha.arithVal).intVal
  rw [show -m = k by exact_mod_cast hval]
  exact hk

lemma ne_zero_of_isNonzero (hs : IntVal I s n) (h : Sat I (isNonzero s)) : n ≠ 0 := by
  have hzero := boolVal_intEq hs (intVal_num.2 rfl : IntVal I (.num 0) 0)
  have hiff := (boolVal_eq hzero (boolVal_bool false)).sat.1 h
  exact fun hn => absurd (hiff.1 hn) Bool.false_ne_true

lemma intDivTotal_sat (ht : IntVal I t m) (hs : IntVal I s n) (h : Sat I (isNonzero s)) :
    Sat I (bop .eq (bop .div t s) (bop .divTotal t s)) := by
  refine sat_eq.2 ⟨_, ?_, intVal_divTotal ht hs⟩
  have hdiv := value_int2 (o := .div) rfl rfl ht hs
  rw [if_neg (ne_zero_of_isNonzero hs h)] at hdiv
  exact hdiv

lemma intModTotal_sat (ht : IntVal I t m) (hs : IntVal I s n) (h : Sat I (isNonzero s)) :
    Sat I (bop .eq (bop .mod t s) (bop .modTotal t s)) := by
  refine sat_eq.2 ⟨_, ?_, intVal_modTotal ht hs⟩
  have hmod := value_int2 (o := .mod) rfl rfl ht hs
  rw [if_neg (ne_zero_of_isNonzero hs h)] at hmod
  exact hmod

lemma sat_eq_of_intVal (ha : IntVal I a m) (hb : IntVal I b n) (h : m = n) :
    Sat I (bop .eq a b) := (boolVal_intEq ha hb).sat.2 h

lemma intDivTotalNeg_sat (ht : IntVal I t m) (hs : IntVal I s n) :
    Sat I (bop .eq (bop .divTotal t s) (uop .uminus (bop .divTotal t (uop .uminus s)))) := by
  refine sat_eq_of_intVal (intVal_divTotal ht hs)
    (intVal_uminus (intVal_divTotal ht (intVal_uminus hs))) ?_
  rw [Int.ediv_neg, neg_neg]

lemma intModTotalNeg_sat (ht : IntVal I t m) (hs : IntVal I s n) :
    Sat I (bop .eq (bop .modTotal t s) (bop .modTotal t (uop .uminus s))) :=
  sat_eq_of_intVal (intVal_modTotal ht hs) (intVal_modTotal ht (intVal_uminus hs))
    (Int.emod_neg m n).symm

lemma divisibleElim_sat (hs : IntVal I s n) (ht : IntVal I t m) :
    Sat I (bop .eq (bop .divisible s t) (bop .eq (bop .modTotal t s) (.num 0))) := by
  have hdvd : BoolVal I (bop .divisible s t) (n ∣ m) := value_int2 (o := .divisible) rfl rfl hs ht
  have hzero := boolVal_intEq (intVal_modTotal ht hs) (intVal_num.2 rfl : IntVal I (.num 0) 0)
  exact (boolVal_eq hdvd hzero).sat.2 Int.dvd_iff_emod_eq_zero

end Division

/-! ## Sums and products with a remainder among them -/

/-- An operator on the integers whose lists end in the numeral `e`. -/
def intModel (I : Interp Γ) {op : Sym} {f : Int → Int → Int} {g : ℝ → ℝ → ℝ} {e : Int}
    (hs : op.arity = 2) (hsym : symVal I op = vArith2 f g) (hassoc : Std.Associative f)
    (hident : Std.LawfulIdentity f e) (hpar : op.nilIsParameterized = true)
    (hnil : eoNil op .int = some (.num e)) : ListModel I op .int (.num e) where
  M := Int
  op := f
  e := e
  assoc := hassoc
  ident := hident
  emb := Val.int
  inj := fun _ _ h => Val.mk_inj.1 h
  emb_of_type := fun v => ⟨v, rfl⟩
  arity := hs
  symVal_emb := fun _ _ => by rw [hsym]; rfl
  symVal_inv := by
    intro u v r h
    rw [hsym] at h
    rcases vArith2_inv h with ⟨x, y, heq, -⟩ | ⟨x, y, -, hr⟩
    · cases heq
      exact ⟨x, y, rfl, rfl⟩
    · cases congrArg Sigma.fst hr
  value_nil := rfl
  nilFor_eq := fun ha h => nilFor_of_value hpar hnil ha h

def plusModel (I : Interp Γ) : ListModel I .plus .int (.num 0) :=
  intModel I (f := fun x y => x + y) rfl rfl ⟨Int.add_assoc⟩
    { left_id := Int.zero_add, right_id := Int.add_zero } rfl rfl

def timesModel (I : Interp Γ) : ListModel I .times .int (.num 1) :=
  intModel I (f := fun x y => x * y) rfl rfl ⟨Int.mul_assoc⟩
    { left_id := Int.one_mul, right_id := Int.mul_one } rfl rfl

section Lists

variable {op : Sym} {xs : List Term}

lemma typeof_prepend (hs : op.arity = 2) (hty : symTy op = tyArith2 id)
    (h : typeof Γ (prependNAryChildren (.sym op) b xs) = some T) :
    typeof Γ b = some T ∧ ∀ nil, typeof Γ nil = some T →
      typeof Γ (prependNAryChildren (.sym op) nil xs) = some T := by
  induction xs with
  | nil => exact ⟨h, fun _ hnil => hnil⟩
  | cons x xs ih =>
    obtain ⟨S, hx, hrest, hS, rfl⟩ := typeof_arith2_inv hs hty h
    obtain ⟨hb, hall⟩ := ih hrest
    refine ⟨hb, fun nil hnil => ?_⟩
    rw [prependNAryChildren_cons, typeof_bop Γ hs, hx, hall nil hnil, hty]
    rcases hS with rfl | rfl
    · rfl
    · rfl

lemma typeof_listConcat_inv (hs : op.arity = 2) (hty : symTy op = tyArith2 id)
    (h : listConcat Γ op a b = some r) (hr : typeof Γ r = some T) :
    typeof Γ a = some T ∧ typeof Γ b = some T := by
  obtain ⟨nil, _, h⟩ := bind_inv h
  obtain ⟨xs, ys, hxs, hys, rfl⟩ := eoListConcat_spec h
  rw [prependNAryChildren_append] at hr
  obtain ⟨hb, hall⟩ := typeof_prepend hs hty hr
  rw [eq_of_getNAryChildren hxs, eq_of_getNAryChildren hys]
  exact ⟨hall nil (typeof_prepend hs hty hb).1, hb⟩

lemma typeof_modTotal_inv (h : typeof Γ (bop .modTotal a b) = some T) :
    typeof Γ a = some .int ∧ typeof Γ b = some .int ∧ T = .int := by
  obtain ⟨A, B, ha, hb, h⟩ := typeof_bop_inv rfl h
  obtain ⟨_, _, heq, rfl⟩ := tyFn2_inv (show tyFn2 .int .int .int [(a, A), (b, B)] = some T from h)
  cases heq
  exact ⟨ha, hb, rfl⟩

/-- A remainder among the elements of a list can be dropped below the same remainder. -/
lemma arithModOverModList_sat {f : Int → Int → Int} {g : ℝ → ℝ → ℝ} {e : Int}
    (hs : op.arity = 2) (hsym : symVal I op = vArith2 f g) (hassoc : Std.Associative f)
    (hident : Std.LawfulIdentity f e) (hpar : op.nilIsParameterized = true)
    (hnil : eoNil op .int = some (.num e)) (hty : symTy op = tyArith2 id)
    (hmod : ∀ m k l n : Int, f m (f (k % n) l) % n = f m (f k l) % n) {c1 ts r ss : Term}
    (h : arithModOverModList Γ op c1 ts r ss = some c) (hc : typeof Γ c = some T) :
    Sat I c := by
  obtain ⟨lhs, hlhs, h⟩ := bind_inv h
  obtain ⟨rhs, hrhs, rfl⟩ := map_inv h
  obtain ⟨sum, hsum, hrhs⟩ := bind_inv hrhs
  obtain ⟨A, hA, _⟩ := typeof_eq_sides hc
  obtain ⟨hl, hc1, _⟩ := typeof_modTotal_inv hA
  obtain ⟨hts, hrest⟩ := typeof_listConcat_inv hs hty hlhs hl
  obtain ⟨S, hrem, hss, _, _⟩ := typeof_arith2_inv hs hty hrest
  obtain ⟨hr, -, rfl⟩ := typeof_modTotal_inv hrem
  let L := intModel I hs hsym hassoc hident hpar hnil
  obtain ⟨m, hm⟩ := L.exists_read hts
  obtain ⟨l, hl⟩ := L.exists_read hss
  obtain ⟨k, hk⟩ := intVal_of_typeof hr (I := I)
  obtain ⟨n, hn⟩ := intVal_of_typeof hc1 (I := I)
  have hkn : L.read (bop .modTotal r c1) = some (k % n) :=
    ListModel.read_eq_some.2 (intVal_modTotal hk hn)
  have hleft := ListModel.read_listConcat hm (ListModel.read_bop.2 ⟨_, _, hkn, hl, rfl⟩) hlhs
  have hk' : L.read r = some k := ListModel.read_eq_some.2 hk
  have hright := ListModel.read_listSingletonElim
    (ListModel.read_listConcat hm (ListModel.read_bop.2 ⟨_, _, hk', hl, rfl⟩) hsum) hrhs
  exact sat_eq_of_intVal (intVal_modTotal (ListModel.read_eq_some.1 hleft) hn)
    (intVal_modTotal (ListModel.read_eq_some.1 hright) hn) (hmod m k l n)

lemma arithModOverMod_sat {c1 ts r ss : Term} (h : arithModOverModList Γ .plus c1 ts r ss = some c)
    (hc : typeof Γ c = some T) : Sat I c := by
  refine arithModOverModList_sat (f := fun x y => x + y) rfl rfl ⟨Int.add_assoc⟩
    { left_id := Int.zero_add, right_id := Int.add_zero } rfl rfl rfl ?_ h hc
  intro m k l n
  exact ((Int.mod_modEq k n).add_right l).add_left m

lemma arithModOverModMult_sat {c1 ts r ss : Term}
    (h : arithModOverModList Γ .times c1 ts r ss = some c) (hc : typeof Γ c = some T) :
    Sat I c := by
  refine arithModOverModList_sat (f := fun x y => x * y) rfl rfl ⟨Int.mul_assoc⟩
    { left_id := Int.one_mul, right_id := Int.mul_one } rfl rfl rfl ?_ h hc
  intro m k l n
  exact ((Int.mod_modEq k n).mul_right l).mul_left m

end Lists

/-! ## Conversions -/

section Conversions

variable {x : ℝ} {m n : Int}

lemma intVal_toInt (ha : ArithVal I .real a x) : IntVal I (uop .toInt a) ⌊x⌋ := by
  rcases ha with ⟨h, -⟩ | ⟨-, ha⟩
  · contradiction
  unfold IntVal
  rw [value_uop I rfl, ha]
  rfl

lemma typeof_toInt_inv (h : typeof Γ (uop .toInt a) = some T) :
    typeof Γ a = some .real ∧ T = .int := by
  rw [typeof_uop Γ rfl] at h
  obtain ⟨A, hA, h⟩ := bind_inv h
  obtain ⟨_, heq, rfl⟩ := tyFn1_inv (show tyFn1 .real .int [(a, A)] = some T from h)
  cases heq
  exact ⟨hA, rfl⟩

lemma typeof_toReal_inv (h : typeof Γ (uop .toReal a) = some T) :
    (typeof Γ a = some .int ∨ typeof Γ a = some .real) ∧ T = .real := by
  rw [typeof_uop Γ rfl] at h
  obtain ⟨A, hA, h⟩ := bind_inv h
  obtain ⟨_, S, heq, hS, rfl⟩ :=
    tyArith1_inv (show tyArith1 (fun _ => .real) [(a, A)] = some T from h)
  cases heq
  rcases hS with rfl | rfl
  · exact ⟨.inl hA, rfl⟩
  · exact ⟨.inr hA, rfl⟩

lemma floor_ne_of_isNoInt (hc : ArithVal I .real c x) (h : Sat I (isNoInt c)) : (⌊x⌋ : ℝ) ≠ x := by
  have hreal := arithVal_toReal (intVal_toInt hc).arithVal
  have hiff := (boolVal_eq (boolVal_arithEq hreal hc) (boolVal_bool false)).sat.1 h
  exact fun hx => absurd (hiff.1 hx) Bool.false_ne_true

lemma vReal1_inv {U : Nat → Type} {f : ℝ → Val U} {vs : List (Val U)} {v : Val U}
    (h : vReal1 f vs = some v) : ∃ x : ℝ, vs = [Val.real x] ∧ v = f x := by
  unfold vReal1 at h
  split at h
  · exact ⟨_, rfl, (Option.some.inj h).symm⟩
  · cases h

lemma exists_of_isNoInt (h : Sat I (isNoInt c)) : ∃ x, ArithVal I .real c x := by
  obtain ⟨v, hv, _⟩ := sat_eq.1 h
  obtain ⟨u, _, hu, _, _⟩ := value_bop_inv I rfl hv
  obtain ⟨w, hw, _⟩ := value_uop_inv I rfl hu
  obtain ⟨y, hy, hfloor⟩ := value_uop_inv I rfl hw
  obtain ⟨x, heq, _⟩ := vReal1_inv (show vReal1 (fun x => .int ⌊x⌋) [y] = some w from hfloor)
  cases heq
  exact ⟨x, arithVal_real hy⟩

lemma intEqConflict_sat (ht : IntVal I t m) (hc : ArithVal I .real c x) (h : Sat I (isNoInt c)) :
    Sat I (bop .eq (bop .eq (uop .toReal t) c) (.bool false)) := by
  have hne := floor_ne_of_isNoInt hc h
  refine (boolVal_eq (boolVal_arithEq (arithVal_toReal ht.arithVal) hc) (boolVal_bool false)).sat.2
    (iff_of_false ?_ Bool.false_ne_true)
  rintro rfl
  exact hne (by rw [Int.floor_intCast])

lemma intGeqTighten_sat {d : Term} (ht : IntVal I t m) (hc : ArithVal I .real c x)
    (hd : IntVal I d (⌊x⌋ + 1)) (h : Sat I (isNoInt c)) :
    Sat I (bop .eq (bop .geq (uop .toReal t) c) (bop .geq t d)) := by
  have hne := floor_ne_of_isNoInt hc h
  refine (boolVal_eq (boolVal_geq (arithVal_toReal ht.arithVal) hc) (boolVal_intGeq ht hd)).sat.2 ?_
  have hlt : (⌊x⌋ : ℝ) < x := lt_of_le_of_ne (Int.floor_le x) hne
  constructor
  · intro hx
    have hm : (⌊x⌋ : ℝ) < m := lt_of_lt_of_le hlt hx
    exact Int.add_one_le_iff.2 (by exact_mod_cast hm)
  intro hm
  have hx : x < m := Int.floor_lt.1 (Int.add_one_le_iff.1 hm)
  exact le_of_lt hx

end Conversions

/-! ## The rules -/

/-- The failing typing: an equation between a real below `to_real` and a real. -/
def ComparesReals (r : ArithRewrite) (Ts : List (Option Ty)) : Prop :=
  r = .intEqConflict ∧ Ts = [some .real, some .real]

lemma divTotalZero_sat {x : ℝ} (ht : ArithVal I T t x) (hz : ArithVal I T z 0) :
    Sat I (bop .eq (bop .qdivTotal t z) (.rat 0)) := by
  have hdiv := arithVal_qdiv (s := .qdivTotal) (f := fun x y => x / y) rfl rfl ht hz
  exact (boolVal_arithEq hdiv arithVal_ratZero).sat.2 (div_zero x)

lemma arithAbsGt_rule (hz : ArithVal I S z 0)
    (h : typeof Γ (arithAbsGt z a b) = some T) : Sat I (arithAbsGt z a b) := by
  obtain ⟨A, hgt, hite⟩ := typeof_eq_sides h
  obtain ⟨B, u, v, hu, hv⟩ := arithVals_of_rel (R := fun _ => .bool) rfl rfl hgt I
  obtain ⟨x, hx, _⟩ := arithVal_abs_inv hu
  obtain ⟨y, hy, _⟩ := arithVal_abs_inv hv
  obtain ⟨hgeq, _, _⟩ := typeof_ite_inv hite
  obtain ⟨C, w, w', hw, hw'⟩ := arithVals_of_rel (R := fun _ => .bool) rfl rfl hgeq I
  obtain ⟨rfl, -⟩ := hz.unique hw'
  obtain ⟨rfl, -⟩ := hw.unique hx
  exact arithAbsGt_sat hx hy hz

lemma absEq_rule (h : typeof Γ (bop .eq (bop .eq (uop .abs t) (uop .abs s))
      (bop .or (bop .eq t s) (bop .or (bop .eq t (uop .uminus s)) (.bool false)))) = some T) :
    Sat I (bop .eq (bop .eq (uop .abs t) (uop .abs s))
      (bop .or (bop .eq t s) (bop .or (bop .eq t (uop .uminus s)) (.bool false)))) := by
  obtain ⟨A, hA, -⟩ := typeof_eq_sides h
  obtain ⟨B, hB, hB'⟩ := typeof_eq_sides hA
  obtain ⟨ht, hT⟩ := typeof_abs_inv hB
  obtain ⟨hs, -⟩ := typeof_abs_inv hB'
  obtain ⟨x, hx⟩ := arithVal_of_typeof ht hT
  obtain ⟨y, hy⟩ := arithVal_of_typeof hs hT
  exact absEq_sat hx hy

lemma intEqConflict_rule (h : typeof Γ (bop .eq (bop .eq (uop .toReal t) c) (.bool false)) = some T)
    (hargs : ¬ (typeof Γ t = some .real ∧ typeof Γ c = some .real)) (hc : Sat I (isNoInt c)) :
    Sat I (bop .eq (bop .eq (uop .toReal t) c) (.bool false)) := by
  obtain ⟨A, hA, _⟩ := typeof_eq_sides h
  obtain ⟨B, hB, hcB⟩ := typeof_eq_sides hA
  obtain ⟨ht, rfl⟩ := typeof_toReal_inv hB
  obtain ⟨x, hx⟩ := exists_of_isNoInt hc
  rcases ht with ht | ht
  · obtain ⟨m, hm⟩ := intVal_of_typeof ht (I := I)
    exact intEqConflict_sat hm hx hc
  · exact absurd ⟨ht, hcB⟩ hargs

lemma intGeqTighten_rule {d : Term}
    (h : typeof Γ (bop .eq (bop .geq (uop .toReal t) c) (bop .geq t d)) = some T)
    (hc : Sat I (isNoInt c)) (hd : Sat I (bop .eq d (intPlus (uop .toInt c) (.num 1)))) :
    Sat I (bop .eq (bop .geq (uop .toReal t) c) (bop .geq t d)) := by
  obtain ⟨A, _, hB⟩ := typeof_eq_sides h
  obtain ⟨x, hx⟩ := exists_of_isNoInt hc
  have hsum : IntVal I (intPlus (uop .toInt c) (.num 1)) (⌊x⌋ + 1) :=
    intVal_intPlus_iff.2 ⟨_, 1, intVal_toInt hx, intVal_num.2 rfl, rfl⟩
  obtain ⟨v, hdv, hv⟩ := sat_eq.1 hd
  have hd' : IntVal I d (⌊x⌋ + 1) := hdv.trans (hv.symm.trans hsum)
  obtain ⟨S, u, w, ht, hw⟩ := arithVals_of_rel (R := fun _ => .bool) rfl rfl hB I
  obtain ⟨rfl, -⟩ := hw.type_eq hd'
  obtain ⟨m, hm, _⟩ := ht.intVal
  exact intGeqTighten_sat hm hx hd' hc

lemma typeof_not_inv (h : typeof Γ (uop .not a) = some T) : typeof Γ a = some .bool := by
  rw [typeof_uop Γ rfl] at h
  obtain ⟨A, hA, h⟩ := bind_inv h
  obtain ⟨_, heq, _⟩ := tyFn1_inv (show tyFn1 .bool .bool [(a, A)] = some T from h)
  cases heq
  exact hA

lemma geqNorm1_rule (hz : ArithVal I S z 0)
    (h : typeof Γ (bop .eq (bop .geq t s) (bop .geq (bop .minus t s) z)) = some T) :
    Sat I (bop .eq (bop .geq t s) (bop .geq (bop .minus t s) z)) := by
  obtain ⟨A, hA, hB⟩ := typeof_eq_sides h
  obtain ⟨B, x, y, ht, hs⟩ := arithVals_of_rel (R := fun _ => .bool) rfl rfl hA I
  obtain ⟨C, d, w, hd, hw⟩ := arithVals_of_rel (R := fun _ => .bool) rfl rfl hB I
  obtain ⟨rfl, -⟩ := hz.unique hw
  obtain ⟨rfl, -⟩ := hd.unique (arithVal_minus ht hs)
  exact geqNorm1_sat ht hs hz

lemma eqElim_rule
    (h : typeof Γ (bop .eq (bop .eq t s) (mkAnd [bop .geq t s, bop .leq t s])) = some T) :
    Sat I (bop .eq (bop .eq t s) (mkAnd [bop .geq t s, bop .leq t s])) := by
  obtain ⟨A, _, hB⟩ := typeof_eq_sides h
  obtain ⟨hgeq, _⟩ := typeof_connective_inv (s := .and) rfl rfl hB
  obtain ⟨B, x, y, ht, hs⟩ := arithVals_of_rel (R := fun _ => .bool) rfl rfl hgeq I
  exact eqElim_sat ht hs

/-- A rule concludes only true formulas from true premises, except at the failing typing. -/
lemma ArithRewrite.apply_sat {o : ArithRewrite} {args Fs : List Term}
    (h : o.apply Γ args = some (Fs, c)) (hc : typeof Γ c = some .bool)
    (hargs : ¬ ComparesReals o (args.map (typeof Γ))) (hFs : ∀ F ∈ Fs, Sat I F) : Sat I c := by
  have hone : IntVal I (.num 1) 1 := intVal_num.2 rfl
  have hzero : IntVal I (.num 0) 0 := intVal_num.2 rfl
  cases o <;> rcases args with _ | ⟨t1, _ | ⟨t2, _ | ⟨t3, _ | ⟨t4, _ | _⟩⟩⟩⟩ <;> try contradiction
  · -- arith-div-total-zero-real
    cases h
    obtain ⟨A, hA, _⟩ := typeof_eq_sides hc
    obtain ⟨S, x, y, ht, hz⟩ := arithVals_of_rel (R := fun _ => .real) rfl rfl hA I
    obtain ⟨rfl, -⟩ := arithVal_ratZero.unique hz
    exact divTotalZero_sat ht arithVal_ratZero
  · -- arith-div-total-zero-int
    cases h
    obtain ⟨A, hA, _⟩ := typeof_eq_sides hc
    obtain ⟨S, x, y, ht, hz⟩ := arithVals_of_rel (R := fun _ => .real) rfl rfl hA I
    obtain ⟨rfl, -⟩ := arithVal_numZero.unique hz
    exact divTotalZero_sat ht arithVal_numZero
  · -- arith-int-div-total
    cases h
    obtain ⟨A, hA, _⟩ := typeof_eq_sides hc
    obtain ⟨m, n, ht, hs⟩ := intVals_of_fn rfl rfl hA I
    exact intDivTotal_sat ht hs (hFs _ (.head _))
  · -- arith-int-div-total-one
    cases h
    obtain ⟨A, hA, _⟩ := typeof_eq_sides hc
    obtain ⟨m, n, ht, _⟩ := intVals_of_fn rfl rfl hA I
    exact sat_eq_of_intVal (intVal_divTotal ht hone) ht (Int.ediv_one m)
  · -- arith-int-div-total-zero
    cases h
    obtain ⟨A, hA, _⟩ := typeof_eq_sides hc
    obtain ⟨m, n, ht, _⟩ := intVals_of_fn rfl rfl hA I
    exact sat_eq_of_intVal (intVal_divTotal ht hzero) hzero (Int.ediv_zero m)
  · -- arith-int-div-total-neg
    cases h
    obtain ⟨A, hA, _⟩ := typeof_eq_sides hc
    obtain ⟨m, n, ht, hs⟩ := intVals_of_fn rfl rfl hA I
    exact intDivTotalNeg_sat ht hs
  · -- arith-int-mod-total
    cases h
    obtain ⟨A, hA, _⟩ := typeof_eq_sides hc
    obtain ⟨m, n, ht, hs⟩ := intVals_of_fn rfl rfl hA I
    exact intModTotal_sat ht hs (hFs _ (.head _))
  · -- arith-int-mod-total-one
    cases h
    obtain ⟨A, hA, _⟩ := typeof_eq_sides hc
    obtain ⟨m, n, ht, _⟩ := intVals_of_fn rfl rfl hA I
    exact sat_eq_of_intVal (intVal_modTotal ht hone) hzero (Int.emod_one m)
  · -- arith-int-mod-total-zero
    cases h
    obtain ⟨A, hA, _⟩ := typeof_eq_sides hc
    obtain ⟨m, n, ht, _⟩ := intVals_of_fn rfl rfl hA I
    exact sat_eq_of_intVal (intVal_modTotal ht hzero) ht (Int.emod_zero m)
  · -- arith-int-mod-total-neg
    cases h
    obtain ⟨A, hA, _⟩ := typeof_eq_sides hc
    obtain ⟨m, n, ht, hs⟩ := intVals_of_fn rfl rfl hA I
    exact intModTotalNeg_sat ht hs
  · -- arith-elim-gt
    cases h
    obtain ⟨A, hA, _⟩ := typeof_eq_sides hc
    obtain ⟨S, x, y, ht, hs⟩ := arithVals_of_rel (R := fun _ => .bool) rfl rfl hA I
    exact elimGt_sat ht hs
  · -- arith-elim-lt
    cases h
    obtain ⟨A, hA, _⟩ := typeof_eq_sides hc
    obtain ⟨S, x, y, ht, hs⟩ := arithVals_of_rel (R := fun _ => .bool) rfl rfl hA I
    exact elimLt_sat ht hs
  · -- arith-elim-int-gt
    cases h
    obtain ⟨A, _, hB⟩ := typeof_eq_sides hc
    obtain ⟨m, n, ht, hs, hsum⟩ := intVals_of_intPlus (R := fun _ => .bool) rfl rfl hB I
    exact elimIntGt_sat ht hs hsum
  · -- arith-elim-int-lt
    cases h
    obtain ⟨A, _, hB⟩ := typeof_eq_sides hc
    obtain ⟨n, m, hs, ht, hsum⟩ := intVals_of_intPlus (R := fun _ => .bool) rfl rfl hB I
    exact elimIntLt_sat ht hs hsum
  · -- arith-elim-leq
    cases h
    obtain ⟨A, hA, _⟩ := typeof_eq_sides hc
    obtain ⟨S, x, y, ht, hs⟩ := arithVals_of_rel (R := fun _ => .bool) rfl rfl hA I
    exact elimLeq_sat ht hs
  · -- arith-leq-norm
    cases h
    obtain ⟨A, _, hB⟩ := typeof_eq_sides hc
    obtain ⟨m, n, ht, hs, hsum⟩ := intVals_of_intPlus (R := fun _ => .bool) rfl rfl (typeof_not_inv hB) I
    exact leqNorm_sat ht hs hsum
  · -- arith-geq-tighten
    cases h
    obtain ⟨A, _, hB⟩ := typeof_eq_sides hc
    obtain ⟨n, m, hs, ht, hsum⟩ := intVals_of_intPlus (R := fun _ => .bool) rfl rfl hB I
    exact geqTighten_sat ht hs hsum
  · -- arith-geq-norm1-int
    cases h
    exact geqNorm1_rule arithVal_numZero hc
  · -- arith-geq-norm1-real
    cases h
    exact geqNorm1_rule arithVal_ratZero hc
  · -- arith-eq-elim-real
    cases h
    exact eqElim_rule hc
  · -- arith-eq-elim-int
    cases h
    exact eqElim_rule hc
  · -- arith-to-int-elim-to-real
    cases h
    obtain ⟨A, hA, hx⟩ := typeof_eq_sides hc
    obtain ⟨-, rfl⟩ := typeof_toInt_inv hA
    obtain ⟨m, hm⟩ := intVal_of_typeof hx (I := I)
    exact sat_eq_of_intVal (intVal_toInt (arithVal_toReal (arithVal_int hm))) hm
      (Int.floor_intCast m)
  · -- arith-mod-over-mod-1
    cases h
    obtain ⟨A, _, hB⟩ := typeof_eq_sides hc
    obtain ⟨m, n, hr, hn⟩ := intVals_of_fn rfl rfl hB I
    exact sat_eq_of_intVal (intVal_modTotal (intVal_modTotal hr hn) hn) (intVal_modTotal hr hn)
      (Int.emod_emod m n)
  · -- arith-mod-over-mod
    obtain ⟨c', hc', heq⟩ := map_inv h
    cases heq
    exact arithModOverMod_sat hc' hc
  · -- arith-mod-over-mod-mult
    obtain ⟨c', hc', heq⟩ := map_inv h
    cases heq
    exact arithModOverModMult_sat hc' hc
  · -- arith-int-eq-conflict
    cases h
    refine intEqConflict_rule hc ?_ (hFs _ (.head _))
    intro hreal
    exact hargs ⟨rfl, by rw [List.map_cons, List.map_singleton, hreal.1, hreal.2]⟩
  · -- arith-int-geq-tighten
    cases h
    exact intGeqTighten_rule hc (hFs _ (.head _)) (hFs _ (.tail _ (.head _)))
  · -- arith-divisible-elim
    cases h
    obtain ⟨A, hA, _⟩ := typeof_eq_sides hc
    obtain ⟨n, m, hs, ht⟩ := intVals_of_fn rfl rfl hA I
    exact divisibleElim_sat hs ht
  · -- arith-abs-eq
    cases h
    exact absEq_rule hc
  · -- arith-abs-int-gt
    cases h
    exact arithAbsGt_rule arithVal_numZero hc
  · -- arith-abs-real-gt
    cases h
    exact arithAbsGt_rule arithVal_ratZero hc
  · -- arith-geq-ite-lift
    cases h
    obtain ⟨A, hA, _⟩ := typeof_eq_sides hc
    obtain ⟨S, x, y, w, hp, ht, hs, hr⟩ := vals_of_rel_ite (R := fun _ => .bool) rfl rfl hA I
    exact iteLift_sat (fun ha hb => boolVal_geq ha hb) hp ht hs hr
  · -- arith-leq-ite-lift
    cases h
    obtain ⟨A, hA, _⟩ := typeof_eq_sides hc
    obtain ⟨S, x, y, w, hp, ht, hs, hr⟩ := vals_of_rel_ite (R := fun _ => .bool) rfl rfl hA I
    exact iteLift_sat (fun ha hb => boolVal_leq ha hb) hp ht hs hr
  · -- arith-min-lt1
    cases h
    obtain ⟨A, hA, _⟩ := typeof_eq_sides hc
    obtain ⟨S, x, y, w, _, ht, hs, _⟩ := vals_of_rel_ite (R := fun _ => .bool) rfl rfl hA I
    exact minLt1_sat ht hs
  · -- arith-min-lt2
    cases h
    obtain ⟨A, hA, _⟩ := typeof_eq_sides hc
    obtain ⟨S, x, y, w, _, ht, hs, _⟩ := vals_of_rel_ite (R := fun _ => .bool) rfl rfl hA I
    exact minLt2_sat ht hs
  · -- arith-max-geq1
    cases h
    obtain ⟨A, hA, _⟩ := typeof_eq_sides hc
    obtain ⟨S, x, y, w, _, ht, hs, _⟩ := vals_of_rel_ite (R := fun _ => .bool) rfl rfl hA I
    exact maxGeq1_sat ht hs
  · -- arith-max-geq2
    cases h
    obtain ⟨A, hA, _⟩ := typeof_eq_sides hc
    obtain ⟨S, x, y, w, _, ht, hs, _⟩ := vals_of_rel_ite (R := fun _ => .bool) rfl rfl hA I
    exact maxGeq2_sat ht hs

lemma intEqConflict_half (Γ : Nat → Ty) (I : Interp Γ) : Sat I (isNoInt (.rat (1 / 2))) ∧
    ¬ Sat I (bop .eq (bop .eq (uop .toReal (.rat (1 / 2))) (.rat (1 / 2))) (.bool false)) := by
  have hhalf : ArithVal I .real (.rat (1 / 2)) ((1 / 2 : ℚ) : ℝ) :=
    arithVal_real (value_rat I (1 / 2))
  constructor
  · have hreal := arithVal_toReal (intVal_toInt hhalf).arithVal
    refine (boolVal_eq (boolVal_arithEq hreal hhalf) (boolVal_bool false)).sat.2
      (iff_of_false ?_ Bool.false_ne_true)
    norm_num
  intro h
  have hiff := (boolVal_eq (boolVal_arithEq (arithVal_toReal hhalf) hhalf)
    (boolVal_bool false)).sat.1 h
  exact absurd (hiff.1 rfl) Bool.false_ne_true

/-- For every rule and every typing of its arguments: the conclusion follows
from the premises at all bindings of this typing, unless the rule is
`arith-int-eq-conflict` and compares two reals. -/
theorem arith_rewrites_valid_iff (Γ : Nat → Ty) (o : ArithRewrite) (Ts : List (Option Ty)) :
    (∀ args Fs c, args.map (typeof Γ) = Ts → o.apply Γ args = some (Fs, c) →
      typeof Γ c = some .bool → ∀ I : Interp Γ, (∀ F ∈ Fs, Sat I F) → Sat I c) ↔
    ¬ ComparesReals o Ts := by
  constructor
  · intro h hbad
    obtain ⟨rfl, rfl⟩ := hbad
    obtain ⟨hprem, hconc⟩ := intEqConflict_half Γ (badInterp Γ)
    refine hconc (h [.rat (1 / 2), .rat (1 / 2)] _ _ rfl rfl rfl (badInterp Γ) ?_)
    intro F hF
    obtain rfl := List.mem_singleton.1 hF
    exact hprem
  · intro hargs args Fs c hTs h hc I hFs
    exact o.apply_sat h hc (hTs ▸ hargs) hFs

/-- A real between two integers is said to differ from every real, itself included. -/
theorem arithIntEqConflict_unsound :
    ∃ Fs c, ArithRewrite.intEqConflict.apply (fun _ => .int) [.rat (1 / 2), .rat (1 / 2)] =
        some (Fs, c) ∧
      typeof (fun _ => .int) c = some .bool ∧
      ∃ I : Interp fun _ => .int, (∀ F ∈ Fs, Sat I F) ∧ ¬ Sat I c := by
  obtain ⟨hprem, hconc⟩ := intEqConflict_half (fun _ => .int) (badInterp fun _ => .int)
  refine ⟨_, _, rfl, rfl, badInterp fun _ => .int, ?_, hconc⟩
  intro F hF
  obtain rfl := List.mem_singleton.1 hF
  exact hprem

end EthosCpc
