import EthosCpc.Semantics.Value
import EthosCpc.Eunoia.Builtins

/-!
# Truth of formulas and arithmetic values

Proofs about the arithmetic rules want to compute with real numbers,
whether the terms are of type `Int` or `Real`.  `ArithVal I T a r` says
that the term `a` has type `T`, one of the two, and that its value, read
as a real number, is `r`.  The lemmas here move it through the arithmetic
operators and turn comparisons into comparisons of reals.
-/

namespace EthosCpc

open Term (bop uop)
open Option (bind_some some.inj)

variable {Γ : Nat → Ty} (I : Interp Γ)

/-! ## Formulas -/

def BoolVal (F : Term) (p : Prop) : Prop := value I F = some (Val.bool (truth p))

variable {I}

variable {F : Term}

lemma sat_iff_boolVal : Sat I F ↔ BoolVal I F True := by
  simp [Sat, BoolVal, truth_of]

lemma BoolVal.sat {p : Prop} (h : BoolVal I F p) : Sat I F ↔ p := by
  unfold Sat BoolVal at *
  rw [h]
  simp

variable {p q : Prop}

lemma BoolVal.congr (h : BoolVal I F p) (hpq : p ↔ q) : BoolVal I F q := by
  rwa [← propext hpq]

lemma boolVal_of_value {b : Bool} (h : value I F = some (Val.bool b)) : BoolVal I F (b = true) := by
  unfold BoolVal
  rw [h, Option.some.injEq, Val.bool_inj, eq_truth]

lemma boolVal_of_typeof (h : typeof Γ F = some .bool) : BoolVal I F (Sat I F) := by
  obtain ⟨b, hb⟩ := value_of_typeof I h
  have hF : BoolVal I F (b = true) := boolVal_of_value hb
  exact hF.congr hF.sat.symm

lemma boolVal_not {p : Prop} (h : BoolVal I F p) : BoolVal I (uop .not F) (¬ p) := by
  unfold BoolVal at *
  rw [value_uop I rfl, h]
  simp [symVal.eq_def, vBool1, truth]

lemma boolVal_and {F G : Term} (hF : BoolVal I F p) (hG : BoolVal I G q) :
    BoolVal I (bop .and F G) (p ∧ q) := by
  unfold BoolVal at *
  rw [value_bop I rfl, hF, hG]
  simp [symVal.eq_def, vBool2, eq_truth]

lemma boolVal_or {F G : Term} (hF : BoolVal I F p) (hG : BoolVal I G q) :
    BoolVal I (bop .or F G) (p ∨ q) := by
  unfold BoolVal at *
  rw [value_bop I rfl, hF, hG]
  simp [symVal.eq_def, vBool2, eq_truth]

lemma boolVal_imp {F G : Term} (hF : BoolVal I F p) (hG : BoolVal I G q) :
    BoolVal I (bop .imp F G) (p → q) := by
  unfold BoolVal at *
  rw [value_bop I rfl, hF, hG]
  simp [symVal.eq_def, vBool2, eq_truth, imp_iff_not_or]

lemma boolVal_eq {F G : Term} (hF : BoolVal I F p) (hG : BoolVal I G q) :
    BoolVal I (bop .eq F G) (p ↔ q) := by
  unfold BoolVal at *
  rw [value_bop I rfl, hF, hG]
  simp only [bind_some, symVal.eq_def, vEq, dif_pos, Option.some.injEq, Val.bool_inj]
  exact truth_inj.2 truth_inj

lemma boolVal_bool (b : Bool) : BoolVal I (.bool b) (b = true) := by
  simp [BoolVal, eq_truth]

lemma value_ite {c a b : Term} {p : Prop} [Decidable p] {T : Ty} {v v' : Dom I.U T}
    (hc : BoolVal I c p) (ha : value I a = some ⟨T, v⟩) (hb : value I b = some ⟨T, v'⟩) :
    value I (.app (bop .ite c a) b) = some ⟨T, if p then v else v'⟩ := by
  rw [value_top I rfl, show value I c = _ from hc, ha, hb]
  by_cases hp : p
  · rw [if_pos hp, truth_of hp]
    exact if_pos rfl
  · rw [if_neg hp, truth_of_not hp]
    exact if_pos rfl

lemma boolVal_ite {c a b : Term} {r p q : Prop} (hc : BoolVal I c r) (ha : BoolVal I a p)
    (hb : BoolVal I b q) : BoolVal I (.app (bop .ite c a) b) (r ∧ p ∨ ¬ r ∧ q) := by
  unfold BoolVal
  rw [value_top I rfl, show value I c = _ from hc, show value I a = _ from ha,
    show value I b = _ from hb]
  by_cases hr : r
  · rw [show (r ∧ p ∨ ¬ r ∧ q) = p by simp [hr], truth_of hr]
    rfl
  · rw [show (r ∧ p ∨ ¬ r ∧ q) = q by simp [hr], truth_of_not hr]
    rfl

/-- A conjunction is true when both conjuncts are. -/
lemma sat_and {F G : Term} : Sat I (bop .and F G) ↔ Sat I F ∧ Sat I G := by
  constructor
  · intro h
    obtain ⟨v, v', hv, hv', h⟩ := value_bop_inv I rfl h
    obtain ⟨x, y, hxy, hr⟩ := vBool2_inv h
    cases hxy
    rw [Val.bool_inj] at hr
    have hand := (Bool.and_eq_true x y).mp hr.symm
    unfold Sat
    rw [hv, hv', hand.1, hand.2]
    exact ⟨rfl, rfl⟩
  · rintro ⟨hF, hG⟩
    exact (boolVal_and (sat_iff_boolVal.1 hF) (sat_iff_boolVal.1 hG)).sat.2 ⟨trivial, trivial⟩

lemma sat_mkAnd {Fs : List Term} : Sat I (mkAnd Fs) ↔ ∀ F ∈ Fs, Sat I F := by
  induction Fs with
  | nil => simp [Sat]
  | cons F Fs ih =>
    rw [mkAnd_cons, sat_and, ih]
    simp

/-- A well-typed implication is true when truth of its left-hand side gives
truth of its right-hand side. -/
lemma sat_imp {F G : Term} (hty : typeof Γ (bop .imp F G) = some .bool)
    (h : Sat I F → Sat I G) : Sat I (bop .imp F G) := by
  obtain ⟨hF, hG⟩ := typeof_connective_inv rfl rfl hty
  exact (boolVal_imp (boolVal_of_typeof hF) (boolVal_of_typeof hG)).sat.2 h

/-- Equality is true when both sides have the same value. -/
lemma sat_eq {a b : Term} : Sat I (bop .eq a b) ↔ ∃ v, value I a = some v ∧ value I b = some v := by
  constructor
  · intro h
    obtain ⟨v, v', hv, hv', h⟩ := value_bop_inv I rfl h
    obtain ⟨T, x, y, hxy, hr⟩ := vEq_inv (show vEq [v, v'] = some _ from h)
    cases hxy
    rw [Val.bool_inj] at hr
    have hxy : x = y := truth_eq_true.1 hr.symm
    exact ⟨_, hv, hxy ▸ hv'⟩
  · rintro ⟨⟨T, x⟩, ha, hb⟩
    unfold Sat
    rw [value_bop I rfl, ha, hb]
    simp [symVal.eq_def, vEq]

lemma sat_not : Sat I (uop .not F) ↔ BoolVal I F False := by
  constructor
  · intro h
    obtain ⟨v, hv, h⟩ := value_uop_inv I rfl h
    obtain ⟨x, hx, hr⟩ := vBool1_inv h
    cases hx
    rw [Val.bool_inj] at hr
    exact (boolVal_of_value hv).congr (by simpa using hr)
  · intro h
    exact (boolVal_not h).sat.2 not_false

lemma BoolVal.unique (h : BoolVal I F p) (h' : BoolVal I F q) : p ↔ q := by
  rw [← h.sat, h'.sat]

/-! ## Arithmetic values -/

variable (I)

/-- The term `a` has the arithmetic type `T` and the value `r`. -/
def ArithVal (T : Ty) (a : Term) (r : ℝ) : Prop :=
  (T = .int ∧ ∃ z : Int, value I a = some (Val.int z) ∧ r = z) ∨
  (T = .real ∧ value I a = some (Val.real r))

variable {I}

lemma arithVal_int {a : Term} {z : Int} (h : value I a = some (Val.int z)) :
    ArithVal I .int a z := .inl ⟨rfl, z, h, rfl⟩

lemma arithVal_real {a : Term} {r : ℝ} (h : value I a = some (Val.real r)) :
    ArithVal I .real a r := .inr ⟨rfl, h⟩

lemma intVal_of_typeof {a : Term} (h : typeof Γ a = some .int) :
    ∃ z : Int, value I a = some (Val.int z) := value_of_typeof I h

lemma ArithVal.toInt {a : Term} {z : Int} (h : ArithVal I .int a z) :
    value I a = some (Val.int z) := by
  rcases h with ⟨-, z', h, hz⟩ | ⟨h, -⟩
  · rw [h, Int.cast_inj.1 hz]
  · contradiction

lemma arithVal_of_typeof {a : Term} {T : Ty} (h : typeof Γ a = some T)
    (hT : T = .int ∨ T = .real) : ∃ r, ArithVal I T a r := by
  obtain ⟨x, hx⟩ := value_of_typeof I h
  rcases hT with rfl | rfl
  · exact ⟨_, arithVal_int hx⟩
  · exact ⟨_, arithVal_real hx⟩

lemma not_arithVal {a : Term} {v : Val I.U} {T : Ty} {r : ℝ} (ha : value I a = some v)
    (hi : v.1 ≠ .int) (hr : v.1 ≠ .real) : ¬ ArithVal I T a r := by
  rintro (⟨-, z, h, -⟩ | ⟨-, h⟩)
  · exact hi (by rw [some.inj (ha.symm.trans h)])
  · exact hr (by rw [some.inj (ha.symm.trans h)])

lemma ArithVal.unique {a : Term} {T T' : Ty} {r r' : ℝ} (h : ArithVal I T a r)
    (h' : ArithVal I T' a r') : T' = T ∧ r' = r := by
  rcases h with ⟨rfl, z, h, rfl⟩ | ⟨rfl, h⟩ <;>
    rcases h' with ⟨rfl, z', h', rfl⟩ | ⟨rfl, h'⟩ <;>
    simp_all

lemma ArithVal.type {a : Term} {T : Ty} {r : ℝ} (h : ArithVal I T a r) : T = .int ∨ T = .real := by
  rcases h with ⟨hT, -⟩ | ⟨hT, -⟩
  · exact .inl hT
  · exact .inr hT

section Operators

variable {T : Ty} {a b : Term} {x y : ℝ}

variable {s : Sym}

variable {fr f : ℝ → ℝ → ℝ} {fi : Int → Int → Prop}

/-- Binary operators that commute with the embedding of the integers. -/
lemma arithVal_op2 {fi : Int → Int → Int} (hs : s.arity = 2)
    (hv : symVal I s = vArith2 fi fr) (hcast : ∀ m n : Int, ((fi m n : Int) : ℝ) = fr m n)
    (ha : ArithVal I T a x) (hb : ArithVal I T b y) : ArithVal I T (bop s a b) (fr x y) := by
  rcases ha with ⟨rfl, m, ha, rfl⟩ | ⟨rfl, ha⟩
  · rcases hb with ⟨-, n, hb, rfl⟩ | ⟨h, -⟩
    · refine .inl ⟨rfl, fi m n, ?_, (hcast m n).symm⟩
      rw [value_bop I hs, ha, hb, hv]
      rfl
    · contradiction
  rcases hb with ⟨h, -⟩ | ⟨-, hb⟩
  · contradiction
  refine .inr ⟨rfl, ?_⟩
  rw [value_bop I hs, ha, hb, hv]
  rfl

lemma arithVal_plus (ha : ArithVal I T a x) (hb : ArithVal I T b y) :
    ArithVal I T (bop .plus a b) (x + y) :=
  arithVal_op2 rfl rfl (by simp) ha hb

lemma arithVal_minus (ha : ArithVal I T a x) (hb : ArithVal I T b y) :
    ArithVal I T (bop .minus a b) (x - y) :=
  arithVal_op2 rfl rfl (by simp) ha hb

lemma arithVal_times (ha : ArithVal I T a x) (hb : ArithVal I T b y) :
    ArithVal I T (bop .times a b) (x * y) :=
  arithVal_op2 rfl rfl (by simp) ha hb

/-- Unary operators that commute with the embedding of the integers. -/
lemma arithVal_op1 {fi : Int → Int} {fr : ℝ → ℝ} (hs : s.arity = 1)
    (hv : symVal I s = vArith1 fi fr) (hcast : ∀ m : Int, ((fi m : Int) : ℝ) = fr m)
    (ha : ArithVal I T a x) : ArithVal I T (uop s a) (fr x) := by
  rcases ha with ⟨rfl, m, ha, rfl⟩ | ⟨rfl, ha⟩
  · refine .inl ⟨rfl, fi m, ?_, (hcast m).symm⟩
    rw [value_uop I hs, ha, hv]
    rfl
  refine .inr ⟨rfl, ?_⟩
  rw [value_uop I hs, ha, hv]
  rfl

lemma arithVal_abs (ha : ArithVal I T a x) : ArithVal I T (uop .abs a) |x| :=
  arithVal_op1 rfl rfl (by simp) ha

lemma arithVal_uminus (ha : ArithVal I T a x) : ArithVal I T (uop .uminus a) (-x) :=
  arithVal_op1 rfl rfl (by simp) ha

lemma arithVal_toReal (ha : ArithVal I T a x) : ArithVal I .real (uop .toReal a) x := by
  refine arithVal_real ?_
  rcases ha with ⟨rfl, m, ha, rfl⟩ | ⟨rfl, ha⟩
  · rw [value_uop I rfl, ha]
    rfl
  · rw [value_uop I rfl, ha]
    rfl

open Classical in
lemma arithVal_ite {c : Term} {p : Prop} (hc : BoolVal I c p) (ha : ArithVal I T a x)
    (hb : ArithVal I T b y) : ArithVal I T (.app (bop .ite c a) b) (if p then x else y) := by
  rcases ha with ⟨rfl, m, ha, rfl⟩ | ⟨rfl, ha⟩
  · rcases hb with ⟨-, n, hb, rfl⟩ | ⟨h, -⟩
    · refine .inl ⟨rfl, if p then m else n, value_ite hc ha hb, ?_⟩
      split
      · rfl
      · rfl
    · contradiction
  rcases hb with ⟨h, -⟩ | ⟨-, hb⟩
  · contradiction
  · exact arithVal_real (value_ite hc ha hb)

lemma arithVal_qdiv (hs : s.arity = 2) (hv : symVal I s = vQdiv f)
    (ha : ArithVal I T a x) (hb : ArithVal I T b y) : ArithVal I .real (bop s a b) (f x y) := by
  refine arithVal_real ?_
  rcases ha with ⟨rfl, m, ha, rfl⟩ | ⟨rfl, ha⟩
  · rcases hb with ⟨-, n, hb, rfl⟩ | ⟨h, -⟩
    · rw [value_bop I hs, ha, hb, hv]
      rfl
    · contradiction
  rcases hb with ⟨h, -⟩ | ⟨-, hb⟩
  · contradiction
  · rw [value_bop I hs, ha, hb, hv]
    rfl

variable {r : ℝ}

lemma ArithVal.exists_value (h : ArithVal I T a r) : ∃ v, value I a = some v := by
  rcases h with ⟨-, z, h, -⟩ | ⟨-, h⟩
  · exact ⟨_, h⟩
  · exact ⟨_, h⟩

lemma arithVal_op1_inv {fi : Int → Int} {fr : ℝ → ℝ} (hs : s.arity = 1)
    (hv : symVal I s = vArith1 fi fr) (hcast : ∀ m : Int, ((fi m : Int) : ℝ) = fr m)
    (h : ArithVal I T (uop s a) r) : ∃ x, ArithVal I T a x ∧ r = fr x := by
  obtain ⟨v, hval⟩ := h.exists_value
  obtain ⟨va, ha, hval⟩ := value_uop_inv I hs hval
  rw [hv] at hval
  rcases vArith1_inv hval with ⟨m, heq, -⟩ | ⟨m, heq, -⟩
  · cases heq
    obtain ⟨rfl, rfl⟩ := (arithVal_op1 hs hv hcast (arithVal_int ha)).unique h
    exact ⟨_, arithVal_int ha, rfl⟩
  cases heq
  obtain ⟨rfl, rfl⟩ := (arithVal_op1 hs hv hcast (arithVal_real ha)).unique h
  exact ⟨_, arithVal_real ha, rfl⟩

lemma arithVal_abs_inv (h : ArithVal I T (uop .abs a) r) : ∃ x, ArithVal I T a x ∧ r = |x| :=
  arithVal_op1_inv rfl rfl (by simp) h

lemma arithVal_toReal_inv (h : ArithVal I T (uop .toReal a) r) : ∃ S, ArithVal I S a r := by
  obtain ⟨v, hval⟩ := h.exists_value
  obtain ⟨va, ha, hval⟩ := value_uop_inv I rfl hval
  rcases vToReal_inv (show vToReal [va] = some v from hval) with ⟨m, heq, -⟩ | ⟨m, heq, -⟩
  · cases heq
    obtain ⟨-, rfl⟩ := (arithVal_toReal (arithVal_int ha)).unique h
    exact ⟨_, arithVal_int ha⟩
  cases heq
  obtain ⟨-, rfl⟩ := (arithVal_toReal (arithVal_real ha)).unique h
  exact ⟨_, arithVal_real ha⟩

lemma arithVal_qdiv_inv (hs : s.arity = 2)
    (hv : symVal I s = vQdiv f) (h : ArithVal I T (bop s a b) r) :
    ∃ S x y, ArithVal I S a x ∧ ArithVal I S b y ∧ T = .real ∧ r = f x y := by
  obtain ⟨v, hval⟩ := h.exists_value
  obtain ⟨va, vb, ha, hb, hval⟩ := value_bop_inv I hs hval
  rw [hv] at hval
  rcases vQdiv_inv hval with ⟨m, n, heq, -⟩ | ⟨m, n, heq, -⟩
  · cases heq
    obtain ⟨rfl, rfl⟩ := (arithVal_qdiv hs hv (arithVal_int ha) (arithVal_int hb)).unique h
    exact ⟨_, _, _, arithVal_int ha, arithVal_int hb, rfl, rfl⟩
  cases heq
  obtain ⟨rfl, rfl⟩ := (arithVal_qdiv hs hv (arithVal_real ha) (arithVal_real hb)).unique h
  exact ⟨_, _, _, arithVal_real ha, arithVal_real hb, rfl, rfl⟩

lemma arithVal_op2_inv {fi : Int → Int → Int} (hs : s.arity = 2) (hv : symVal I s = vArith2 fi fr)
    (hcast : ∀ m n : Int, ((fi m n : Int) : ℝ) = fr m n) (h : ArithVal I T (bop s a b) r) :
    ∃ x y, ArithVal I T a x ∧ ArithVal I T b y ∧ r = fr x y := by
  obtain ⟨v, hval⟩ := h.exists_value
  obtain ⟨va, vb, ha, hb, hval⟩ := value_bop_inv I hs hval
  rw [hv] at hval
  rcases vArith2_inv hval with ⟨m, n, heq, -⟩ | ⟨m, n, heq, -⟩
  · cases heq
    have hab := arithVal_op2 hs hv hcast (arithVal_int ha) (arithVal_int hb)
    obtain ⟨rfl, rfl⟩ := hab.unique h
    exact ⟨_, _, arithVal_int ha, arithVal_int hb, rfl⟩
  cases heq
  have hab := arithVal_op2 hs hv hcast (arithVal_real ha) (arithVal_real hb)
  obtain ⟨rfl, rfl⟩ := hab.unique h
  exact ⟨_, _, arithVal_real ha, arithVal_real hb, rfl⟩

lemma arithVal_times_inv (h : ArithVal I T (bop .times a b) r) :
    ∃ x y, ArithVal I T a x ∧ ArithVal I T b y ∧ r = x * y :=
  arithVal_op2_inv rfl rfl (by simp) h

/-! ## Comparisons -/

lemma boolVal_rel {fr : ℝ → ℝ → Prop} (hs : s.arity = 2)
    (hv : symVal I s = vRel fi fr) (hcast : ∀ m n : Int, fi m n ↔ fr m n)
    (ha : ArithVal I T a x) (hb : ArithVal I T b y) : BoolVal I (bop s a b) (fr x y) := by
  unfold BoolVal
  rcases ha with ⟨rfl, m, ha, rfl⟩ | ⟨rfl, ha⟩
  · rcases hb with ⟨-, n, hb, rfl⟩ | ⟨h, -⟩
    · rw [value_bop I hs, ha, hb, hv, ← propext (hcast m n)]
      rfl
    · contradiction
  rcases hb with ⟨h, -⟩ | ⟨-, hb⟩
  · contradiction
  · rw [value_bop I hs, ha, hb, hv]
    rfl

lemma boolVal_lt (ha : ArithVal I T a x) (hb : ArithVal I T b y) :
    BoolVal I (bop .lt a b) (x < y) := boolVal_rel rfl rfl (by simp) ha hb

lemma boolVal_leq (ha : ArithVal I T a x) (hb : ArithVal I T b y) :
    BoolVal I (bop .leq a b) (x ≤ y) := boolVal_rel rfl rfl (by simp) ha hb

lemma boolVal_gt (ha : ArithVal I T a x) (hb : ArithVal I T b y) :
    BoolVal I (bop .gt a b) (x > y) := boolVal_rel rfl rfl (by simp) ha hb

lemma boolVal_geq (ha : ArithVal I T a x) (hb : ArithVal I T b y) :
    BoolVal I (bop .geq a b) (x ≥ y) := boolVal_rel rfl rfl (by simp) ha hb

lemma boolVal_arithEq (ha : ArithVal I T a x) (hb : ArithVal I T b y) :
    BoolVal I (bop .eq a b) (x = y) := by
  unfold BoolVal
  rcases ha with ⟨rfl, m, ha, rfl⟩ | ⟨rfl, ha⟩
  · rcases hb with ⟨-, n, hb, rfl⟩ | ⟨h, -⟩
    · rw [value_bop I rfl, ha, hb]
      simp only [bind_some, symVal.eq_def, vEq, dif_pos, Int.cast_inj]
      rfl
    · contradiction
  rcases hb with ⟨h, -⟩ | ⟨-, hb⟩
  · contradiction
  rw [value_bop I rfl, ha, hb]
  simp only [bind_some, symVal.eq_def, vEq, dif_pos]
  rfl

/-- An equation with a truth value has a right-hand side of the type of its
left-hand side. -/
lemma boolVal_eq_inv {p : Prop} (h : BoolVal I (bop .eq a b) p) (ha : ArithVal I T a x) :
    ∃ y, ArithVal I T b y := by
  obtain ⟨v, v', hv, hv', h⟩ := value_bop_inv I rfl h
  obtain ⟨S, x', y', heq, _⟩ := vEq_inv (show vEq [v, v'] = some _ from h)
  cases heq
  rcases ha with ⟨rfl, m, ha, rfl⟩ | ⟨rfl, ha⟩
  · cases hv.symm.trans ha
    exact ⟨_, arithVal_int hv'⟩
  · cases hv.symm.trans ha
    exact ⟨_, arithVal_real hv'⟩

/-- A comparison with a truth value compares two terms of one arithmetic type. -/
lemma boolVal_rel_inv {fr : ℝ → ℝ → Prop} {p : Prop}
    (hs : s.arity = 2) (hv : symVal I s = vRel fi fr) (h : BoolVal I (bop s a b) p) :
    ∃ T x y, ArithVal I T a x ∧ ArithVal I T b y := by
  obtain ⟨va, vb, ha, hb, h⟩ := value_bop_inv I hs h
  rw [hv] at h
  rcases vRel_inv h with ⟨m, n, heq, -⟩ | ⟨m, n, heq, -⟩
  · cases heq
    exact ⟨_, _, _, arithVal_int ha, arithVal_int hb⟩
  · cases heq
    exact ⟨_, _, _, arithVal_real ha, arithVal_real hb⟩

end Operators

/-! ## The five relation symbols -/

/-- The relation on reals behind a relation symbol. -/
def relHolds : Sym → ℝ → ℝ → Prop
  | .lt, x, y => x < y
  | .leq, x, y => x ≤ y
  | .gt, x, y => x > y
  | .geq, x, y => x ≥ y
  | .eq, x, y => x = y
  | _, _, _ => False

/-- The five relation symbols of arithmetic. -/
def IsRel (s : Sym) : Prop := s = .lt ∨ s = .leq ∨ s = .gt ∨ s = .geq ∨ s = .eq

lemma boolVal_isRel {s : Sym} (hs : IsRel s) {T : Ty} {a b : Term} {x y : ℝ}
    (ha : ArithVal I T a x) (hb : ArithVal I T b y) : BoolVal I (bop s a b) (relHolds s x y) := by
  rcases hs with rfl | rfl | rfl | rfl | rfl
  · exact boolVal_lt ha hb
  · exact boolVal_leq ha hb
  · exact boolVal_gt ha hb
  · exact boolVal_geq ha hb
  · exact boolVal_arithEq ha hb

lemma typeof_isRel {s : Sym} (hs : IsRel s) {T : Ty} (hT : T = .int ∨ T = .real) {a b : Term}
    (ha : typeof Γ a = some T) (hb : typeof Γ b = some T) :
    typeof Γ (bop s a b) = some .bool := by
  rcases hs with rfl | rfl | rfl | rfl | rfl <;> rcases hT with rfl | rfl <;>
    rw [typeof_bop Γ rfl, ha, hb] <;> rfl

/-! ## Literals -/

variable {z : Term}

lemma arithVal_zero {T : Ty} (h : arithMkZero T = some z) : ArithVal I T z 0 := by
  unfold arithMkZero at h
  split at h
  · cases h
    simpa using arithVal_int (I := I) (value_num I 0)
  · cases h
    simpa using arithVal_real (I := I) (value_rat I 0)
  · cases h

lemma arithVal_one {T : Ty} (h : arithMkOne T = some z) : ArithVal I T z 1 := by
  unfold arithMkOne at h
  split at h
  · cases h
    simpa using arithVal_int (I := I) (value_num I 1)
  · cases h
    simpa using arithVal_real (I := I) (value_rat I 1)
  · cases h

lemma arithVal_of_eoToZ {T : Ty} {n : Int} {x : ℝ} (hz : eoToZ z = some n) (h : ArithVal I T z x) :
    (T = .int ∧ z = .num n ∧ x = n) ∨ (∃ q : Rat, T = .real ∧ z = .rat q ∧ x = q ∧ ⌊q⌋ = n) := by
  cases z with
  | num m =>
    obtain rfl : m = n := some.inj hz
    obtain ⟨rfl, rfl⟩ := (arithVal_int (value_num I m)).unique h
    exact .inl ⟨rfl, rfl, rfl⟩
  | rat q =>
    obtain ⟨rfl, rfl⟩ := (arithVal_real (value_rat I q)).unique h
    exact .inr ⟨q, rfl, rfl, rfl, some.inj hz⟩
  | bin w v => exact absurd h (not_arithVal (value_bin I w v) (by simp) (by simp))
  | str l => exact absurd h (not_arithVal (value_str I l) (by simp) (by simp))
  | _ => simp [eoToZ] at hz

lemma arithVal_of_eoToQ {T : Ty} {q : Rat} {x : ℝ} (hz : eoToQ z = some q)
    (h : ArithVal I T z x) : x = q := by
  cases z with
  | num m =>
    obtain rfl : (m : Rat) = q := some.inj hz
    obtain ⟨-, rfl⟩ := (arithVal_int (value_num I m)).unique h
    simp
  | rat q' =>
    obtain rfl : q' = q := some.inj hz
    exact ((arithVal_real (value_rat I q')).unique h).2
  | _ => simp [eoToQ] at hz

/-! ## Sums and products of two terms -/

lemma arithVal_mkNary_times {T : Ty} {a b r : Term} {x y : ℝ}
    (h : mkNary Γ .times a [b] = some r) (ha : ArithVal I T a x) (hb : ArithVal I T b y) :
    ArithVal I T r (x * y) := by
  obtain ⟨nil, hnil, rfl⟩ := map_inv h
  obtain ⟨S, hS, hone⟩ := bind_inv hnil
  have hn : ArithVal I S nil 1 := arithVal_one hone
  obtain ⟨x', hx'⟩ := arithVal_of_typeof (I := I) hS hn.type
  obtain ⟨rfl, -⟩ := ha.unique hx'
  have := arithVal_times ha (arithVal_times hb hn)
  rwa [mul_one] at this

lemma arithVal_mkNary_plus {T : Ty} {a b r : Term} {x y : ℝ}
    (h : mkNary Γ .plus a [b] = some r) (ha : ArithVal I T a x) (hb : ArithVal I T b y) :
    ArithVal I T r (x + y) := by
  obtain ⟨nil, hnil, rfl⟩ := map_inv h
  obtain ⟨S, hS, hzero⟩ := bind_inv hnil
  have hn : ArithVal I S nil 0 := arithVal_zero hzero
  obtain ⟨x', hx'⟩ := arithVal_of_typeof (I := I) hS hn.type
  obtain ⟨rfl, -⟩ := ha.unique hx'
  have := arithVal_plus ha (arithVal_plus hb hn)
  rwa [add_zero] at this

end EthosCpc
