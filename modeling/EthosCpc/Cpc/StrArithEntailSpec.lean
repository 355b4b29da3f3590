import EthosCpc.Cpc.StrArithEntail
import EthosCpc.Cpc.PolyNormSpec
import EthosCpc.Semantics.SeqOps

/-!
# Soundness of the entailment between lengths

A term that `$str_arith_entail_simple` accepts is never negative.  Its
normal form is a sum of products of lengths with coefficients that are not
negative, and an integer term has no division that the normal form could
misread.

An approximation bounds a term from one side, and which side it is changes
below a negative factor.
-/

namespace EthosCpc

open Term (bop uop)
open Library
open Option (some.inj)

variable (compareVars : List Term → List Term → Bool) (compareVar : Term → Term → Bool)
variable {Γ : Nat → Ty} {I : Interp Γ}

/-! ## Polynomials that are not negative -/

/-- Lengths are read as numbers that are not negative. -/
def ReadsLengths (ρ : Term → ℝ) : Prop := ∀ s, 0 ≤ ρ (uop .strLen s)

lemma polyVal_nil (ρ : Term → ℝ) : polyVal ρ [] = 0 := rfl

lemma polyVal_cons (ρ : Term → ℝ) (t : List Term) (q : Rat) (p : Polynomial) :
    polyVal ρ ((t, q) :: p) = q * (t.map ρ).prod + polyVal ρ p := rfl

/-- The polynomial is not negative, nor is it after the lengths that were removed from its first
monomial are multiplied back. -/
lemma strArithEntailSimpleRec_spec {ρ : Term → ℝ} (hρ : ReadsLengths ρ) :
    ∀ {p : Polynomial}, strArithEntailSimpleRec p = some true → 0 ≤ polyVal ρ p ∧
      ∀ t q p', p = (t, q) :: p' → 0 ≤ (q : ℝ) * (t.map ρ).prod ∧ 0 ≤ polyVal ρ p' := by
  intro p
  induction p using strArithEntailSimpleRec.induct with
  | case1 =>
    intro _
    exact ⟨le_of_eq (polyVal_nil ρ).symm, fun _ _ _ h => nomatch h⟩
  | case2 s t q p ih =>
    intro h
    rw [strArithEntailSimpleRec] at h
    obtain ⟨hmon, hp⟩ := (ih h).2 t q p rfl
    have hmon' : 0 ≤ (q : ℝ) * ((uop .strLen s :: t).map ρ).prod := by
      have := mul_nonneg (hρ s) hmon
      rw [List.map_cons, List.prod_cons]
      linarith
    refine ⟨?_, ?_⟩
    · rw [polyVal_cons]
      exact add_nonneg hmon' hp
    · rintro _ _ _ ⟨⟩
      exact ⟨hmon', hp⟩
  | case3 q p hq =>
    intro h
    rw [strArithEntailSimpleRec, if_pos hq] at h
    cases h
  | case4 q p hq ih =>
    intro h
    rw [strArithEntailSimpleRec, if_neg hq] at h
    have hq' : (0 : ℝ) ≤ q := Rat.cast_nonneg.2 (not_lt.1 hq)
    have hmon : 0 ≤ (q : ℝ) * (([] : List Term).map ρ).prod := by simpa using hq'
    refine ⟨?_, ?_⟩
    · rw [polyVal_cons]
      exact add_nonneg hmon (ih h).1
    · rintro _ _ _ ⟨⟩
      exact ⟨hmon, (ih h).1⟩
  | case5 p h1 h2 h3 =>
    intro h
    rw [strArithEntailSimpleRec] at h
    · cases h
    all_goals assumption

/-- An integer has no division of reals that its normal form keeps. -/
lemma opaqueDivs_of_intVal : ∀ {t : Term} {r : ℝ}, ArithVal I .int t r → opaqueDivs t = [] := by
  intro t
  induction t using opaqueDivs.induct with
  | case1 a1 ih =>
    intro r h
    obtain ⟨x, hx, _⟩ := arithVal_op1_inv (s := .uminus) rfl rfl (by simp) h
    rw [opaqueDivs, ih hx]
  | case2 a1 a2 ih1 ih2 =>
    intro r h
    obtain ⟨x, y, hx, hy, _⟩ := arithVal_op2_inv (s := .plus) rfl rfl (by simp) h
    rw [opaqueDivs, ih1 hx, ih2 hy, List.append_nil]
  | case3 a1 a2 ih1 ih2 =>
    intro r h
    obtain ⟨x, y, hx, hy, _⟩ := arithVal_op2_inv (s := .minus) rfl rfl (by simp) h
    rw [opaqueDivs, ih1 hx, ih2 hy, List.append_nil]
  | case4 a1 a2 ih1 ih2 =>
    intro r h
    obtain ⟨x, y, hx, hy, _⟩ := arithVal_times_inv h
    rw [opaqueDivs, ih1 hx, ih2 hy, List.append_nil]
  | case5 | case6 | case7 =>
    intro r h
    obtain ⟨_, _, _, _, _, hT, _⟩ := arithVal_qdiv_inv (s := .qdiv) rfl rfl h
    contradiction
  | case8 | case9 | case10 =>
    intro r h
    obtain ⟨_, _, _, _, _, hT, _⟩ := arithVal_qdiv_inv (s := .qdivTotal) rfl rfl h
    cases hT
  | case11 a1 ih =>
    intro r h
    obtain ⟨S, hx⟩ := arithVal_toReal_inv h
    obtain ⟨hT, _⟩ := h.unique (arithVal_toReal hx)
    cases hT
  | case12 a h1 h2 h3 h4 h5 h6 h7 =>
    intro r h
    rw [opaqueDivs]
    all_goals assumption

lemma readsLengths_divRead (D : Set (Bool × Term × Term)) : ReadsLengths (divRead I D) := by
  intro s
  show 0 ≤ numVal (value I (uop .strLen s))
  cases hv : value I (uop .strLen s) with
  | none => exact le_rfl
  | some v =>
    obtain ⟨T, x, -, rfl⟩ :=
      (value_seq1 (s := .strLen) (f := fun _ x => Val.int x.length) rfl rfl).1 hv
    show (0 : ℝ) ≤ ((x.length : Int) : ℝ)
    exact Int.cast_nonneg (Int.natCast_nonneg _)

lemma strArithEntailSimple_spec {t : Term} {z : Int} (ht : IntVal I t z)
    (h : strArithEntailSimple compareVars compareVar t = some true) : 0 ≤ z := by
  have hval := arithVal_int ht
  have hnorm := getArithPolyNorm_spec compareVars compareVar (readsLeaves_divRead (I := I) ∅) hval
    fun d hd => by rw [opaqueDivs_of_intVal hval] at hd; cases hd
  have hpos := (strArithEntailSimpleRec_spec (readsLengths_divRead (I := I) ∅) h).1
  rw [hnorm] at hpos
  exact_mod_cast hpos

/-! ## Integer operators -/

section Operators

variable {a b : Term} {x y z : Int}

lemma intVal_intPlus_iff :
    IntVal I (intPlus a b) z ↔ ∃ x y, IntVal I a x ∧ IntVal I b y ∧ z = x + y := by
  constructor
  · intro h
    obtain ⟨x, w, hx, hw, rfl⟩ := intVal_plus_iff.1 h
    obtain ⟨y, o, hy, ho, rfl⟩ := intVal_plus_iff.1 hw
    rw [intVal_num] at ho
    exact ⟨x, y, hx, hy, by omega⟩
  · rintro ⟨x, y, hx, hy, rfl⟩
    exact intVal_plus_iff.2 ⟨x, y, hx, intVal_plus_iff.2 ⟨y, 0, hy, intVal_num.2 rfl,
      by omega⟩, rfl⟩

lemma strArithEntailSimplePred_geq (ha : IntVal I a x) (hb : IntVal I b y)
    (h : strArithEntailSimplePred compareVars compareVar (bop .geq a b) = some true) : y ≤ x := by
  have hsub := intVal_minus_iff.2 ⟨x, y, ha, hb, rfl⟩
  have hpos := strArithEntailSimple_spec compareVars compareVar hsub h
  omega

lemma strArithEntailSimplePred_gt (ha : IntVal I a x) (hb : IntVal I b y)
    (h : strArithEntailSimplePred compareVars compareVar (bop .gt a b) = some true) : y < x := by
  have hone := intVal_intPlus_iff.2 ⟨y, 1, hb, intVal_num.2 rfl, rfl⟩
  have hsub := intVal_minus_iff.2 ⟨x, y + 1, ha, hone, rfl⟩
  have hpos := strArithEntailSimple_spec compareVars compareVar hsub h
  omega

end Operators

/-! ## Approximations -/

/-- The number `w` bounds `z` from below, or from above. -/
def Bounds (isUnder : Bool) (w z : Int) : Prop := if isUnder then w ≤ z else z ≤ w

lemma boolAnd_eq_true {a b : Option Bool} :
    boolAnd a b = some true ↔ a = some true ∧ b = some true := by
  unfold boolAnd
  cases a <;> cases b <;> simp

lemma eq_true_of_boolOr {a b : Option Bool} (h : boolOr a b = some true) :
    a = some true ∨ b = some true := by
  unfold boolOr at h
  cases a <;> cases b <;> simp_all

lemma intVal_strLen_iff {t : Term} {z : Int} :
    IntVal I (uop .strLen t) z ↔ ∃ (T : Ty) (l : List (Dom I.U T)), SeqVal I T t l ∧ z = l.length := by
  constructor
  · intro h
    obtain ⟨T, l, ht, hz⟩ :=
      (value_seq1 (s := .strLen) (f := fun _ x => Val.int x.length) rfl rfl).1 h
    exact ⟨T, l, ht, Val.mk_inj.1 hz⟩
  · rintro ⟨T, l, ht, rfl⟩
    exact intVal_strLen ht

section Lengths

variable {s t r n n1 n2 : Term} {w z : Int} {isUnder : Bool}

lemma isApproxLen_substr
    (hz : IntVal I (uop .strLen (.app (bop .strSubstr s n1) n2)) z) (hn : IntVal I n w)
    (h : strArithEntailIsApproxLen compareVars compareVar (.app (bop .strSubstr s n1) n2) n isUnder =
      some true) : Bounds isUnder w z := by
  obtain ⟨T, u, hu, rfl⟩ := intVal_strLen_iff.1 hz
  obtain ⟨T', x, i, k, hx, hi, hk, heq⟩ := value_substr.1 hu
  obtain rfl := Ty.seq.inj (congrArg Sigma.fst heq)
  obtain rfl : u = Words.substr x i k := Val.mk_inj.1 heq
  have hlx := intVal_strLen hx
  have hnpm : IntVal I (intPlus n1 n2) (i + k) := intVal_intPlus_iff.2 ⟨i, k, hi, hk, rfl⟩
  have hlen : 0 ≤ i → ((Words.substr x i k).length : Int) = max 0 (min k (x.length - i)) :=
    Words.length_substr_of_nonneg x
  have hneg : i < 0 → (Words.substr x i k).length = 0 := fun h' => by
    rw [Words.substr_of_neg x h', List.length_nil]
  simp only [strArithEntailIsApproxLen] at h
  split at h
  · -- `n2` itself
    rename_i hn2
    obtain rfl := (hn2 ▸ hn).unique hk
    cases isUnder with
    | true =>
      obtain ⟨h1, h2⟩ := boolAnd_eq_true.1 h
      have hi0 := strArithEntailSimple_spec compareVars compareVar hi h1
      have hle := strArithEntailSimplePred_geq compareVars compareVar hlx hnpm h2
      show w ≤ _
      omega
    | false =>
      have hk0 := strArithEntailSimple_spec compareVars compareVar hk h
      show _ ≤ w
      omega
  split at h
  · -- the length of `s`
    rename_i hs
    obtain rfl := (hs ▸ hn).unique hlx
    cases isUnder with
    | true => cases h
    | false =>
      show _ ≤ (x.length : Int)
      omega
  split at h
  swap
  · cases h
  -- what is left of `s` behind `n1`
  rename_i hrest
  obtain rfl := (hrest ▸ hn).unique (intVal_minus hlx hi)
  cases isUnder with
  | true =>
    obtain ⟨h1, h2⟩ := boolAnd_eq_true.1 h
    have hi0 := strArithEntailSimple_spec compareVars compareVar hi h1
    have hle := strArithEntailSimplePred_geq compareVars compareVar hnpm hlx h2
    show (x.length : Int) - i ≤ _
    omega
  | false =>
    have hle := strArithEntailSimplePred_geq compareVars compareVar hlx hi h
    show _ ≤ (x.length : Int) - i
    omega

open Classical in
lemma isApproxLen_replace
    (hz : IntVal I (uop .strLen (.app (bop .strReplace s t) r)) z) (hn : IntVal I n w)
    (h : strArithEntailIsApproxLen compareVars compareVar (.app (bop .strReplace s t) r) n isUnder =
      some true) : Bounds isUnder w z := by
  obtain ⟨T, u, hu, rfl⟩ := intVal_strLen_iff.1 hz
  obtain ⟨T', x, y, v, hx, hy, hv, heq⟩ :=
    (value_seq3 (s := .strReplace) (f := fun _ => Words.replace) rfl rfl).1 hu
  obtain rfl := Ty.seq.inj (congrArg Sigma.fst heq)
  obtain rfl : u = Words.replace x y v := Val.mk_inj.1 heq
  have hls := intVal_strLen hx
  have hlt := intVal_strLen hy
  have hlr := intVal_strLen hv
  -- either nothing is replaced, or `y` is an infix of `x`
  have hlen : (Words.replace x y v).length = x.length ∨
      y.length ≤ x.length ∧ (Words.replace x y v).length + y.length = x.length + v.length := by
    by_cases hin : y <:+: x
    · exact .inr ⟨hin.length_le, Words.length_replace hin v⟩
    · exact .inl (by rw [Words.replace_of_not_infix hin])
  simp only [strArithEntailIsApproxLen] at h
  split at h
  · rename_i hs
    obtain rfl := (hs ▸ hn).unique hls
    cases isUnder with
    | true =>
      show (x.length : Int) ≤ _
      rcases eq_true_of_boolOr h with h | h
      · have hle := strArithEntailSimplePred_geq compareVars compareVar hlr hlt h
        omega
      · have hle := strArithEntailSimplePred_geq compareVars compareVar hlr hls h
        omega
    | false =>
      have hle := strArithEntailSimplePred_geq compareVars compareVar hlt hlr h
      show _ ≤ (x.length : Int)
      omega
  split at h
  · rename_i hs
    have hsum := intVal_intPlus_iff.2 ⟨_, _, hls, hlr, rfl⟩
    obtain rfl := (hs ▸ hn).unique hsum
    cases isUnder with
    | true => cases h
    | false =>
      show _ ≤ (x.length : Int) + v.length
      omega
  split at h
  swap
  · cases h
  rename_i hs
  obtain rfl := (hs ▸ hn).unique (intVal_minus hls hlt)
  cases isUnder with
  | true =>
    show (x.length : Int) - y.length ≤ _
    omega
  | false => cases h

lemma isApproxLen_fromInt (hz : IntVal I (uop .strLen (uop .strFromInt n1)) z) (hn : IntVal I n w)
    (h : strArithEntailIsApproxLen compareVars compareVar (uop .strFromInt n1) n isUnder =
      some true) : Bounds isUnder w z := by
  obtain ⟨T, u, hu, rfl⟩ := intVal_strLen_iff.1 hz
  obtain ⟨i, hi, heq⟩ := (value_int1 (s := .strFromInt) rfl rfl).1 hu
  obtain rfl : T = .char := Ty.seq.inj (congrArg Sigma.fst heq)
  obtain rfl : u = strFromInt i := Val.mk_inj.1 heq
  have hlen : 0 ≤ i → (strFromInt i).length = (decimal i.toNat).length := fun h0 => by
    rw [strFromInt, if_neg (not_lt.2 h0)]
  have hpos := length_decimal_pos i.toNat
  have hle : 0 < i → (decimal i.toNat).length ≤ i.toNat := fun h0 => length_decimal_le (by omega)
  have hzero : i = 0 → (decimal i.toNat).length = 1 := by
    rintro rfl
    rfl
  simp only [strArithEntailIsApproxLen] at h
  split at h
  · rename_i hs
    have hsum := intVal_intPlus_iff.2 ⟨i, 1, hi, intVal_num.2 rfl, rfl⟩
    obtain rfl := (hs ▸ hn).unique hsum
    obtain ⟨h1, h2⟩ := boolAnd_eq_true.1 h
    have hi0 := strArithEntailSimple_spec compareVars compareVar hi h2
    cases isUnder with
    | true => cases h1
    | false =>
      show ((strFromInt i).length : Int) ≤ i + 1
      omega
  split at h
  · rename_i hs
    obtain rfl := (hs ▸ hn).unique hi
    obtain ⟨h1, h2⟩ := boolAnd_eq_true.1 h
    have hi0 := strArithEntailSimplePred_gt compareVars compareVar hi (intVal_num.2 rfl) h2
    cases isUnder with
    | true => cases h1
    | false =>
      show ((strFromInt w).length : Int) ≤ w
      omega
  split at h
  swap
  · cases h
  rename_i hs
  obtain rfl := intVal_num.1 (hs ▸ hn)
  obtain ⟨h1, h2⟩ := boolAnd_eq_true.1 h
  have hi0 := strArithEntailSimple_spec compareVars compareVar hi h2
  cases isUnder with
  | true =>
    show (1 : Int) ≤ (strFromInt i).length
    omega
  | false => cases h1

lemma isApproxLen_spec (hz : IntVal I (uop .strLen s) z) (hn : IntVal I n w)
    (h : strArithEntailIsApproxLen compareVars compareVar s n isUnder = some true) :
    Bounds isUnder w z := by
  by_cases hsub : ∃ a n1 n2, s = .app (bop .strSubstr a n1) n2
  · obtain ⟨a, n1, n2, rfl⟩ := hsub
    exact isApproxLen_substr compareVars compareVar hz hn h
  by_cases hrep : ∃ a t r, s = .app (bop .strReplace a t) r
  · obtain ⟨a, t, r, rfl⟩ := hrep
    exact isApproxLen_replace compareVars compareVar hz hn h
  by_cases hint : ∃ n1, s = uop .strFromInt n1
  · obtain ⟨n1, rfl⟩ := hint
    exact isApproxLen_fromInt compareVars compareVar hz hn h
  rw [strArithEntailIsApproxLen] at h
  · cases h
  · exact fun a n1 n2 heq => hsub ⟨a, n1, n2, heq⟩
  · exact fun a t r heq => hrep ⟨a, t, r, heq⟩
  · exact fun n1 heq => hint ⟨n1, heq⟩

open Classical in
lemma isApproxIndexof_spec (hz : IntVal I (.app (bop .strIndexof s t) n1) z) (hn : IntVal I n w)
    (h : strArithEntailIsApproxIndexof compareVars compareVar s t n isUnder = some true) :
    Bounds isUnder w z := by
  obtain ⟨T, x, y, i, hx, hy, hi, heq⟩ := value_indexof.1 hz
  obtain rfl : z = Words.indexof x y i := Val.mk_inj.1 heq
  have hls := intVal_strLen hx
  have hlt := intVal_strLen hy
  have hlow := Words.neg_one_le_indexof x y i
  have hhigh := Words.indexof_add_length_le x y i
  simp only [strArithEntailIsApproxIndexof] at h
  split at h
  · rename_i hs
    obtain rfl := intVal_num.1 (hs ▸ hn)
    cases isUnder with
    | true => exact hlow
    | false => cases h
  split at h
  · rename_i hs
    obtain rfl := (hs ▸ hn).unique hls
    cases isUnder with
    | true => cases h
    | false =>
      show _ ≤ (x.length : Int)
      omega
  split at h
  swap
  · cases h
  rename_i hs
  obtain rfl := (hs ▸ hn).unique (intVal_minus hls hlt)
  obtain ⟨h1, h2⟩ := boolAnd_eq_true.1 h
  have hle := strArithEntailSimplePred_geq compareVars compareVar hls hlt h2
  cases isUnder with
  | true => cases h1
  | false =>
    show _ ≤ (x.length : Int) - y.length
    omega

lemma isApproxToInt_spec (hz : IntVal I (uop .strToInt s) z) (hn : IntVal I n w)
    (h : strArithEntailIsApproxToInt n isUnder = some true) : Bounds isUnder w z := by
  obtain ⟨x, hx, heq⟩ := (value_str1 (s := .strToInt) rfl rfl).1 hz
  obtain rfl : z = strToInt x := Val.mk_inj.1 heq
  simp only [strArithEntailIsApproxToInt, Option.some.injEq] at h
  split at h
  swap
  · cases h
  rename_i hs
  obtain rfl := intVal_num.1 (hs ▸ hn)
  obtain rfl := h
  exact neg_one_le_strToInt x

end Lengths

/-- A product with a factor that is not negative keeps a bound, and a product with a negative
factor turns it around. -/
lemma Bounds.mul {isUnder : Bool} {w z c : Int}
    (h : Bounds (if c < 0 then !isUnder else isUnder) w z) : Bounds isUnder (c * w) (c * z) := by
  by_cases hc : c < 0
  · rw [if_pos hc] at h
    cases isUnder with
    | true => exact Int.mul_le_mul_of_nonpos_left hc.le h
    | false => exact Int.mul_le_mul_of_nonpos_left hc.le h
  rw [if_neg hc] at h
  cases isUnder with
  | true => exact Int.mul_le_mul_of_nonneg_left h (not_lt.1 hc)
  | false => exact Int.mul_le_mul_of_nonneg_left h (not_lt.1 hc)

lemma Bounds.add {isUnder : Bool} {w z w' z' : Int} (h : Bounds isUnder w z)
    (h' : Bounds isUnder w' z') : Bounds isUnder (w + w') (z + z') := by
  cases isUnder with
  | true => exact Int.add_le_add h h'
  | false => exact Int.add_le_add h h'

lemma intVal_scaled_iff {a b : Term} {z : Int} : IntVal I (bop .times a (bop .times b (.num 1))) z ↔
      ∃ x y, IntVal I a x ∧ IntVal I b y ∧ z = x * y := by
  constructor
  · intro h
    obtain ⟨x, w, hx, hw, rfl⟩ := intVal_times_iff.1 h
    obtain ⟨y, o, hy, ho, rfl⟩ := intVal_times_iff.1 hw
    rw [intVal_num] at ho
    exact ⟨x, y, hx, hy, by rw [ho, mul_one]⟩
  · rintro ⟨x, y, hx, hy, rfl⟩
    exact intVal_times_iff.2 ⟨x, y, hx, intVal_times_iff.2 ⟨y, 1, hy, intVal_num.2 rfl,
      (mul_one y).symm⟩, rfl⟩

lemma eoIsNeg_of_intVal {t : Term} {c : Int} {b : Bool} (hc : IntVal I t c)
    (hb : eoIsNeg t = some b) : b = decide (c < 0) := by
  cases t with
  | num a =>
    obtain rfl := intVal_num.1 hc
    exact (some.inj hb).symm
  | rat q => cases congrArg Sigma.fst (some.inj hc)
  | _ => cases hb

lemma strArithEntailIsApprox_spec : ∀ {n m : Term} {isUnder : Bool} {z w : Int},
    IntVal I n z → IntVal I m w →
      strArithEntailIsApprox compareVars compareVar n m isUnder = some true →
        Bounds isUnder w z := by
  intro n m isUnder
  induction n, m, isUnder using strArithEntailIsApprox.induct with
  | case1 n isUnder =>
    intro z w hn hm _
    obtain rfl := hn.unique hm
    cases isUnder with
    | true => exact le_refl z
    | false => exact le_refl z
  | case2 isUnder s m hne =>
    intro z w hn hm h
    rw [strArithEntailIsApprox, if_neg hne] at h
    exact isApproxLen_spec compareVars compareVar hn hm h
  | case3 isUnder s t n3 m hne =>
    intro z w hn hm h
    rw [strArithEntailIsApprox, if_neg hne] at h
    exact isApproxIndexof_spec compareVars compareVar hn hm h
  | case4 isUnder s m hne =>
    intro z w hn hm h
    rw [strArithEntailIsApprox, if_neg hne] at h
    exact isApproxToInt_spec hn hm h
  | case5 isUnder n1 n2 n3 n4 hne ih1 ih2 =>
    intro z w hn hm h
    rw [strArithEntailIsApprox, if_neg hne] at h
    obtain ⟨h1, h2⟩ := boolAnd_eq_true.1 h
    obtain ⟨x1, x2, hx1, hx2, rfl⟩ := intVal_plus_iff.1 hn
    obtain ⟨y1, y2, hy1, hy2, rfl⟩ := intVal_plus_iff.1 hm
    exact (ih1 hx1 hy1 h1).add (ih2 hx2 hy2 h2)
  | case6 isUnder n1 n3 n5 hne ih =>
    intro z w hn hm h
    rw [strArithEntailIsApprox, if_neg hne, if_pos rfl] at h
    obtain ⟨b, hb, h⟩ := bind_inv h
    obtain ⟨c, x, hc, hx, rfl⟩ := intVal_scaled_iff.1 hn
    obtain ⟨c', y, hc', hy, rfl⟩ := intVal_scaled_iff.1 hm
    obtain rfl := hc.unique hc'
    have hbound := ih b hx hy h
    rw [eoIsNeg_of_intVal hc hb] at hbound
    exact Bounds.mul (by simpa using hbound)
  | case7 isUnder n1 n3 n1' n5 hne hfac =>
    intro z w hn hm h
    rw [strArithEntailIsApprox, if_neg hne, if_neg hfac] at h
    cases h
  | case8 isUnder n m hne h1 h2 h3 h4 h5 =>
    intro z w hn hm h
    rw [strArithEntailIsApprox, if_neg hne] at h
    · cases h
    all_goals assumption

/-! ## The rules -/

lemma intVal_of_typeof_geq {n : Term} {k : Int}
    (h : typeof Γ (bop .geq n (.num k)) = some .bool) : ∃ z, IntVal I n z := by
  obtain ⟨S, hn, hk, _, _⟩ := typeof_arith2_inv (R := fun _ => .bool) rfl rfl h
  obtain rfl : Ty.int = S := some.inj hk
  exact value_of_typeof I hn

lemma typeof_eq_sides {a b : Term} {T : Ty} (h : typeof Γ (bop .eq a b) = some T) :
    ∃ A, typeof Γ a = some A ∧ typeof Γ b = some A := by
  obtain ⟨A, B, hA, hB, hAB⟩ := typeof_bop_inv rfl h
  obtain ⟨_, _, _, heq, _⟩ := tyEq_inv (show tyEq [(a, A), (b, B)] = some _ from hAB)
  cases heq
  exact ⟨_, hA, hB⟩

lemma typeof_geq_bool {a b : Term} {T : Ty} (h : typeof Γ (bop .geq a b) = some T) : T = .bool := by
  obtain ⟨_, _, _, _, hT⟩ := typeof_arith2_inv (R := fun _ => .bool) rfl rfl h
  exact hT

lemma arithStringPredEntail_sat {F c : Term}
    (h : arithStringPredEntail compareVars compareVar F = some c)
    (hty : typeof Γ c = some .bool) : Sat I c := by
  unfold arithStringPredEntail at h
  split at h
  swap
  · cases h
  rename_i n
  obtain ⟨hn, h⟩ := eoRequires_eq_some.1 h
  cases h
  obtain ⟨A, hA, hB⟩ := typeof_eq_sides hty
  obtain rfl := typeof_geq_bool hA
  obtain ⟨z, hz⟩ := intVal_of_typeof_geq (I := I) hA
  have hpos := strArithEntailSimple_spec compareVars compareVar hz (of_decide_eq_true hn)
  have hgeq := boolVal_intGeq hz (intVal_num.2 rfl : IntVal I (.num 0) 0)
  exact (boolVal_eq hgeq (boolVal_bool true)).sat.2 (iff_of_true hpos rfl)

lemma arithStringPredSafeApprox_sat {F c : Term}
    (h : arithStringPredSafeApprox compareVars compareVar F = some c)
    (hty : typeof Γ c = some .bool) : Sat I c := by
  unfold arithStringPredSafeApprox at h
  split at h
  swap
  · cases h
  rename_i n m
  obtain ⟨happrox, h⟩ := eoRequires_eq_some.1 h
  obtain ⟨hpred, h⟩ := eoRequires_eq_some.1 h
  cases h
  obtain ⟨A, hA, hB⟩ := typeof_eq_sides hty
  obtain rfl := typeof_geq_bool hA
  obtain ⟨z, hz⟩ := intVal_of_typeof_geq (I := I) hA
  obtain ⟨w, hw⟩ := intVal_of_typeof_geq (I := I) hB
  have hzero : IntVal I (.num 0) 0 := intVal_num.2 rfl
  have hm := strArithEntailSimplePred_geq compareVars compareVar hw hzero (of_decide_eq_true hpred)
  have hnm : w ≤ z := strArithEntailIsApprox_spec compareVars compareVar hz hw
    (of_decide_eq_true happrox)
  exact (boolVal_eq (boolVal_intGeq hz hzero) (boolVal_intGeq hw hzero)).sat.2
    (iff_of_true (le_trans hm hnm) hm)

/-- The entailment tests say the truth about the values of integer terms, and
the two rules that call them conclude only true equations. -/
theorem strArithEntail_sound (I : Interp Γ) :
    (∀ n, typeof Γ n = some .int → strArithEntailSimple compareVars compareVar n = some true →
      ∃ z, IntVal I n z ∧ 0 ≤ z) ∧
    (∀ n m isUnder, typeof Γ n = some .int → typeof Γ m = some .int →
      strArithEntailIsApprox compareVars compareVar n m isUnder = some true →
      ∃ z w, IntVal I n z ∧ IntVal I m w ∧ if isUnder then z ≥ w else z ≤ w) ∧
    (∀ F c, arithStringPredEntail compareVars compareVar F = some c →
      typeof Γ c = some .bool → Sat I c) ∧
    (∀ F c, arithStringPredSafeApprox compareVars compareVar F = some c →
      typeof Γ c = some .bool → Sat I c) := by
  refine ⟨?_, ?_, ?_, ?_⟩
  · intro n hn h
    obtain ⟨z, hz⟩ : ∃ z, IntVal I n z := value_of_typeof I hn
    exact ⟨z, hz, strArithEntailSimple_spec compareVars compareVar hz h⟩
  · intro n m isUnder hn hm h
    obtain ⟨z, hz⟩ : ∃ z, IntVal I n z := value_of_typeof I hn
    obtain ⟨w, hw⟩ : ∃ w, IntVal I m w := value_of_typeof I hm
    exact ⟨z, w, hz, hw, strArithEntailIsApprox_spec compareVars compareVar hz hw h⟩
  · exact fun F c h hty => arithStringPredEntail_sat compareVars compareVar h hty
  · exact fun F c h hty => arithStringPredSafeApprox_sat compareVars compareVar h hty

/-- A replacement by the same string is at least as long as the string. -/
theorem strArithEntail_sound_replace : Sat (constStr []) (bop .eq
      (bop .geq (uop .strLen (.app (bop .strReplace (.const 0) (.const 1)) (.const 1))) (.num 0))
      (bop .geq (uop .strLen (.const 0)) (.num 0))) := by
  refine (strArithEntail_sound (fun _ _ => true) (fun _ _ => true) (constStr [])).2.2.2 (bop .eq
    (bop .geq (uop .strLen (.app (bop .strReplace (.const 0) (.const 1)) (.const 1))) (.num 0))
    (bop .geq (uop .strLen (.const 0)) (.num 0))) _ ?_ rfl
  simp [arithStringPredSafeApprox, strArithEntailIsApprox, strArithEntailIsApproxLen,
    strArithEntailSimplePred, strArithEntailSimple, getArithPolyNorm, eoToQ, polyVar, polyConst,
    polyNeg, SparsePoly.neg, polyAdd, SparsePoly.add, strArithEntailSimpleRec, boolOr, eoRequires]

end EthosCpc
