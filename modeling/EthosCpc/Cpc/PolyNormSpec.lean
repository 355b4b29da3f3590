import EthosCpc.Cpc.PolyNorm

/-!
# Soundness of polynomial normalization

The value of the polynomial of a term is the value of the term, provided
the variables of the polynomial are read as the terms they stand for.

For divisions this reading is ambiguous.  `$get_arith_poly_norm_div` uses
the variable `(/ a1 a2)` for `(/ a1 a2)` and for `(/_total a1 a2)` alike,
and the two differ when the divisor is zero.  Normalization is therefore
sound as long as no pair of terms that disagree under the two operators is
divided by both of them, and not beyond that (`poly_norm_sound_iff`).

Bit-vectors are read modulo `2 ^ n`: coefficients stay integers, and the
map from integers to bit-vectors is a homomorphism of rings.
-/

namespace EthosCpc

open Term (bop uop)
open Library (SparsePoly)
open Library.SparsePoly (CoeffMap eval evalMon InDom)
open Option (some.inj)

variable (compareVars : List Term → List Term → Bool) (compareVar : Term → Term → Bool)
variable {Γ : Nat → Ty} {I : Interp Γ}

/-! ## Real polynomials -/

/-- Rational coefficients as real numbers. -/
noncomputable def realCoeff : CoeffMap Rat ℝ where
  dom := ⊤
  map := fun c => (c : ℝ)
  map_zero := Rat.cast_zero
  map_neg := fun _ => Rat.cast_neg _
  map_add := fun _ _ => Rat.cast_add _ _
  map_mul := fun _ _ => Rat.cast_mul _ _

lemma inDom_realCoeff (p : Polynomial) : InDom realCoeff p := fun _ _ => trivial

noncomputable def polyVal (ρ : Term → ℝ) (p : Polynomial) : ℝ := eval realCoeff ρ p

section Reals

variable (ρ : Term → ℝ)

lemma polyVal_neg (p : Polynomial) : polyVal ρ (polyNeg p) = -polyVal ρ p :=
  (SparsePoly.neg_spec ρ (inDom_realCoeff p)).2

lemma polyVal_add (p q : Polynomial) :
    polyVal ρ (polyAdd compareVars p q) = polyVal ρ p + polyVal ρ q :=
  (SparsePoly.add_spec compareVars ρ p q (inDom_realCoeff p) (inDom_realCoeff q)).2

lemma polyVal_mul (p q : Polynomial) :
    polyVal ρ (polyMul compareVars compareVar p q) = polyVal ρ p * polyVal ρ q :=
  (SparsePoly.mul_spec compareVars compareVar ρ (inDom_realCoeff p) (inDom_realCoeff q)).2

lemma polyVal_mulConst (q : Rat) (p : Polynomial) :
    polyVal ρ (polyMulMon compareVars compareVar ([], q) p) = q * polyVal ρ p := by
  have h := (SparsePoly.mulMon_spec compareVars compareVar (φ := realCoeff) ρ
    (m := ([], q)) trivial (inDom_realCoeff p)).2
  have hmon : evalMon realCoeff ρ ([], q) = q := by simp [evalMon, realCoeff]
  rw [hmon] at h
  exact h

lemma polyVal_var (t : Term) : polyVal ρ (polyVar t) = ρ t := by
  simp [polyVal, polyVar, evalMon, realCoeff]

lemma polyVal_const (q : Rat) : polyVal ρ (polyConst q) = q := by
  unfold polyConst
  split
  · rename_i hq
    simp [polyVal, hq]
  · simp [polyVal, evalMon, realCoeff]

end Reals

/-! ## Reading the variables -/

def divSym : Bool → Sym
  | false => .qdiv
  | true => .qdivTotal

/-- The variable `(/ x y)` has the value of the division it stands for. -/
def ReadsDiv (I : Interp Γ) (ρ : Term → ℝ) (d : Bool × Term × Term) : Prop :=
  ∀ {S : Ty} {s : ℝ}, ArithVal I S (bop (divSym d.1) d.2.1 d.2.2) s → ρ (bop .qdiv d.2.1 d.2.2) = s

/-- All other variables have their own value. -/
def ReadsLeaves (I : Interp Γ) (ρ : Term → ℝ) : Prop :=
  ∀ {a : Term} {S : Ty} {s : ℝ}, ArithVal I S a s → (∀ x y, a ≠ bop .qdiv x y) → ρ a = s

variable {T : Ty} {r : ℝ}

lemma arithVal_div_const {b : Bool} {a1 a2 : Term} {q : Rat}
    (hq : eoToQ a2 = some q) (hne : q ≠ 0) (h : ArithVal I T (bop (divSym b) a1 a2) r) :
    ∃ S x, ArithVal I S a1 x ∧ r = 1 / q * x := by
  have hne' : (q : ℝ) ≠ 0 := Rat.cast_ne_zero.2 hne
  cases b with
  | false =>
    obtain ⟨S, x, y, hx, hy, _, hr⟩ := arithVal_qdiv_inv (s := .qdiv) rfl rfl h
    rw [arithVal_of_eoToQ hq hy, realDiv, if_neg hne'] at hr
    exact ⟨S, x, hx, by rw [hr]; ring⟩
  | true =>
    obtain ⟨S, x, y, hx, hy, _, hr⟩ := arithVal_qdiv_inv (s := .qdivTotal) rfl rfl h
    rw [arithVal_of_eoToQ hq hy] at hr
    exact ⟨S, x, hx, by rw [hr]; ring⟩

lemma getArithPolyNormDiv_spec {ρ : Term → ℝ} {b : Bool} {a1 a2 : Term}
    (h : ArithVal I T (bop (divSym b) a1 a2) r)
    (hkeep : (∀ q, eoToQ a2 = some q → q = 0) → ReadsDiv I ρ (b, a1, a2))
    (ih : (∃ q, eoToQ a2 = some q ∧ q ≠ 0) → ∀ {S : Ty} {x : ℝ}, ArithVal I S a1 x →
      polyVal ρ (getArithPolyNorm compareVars compareVar a1) = x) :
    polyVal ρ (getArithPolyNormDiv compareVars compareVar a1
      (getArithPolyNorm compareVars compareVar a1) a2) = r := by
  unfold getArithPolyNormDiv
  split
  swap
  · rename_i hnone
    rw [polyVal_var]
    exact hkeep (fun q hq => by rw [hnone] at hq; contradiction) h
  rename_i q hq
  split
  · rename_i hne
    obtain ⟨S, x, hx, rfl⟩ := arithVal_div_const hq hne h
    rw [polyVal_mulConst, ih ⟨q, hq, hne⟩ hx]
    simp
  rename_i hz
  rw [polyVal_var]
  refine hkeep (fun q' hq' => ?_) h
  cases hq.symm.trans hq'
  exact not_not.1 hz

/-- The value of the normal form is the value of the term, when the divisions
it keeps are read as they occur. -/
lemma getArithPolyNorm_spec {ρ : Term → ℝ} (hleaf : ReadsLeaves I ρ) :
    ∀ {t : Term} {T : Ty} {r : ℝ}, ArithVal I T t r → (∀ d ∈ opaqueDivs t, ReadsDiv I ρ d) →
      polyVal ρ (getArithPolyNorm compareVars compareVar t) = r := by
  intro t
  induction t using opaqueDivs.induct with
  | case1 a1 ih =>
    intro T r h hdivs
    obtain ⟨x, hx, rfl⟩ := arithVal_op1_inv (s := .uminus) rfl rfl (by simp) h
    rw [getArithPolyNorm, polyVal_neg, ih hx (by simpa [opaqueDivs] using hdivs)]
  | case2 a1 a2 ih1 ih2 =>
    intro T r h hdivs
    obtain ⟨x, y, hx, hy, rfl⟩ := arithVal_op2_inv (s := .plus) rfl rfl (by simp) h
    rw [opaqueDivs] at hdivs
    rw [getArithPolyNorm, polyVal_add, ih1 hx fun d hd => hdivs d (by simp [hd]),
      ih2 hy fun d hd => hdivs d (by simp [hd])]
  | case3 a1 a2 ih1 ih2 =>
    intro T r h hdivs
    obtain ⟨x, y, hx, hy, rfl⟩ := arithVal_op2_inv (s := .minus) rfl rfl (by simp) h
    rw [opaqueDivs] at hdivs
    rw [getArithPolyNorm, polyVal_add, polyVal_neg, ih1 hx fun d hd => hdivs d (by simp [hd]),
      ih2 hy fun d hd => hdivs d (by simp [hd])]
    ring
  | case4 a1 a2 ih1 ih2 =>
    intro T r h hdivs
    obtain ⟨x, y, hx, hy, rfl⟩ := arithVal_times_inv h
    rw [opaqueDivs] at hdivs
    rw [getArithPolyNorm, polyVal_mul, ih1 hx fun d hd => hdivs d (by simp [hd]),
      ih2 hy fun d hd => hdivs d (by simp [hd])]
  | case5 a1 a2 q hq hne ih =>
    intro T r h hdivs
    simp only [opaqueDivs, hq, if_pos hne] at hdivs
    rw [getArithPolyNorm]
    refine getArithPolyNormDiv_spec compareVars compareVar (b := false) h (fun hz => absurd (hz q hq) hne) ?_
    exact fun _ _ _ hx => ih hx hdivs
  | case6 a1 a2 q hq hz =>
    intro T r h hdivs
    simp only [opaqueDivs, hq, if_neg hz] at hdivs
    rw [getArithPolyNorm]
    refine getArithPolyNormDiv_spec compareVars compareVar (b := false) h (fun _ => hdivs _ (by simp)) ?_
    rintro ⟨q', hq', hne⟩
    cases hq.symm.trans hq'
    exact absurd hne hz
  | case7 a1 a2 hnone =>
    intro T r h hdivs
    simp only [opaqueDivs, hnone] at hdivs
    rw [getArithPolyNorm]
    refine getArithPolyNormDiv_spec compareVars compareVar (b := false) h (fun _ => hdivs _ (by simp)) ?_
    rintro ⟨q', hq', -⟩
    rw [hnone] at hq'
    contradiction
  | case8 a1 a2 q hq hne ih =>
    intro T r h hdivs
    simp only [opaqueDivs, hq, if_pos hne] at hdivs
    rw [getArithPolyNorm]
    refine getArithPolyNormDiv_spec compareVars compareVar (b := true) h (fun hz => absurd (hz q hq) hne) ?_
    exact fun _ _ _ hx => ih hx hdivs
  | case9 a1 a2 q hq hz =>
    intro T r h hdivs
    simp only [opaqueDivs, hq, if_neg hz] at hdivs
    rw [getArithPolyNorm]
    refine getArithPolyNormDiv_spec compareVars compareVar (b := true) h (fun _ => hdivs _ (by simp)) ?_
    rintro ⟨q', hq', hne⟩
    cases hq.symm.trans hq'
    exact absurd hne hz
  | case10 a1 a2 hnone =>
    intro T r h hdivs
    simp only [opaqueDivs, hnone] at hdivs
    rw [getArithPolyNorm]
    refine getArithPolyNormDiv_spec compareVars compareVar (b := true) h (fun _ => hdivs _ (by simp)) ?_
    rintro ⟨q', hq', -⟩
    rw [hnone] at hq'
    contradiction
  | case11 a1 ih =>
    intro T r h hdivs
    obtain ⟨S, hx⟩ := arithVal_toReal_inv h
    rw [getArithPolyNorm, ih hx (by simpa [opaqueDivs] using hdivs)]
  | case12 a h1 h2 h3 h4 h5 h6 h7 =>
    intro T r h _
    rw [getArithPolyNorm]
    · split
      · rename_i q hq
        rw [polyVal_const, arithVal_of_eoToQ hq h]
      · rw [polyVal_var]
        exact hleaf h fun x y hxy => h5 x y hxy
    all_goals assumption

/-! ## Bit-vector polynomials -/

/-- Integer coefficients, modulo `2 ^ n`. -/
def bvCoeff (n : Nat) : CoeffMap Rat (BitVec n) where
  dom := (Int.castRingHom Rat).range
  map := fun c => ((⌊c⌋ : Int) : BitVec n)
  map_zero := by simp
  map_neg := by
    rintro _ ⟨m, rfl⟩
    simp only [eq_intCast, ← Int.cast_neg, Int.floor_intCast]
  map_add := by
    rintro _ _ ⟨m, rfl⟩ ⟨k, rfl⟩
    simp only [eq_intCast, ← Int.cast_add, Int.floor_intCast]
  map_mul := by
    rintro _ _ ⟨m, rfl⟩ ⟨k, rfl⟩
    simp only [eq_intCast, ← Int.cast_mul, Int.floor_intCast]

lemma intCast_mem_bvCoeff {n : Nat} (z : Int) : (z : Rat) ∈ (bvCoeff n).dom := ⟨z, rfl⟩

lemma bvCoeff_intCast {n : Nat} (z : Int) : (bvCoeff n).map z = (z : BitVec n) := by
  simp [bvCoeff]

lemma intCast_emod_two_pow (n : Nat) (z : Int) : ((z % 2 ^ n : Int) : BitVec n) = z := by
  apply BitVec.eq_of_toInt_eq
  have h := Int.emod_bmod z (2 ^ n)
  push_cast at h
  simpa using h

section BitVectors

variable {n : Nat} (ρ : Term → BitVec n)

lemma polyModCoeffs_spec {p : Polynomial} (hp : InDom (bvCoeff n) p) :
    eval (bvCoeff n) ρ (polyModCoeffs (2 ^ n) p) = eval (bvCoeff n) ρ p := by
  induction p with
  | nil => rfl
  | cons m p ih =>
    obtain ⟨a, c⟩ := m
    obtain ⟨⟨z, rfl⟩, hp'⟩ := SparsePoly.inDom_cons.1 hp
    have hz : (bvCoeff n).map z = ((z % 2 ^ n : Int) : BitVec n) := by
      rw [bvCoeff_intCast, intCast_emod_two_pow]
    simp only [polyModCoeffs, eq_intCast, Int.floor_intCast]
    split
    · rename_i h0
      rw [ih hp', SparsePoly.eval_cons, evalMon]
      simp only [hz, h0]
      simp
    · rw [SparsePoly.eval_cons, SparsePoly.eval_cons, ih hp', evalMon, evalMon]
      simp only [hz, bvCoeff_intCast]

/-- Every term of width `n` is read as its value. -/
def ReadsBv (I : Interp Γ) (ρ : Term → BitVec n) : Prop :=
  ∀ {a : Term} {v : BitVec n}, value I a = some (Val.bitvec v) → ρ a = v

variable {ρ}

variable {v : BitVec n}

lemma polyVar_spec {t : Term} (hv : ρ t = v) :
    InDom (bvCoeff n) (polyVar t) ∧ eval (bvCoeff n) ρ (polyVar t) = v := by
  refine ⟨?_, ?_⟩
  · simp [polyVar]
  · have h1 : (bvCoeff n).map 1 = 1 := by simpa using bvCoeff_intCast (n := n) 1
    simp [polyVar, evalMon, h1, hv]

lemma polyConst_spec (z : Nat) :
    InDom (bvCoeff n) (polyConst z) ∧ eval (bvCoeff n) ρ (polyConst z) = (z : BitVec n) := by
  have hz : (bvCoeff n).map (z : Rat) = ((z : Int) : BitVec n) := bvCoeff_intCast (z : Int)
  have hmem : (z : Rat) ∈ (bvCoeff n).dom := intCast_mem_bvCoeff (z : Int)
  unfold polyConst
  split
  · rename_i h0
    have : z = 0 := by exact_mod_cast h0
    subst this
    simp
  refine ⟨SparsePoly.inDom_cons.2 ⟨hmem, SparsePoly.inDom_nil⟩, ?_⟩
  rw [SparsePoly.eval_cons, evalMon]
  simp only [hz]
  simp

lemma bvVal_op1_inv {s : Sym} {f : ∀ w, BitVec w → BitVec w} (hs : s.arity = 1)
    (hv : symVal I s = vBv1 fun w x => Val.bitvec (f w x)) {a : Term}
    (h : value I (uop s a) = some (Val.bitvec v)) :
    ∃ x : BitVec n, value I a = some (Val.bitvec x) ∧ v = f n x := by
  obtain ⟨va, ha, h⟩ := value_uop_inv I hs h
  rw [hv] at h
  obtain ⟨w, x, heq, hr⟩ := vBv1_inv h
  cases heq
  obtain rfl := Val.width_eq hr
  exact ⟨x, ha, Val.bitvec_inj.1 hr⟩

lemma bvVal_op2_inv {s : Sym} {f : ∀ w, BitVec w → BitVec w → BitVec w} (hs : s.arity = 2)
    (hv : symVal I s = vBv2 fun w x y => Val.bitvec (f w x y)) {a b : Term}
    (h : value I (bop s a b) = some (Val.bitvec v)) :
    ∃ x y : BitVec n, value I a = some (Val.bitvec x) ∧ value I b = some (Val.bitvec y) ∧
      v = f n x y := by
  obtain ⟨va, vb, ha, hb, h⟩ := value_bop_inv I hs h
  rw [hv] at h
  obtain ⟨w, x, y, heq, hr⟩ := vBv2_inv h
  cases heq
  obtain rfl := Val.width_eq hr
  exact ⟨x, y, ha, hb, Val.bitvec_inj.1 hr⟩

/-- The value of the normal form, before its coefficients are reduced, is the
value of the term. -/
lemma getBvPolyNormRec_spec (hρ : ReadsBv I ρ) :
    ∀ {t : Term} {v : BitVec n}, value I t = some (Val.bitvec v) →
      InDom (bvCoeff n) (getBvPolyNormRec compareVars compareVar t) ∧
      eval (bvCoeff n) ρ (getBvPolyNormRec compareVars compareVar t) = v := by
  intro t
  induction t using getBvPolyNormRec.induct with
  | case1 b1 ih =>
    intro v h
    obtain ⟨x, hx, rfl⟩ := bvVal_op1_inv (s := .bvneg) (f := fun _ x => -x) rfl rfl h
    obtain ⟨hdom, heval⟩ := ih hx
    rw [getBvPolyNormRec, ← heval]
    exact SparsePoly.neg_spec ρ hdom
  | case2 b1 b2 ih1 ih2 =>
    intro v h
    obtain ⟨x, y, hx, hy, rfl⟩ := bvVal_op2_inv (s := .bvadd) (f := fun _ x y => x + y) rfl rfl h
    obtain ⟨hdom1, heval1⟩ := ih1 hx
    obtain ⟨hdom2, heval2⟩ := ih2 hy
    rw [getBvPolyNormRec, ← heval1, ← heval2]
    exact SparsePoly.add_spec compareVars ρ _ _ hdom1 hdom2
  | case3 b1 b2 ih1 ih2 =>
    intro v h
    obtain ⟨x, y, hx, hy, rfl⟩ := bvVal_op2_inv (s := .bvsub) (f := fun _ x y => x - y) rfl rfl h
    obtain ⟨hdom1, heval1⟩ := ih1 hx
    obtain ⟨hdom2, heval2⟩ := ih2 hy
    obtain ⟨hdom2', heval2'⟩ := SparsePoly.neg_spec ρ hdom2
    obtain ⟨hdom, heval⟩ := SparsePoly.add_spec compareVars ρ _ _ hdom1 hdom2'
    rw [getBvPolyNormRec]
    refine ⟨hdom, ?_⟩
    rw [heval1, heval2', heval2, ← sub_eq_add_neg] at heval
    exact heval
  | case4 b1 b2 ih1 ih2 =>
    intro v h
    obtain ⟨x, y, hx, hy, rfl⟩ := bvVal_op2_inv (s := .bvmul) (f := fun _ x y => x * y) rfl rfl h
    obtain ⟨hdom1, heval1⟩ := ih1 hx
    obtain ⟨hdom2, heval2⟩ := ih2 hy
    rw [getBvPolyNormRec, ← heval1, ← heval2]
    exact SparsePoly.mul_spec compareVars compareVar ρ hdom1 hdom2
  | case5 w b =>
    intro v h
    rw [value_bin, Option.some.injEq] at h
    obtain rfl := Val.width_eq h
    obtain rfl := Val.bitvec_inj.1 h
    rw [getBvPolyNormRec]
    have := polyConst_spec (n := w) (ρ := ρ) b.toNat
    simpa using this
  | case6 b h1 h2 h3 h4 h5 =>
    intro v h
    rw [getBvPolyNormRec]
    · exact polyVar_spec (hρ h)
    all_goals assumption

end BitVectors

/-- The value of every term of width `n`, and zero elsewhere. -/
noncomputable def bvRead (I : Interp Γ) (n : Nat) (t : Term) : BitVec n :=
  match value I t with
  | some ⟨.bitvec w, x⟩ => if h : w = n then h ▸ x else 0
  | _ => 0

lemma readsBv_bvRead {n : Nat} : ReadsBv I (bvRead I n) := by
  intro a v h
  unfold bvRead
  rw [h]
  simp

variable {a b : Term}

lemma value_eq_of_getBvPolyNorm {n : Nat} (ha : typeof Γ a = some (.bitvec n))
    (hb : typeof Γ b = some (.bitvec n))
    (h : getBvPolyNorm compareVars compareVar (2 ^ n) a =
      getBvPolyNorm compareVars compareVar (2 ^ n) b) : value I a = value I b := by
  obtain ⟨x, hx⟩ := value_of_typeof I ha
  obtain ⟨y, hy⟩ := value_of_typeof I hb
  obtain ⟨hdomx, hevalx⟩ := getBvPolyNormRec_spec compareVars compareVar readsBv_bvRead hx
  obtain ⟨hdomy, hevaly⟩ := getBvPolyNormRec_spec compareVars compareVar readsBv_bvRead hy
  have hxy : x = y := by
    rw [← hevalx, ← hevaly, ← polyModCoeffs_spec _ hdomx, ← polyModCoeffs_spec _ hdomy]
    exact congrArg (eval (bvCoeff n) (bvRead I n)) h
  rw [hx, hy, hxy]

/-! ## Clashing divisions -/

/-- No two terms are divided both by `/` and by `/_total`, unless the results
agree in every interpretation. -/
def NoClash (Γ : Nat → Ty) (D : Set (Bool × Term × Term)) : Prop :=
  ∀ x y, (false, x, y) ∈ D → (true, x, y) ∈ D → typeof Γ (bop .qdiv x y) = some .real →
    ∀ I : Interp Γ, value I (bop .qdiv x y) = value I (bop .qdivTotal x y)

noncomputable def numVal {U : Nat → Type} : Option (Val U) → ℝ
  | some ⟨.int, z⟩ => ((show Int from z) : ℝ)
  | some ⟨.real, r⟩ => r
  | _ => 0

lemma numVal_of_arithVal {a : Term} (h : ArithVal I T a r) : numVal (value I a) = r := by
  rcases h with ⟨-, z, h, rfl⟩ | ⟨-, h⟩
  · rw [h]
    rfl
  · rw [h]
    rfl

open Classical in
/-- Read a variable as its value, except that `(/ x y)` is read as the total
division where that is the one that occurs. -/
noncomputable def divRead (I : Interp Γ) (D : Set (Bool × Term × Term)) : Term → ℝ
  | .app (.app (.sym .qdiv) x) y =>
    if (true, x, y) ∈ D then numVal (value I (bop .qdivTotal x y))
    else numVal (value I (bop .qdiv x y))
  | t => numVal (value I t)

lemma readsLeaves_divRead (D : Set (Bool × Term × Term)) : ReadsLeaves I (divRead I D) := by
  intro a S s h hne
  unfold divRead
  split
  · rename_i x y
    exact absurd rfl (hne x y)
  · exact numVal_of_arithVal h

variable {D : Set (Bool × Term × Term)}

lemma readsDiv_divRead (hD : NoClash Γ D) {d : Bool × Term × Term} (hd : d ∈ D)
    (hty : typeof Γ (bop .qdiv d.2.1 d.2.2) = some .real) : ReadsDiv I (divRead I D) d := by
  obtain ⟨b, x, y⟩ := d
  intro S s h
  simp only [divRead]
  by_cases htotal : (true, x, y) ∈ D
  · rw [if_pos htotal]
    cases b with
    | false => rw [← hD x y hd htotal hty I]; exact numVal_of_arithVal h
    | true => exact numVal_of_arithVal h
  rw [if_neg htotal]
  cases b with
  | false => exact numVal_of_arithVal h
  | true => exact absurd hd htotal

private lemma typeof_qdiv_of_total {x y : Term}
    (h : typeof Γ (bop .qdivTotal x y) = some T) : typeof Γ (bop .qdiv x y) = some .real := by
  obtain ⟨S, -, -, -, rfl⟩ := typeof_arith2_inv (R := fun _ => .real) rfl rfl h
  rw [typeof_bop Γ rfl] at h ⊢
  exact h

/-- The divisions in a well-typed term are well typed. -/
lemma typeof_opaqueDivs : ∀ {t : Term} {T : Ty}, typeof Γ t = some T →
    ∀ d ∈ opaqueDivs t, typeof Γ (bop .qdiv d.2.1 d.2.2) = some .real := by
  intro t
  induction t using opaqueDivs.induct with
  | case1 a1 ih =>
    intro T h d hd
    rw [opaqueDivs] at hd
    rw [typeof_uop Γ rfl] at h
    obtain ⟨S, hS, _⟩ := bind_inv h
    exact ih hS d hd
  | case2 a1 a2 ih1 ih2 =>
    intro T h d hd
    rw [opaqueDivs] at hd
    obtain ⟨S, h1, h2, _⟩ := typeof_arith2_inv (R := id) rfl rfl h
    rcases List.mem_append.1 hd with hd | hd
    · exact ih1 h1 d hd
    · exact ih2 h2 d hd
  | case3 a1 a2 ih1 ih2 =>
    intro T h d hd
    rw [opaqueDivs] at hd
    obtain ⟨S, h1, h2, _⟩ := typeof_arith2_inv (R := id) rfl rfl h
    rcases List.mem_append.1 hd with hd | hd
    · exact ih1 h1 d hd
    · exact ih2 h2 d hd
  | case4 a1 a2 ih1 ih2 =>
    intro T h d hd
    rw [opaqueDivs] at hd
    obtain ⟨S, h1, h2, _⟩ := typeof_arith2_inv (R := id) rfl rfl h
    rcases List.mem_append.1 hd with hd | hd
    · exact ih1 h1 d hd
    · exact ih2 h2 d hd
  | case5 a1 a2 q hq hne ih =>
    intro T h d hd
    simp only [opaqueDivs, hq, if_pos hne] at hd
    obtain ⟨S, h1, _⟩ := typeof_arith2_inv (R := fun _ => .real) rfl rfl h
    exact ih h1 d hd
  | case6 a1 a2 q hq hz =>
    intro T h d hd
    simp only [opaqueDivs, hq, if_neg hz, List.mem_singleton] at hd
    obtain ⟨S, -, -, -, rfl⟩ := typeof_arith2_inv (R := fun _ => .real) rfl rfl h
    rw [hd]
    exact h
  | case7 a1 a2 hnone =>
    intro T h d hd
    simp only [opaqueDivs, hnone, List.mem_singleton] at hd
    obtain ⟨S, -, -, -, rfl⟩ := typeof_arith2_inv (R := fun _ => .real) rfl rfl h
    rw [hd]
    exact h
  | case8 a1 a2 q hq hne ih =>
    intro T h d hd
    simp only [opaqueDivs, hq, if_pos hne] at hd
    obtain ⟨S, h1, _⟩ := typeof_arith2_inv (R := fun _ => .real) rfl rfl h
    exact ih h1 d hd
  | case9 a1 a2 q hq hz =>
    intro T h d hd
    simp only [opaqueDivs, hq, if_neg hz, List.mem_singleton] at hd
    rw [hd]
    exact typeof_qdiv_of_total h
  | case10 a1 a2 hnone =>
    intro T h d hd
    simp only [opaqueDivs, hnone, List.mem_singleton] at hd
    rw [hd]
    exact typeof_qdiv_of_total h
  | case11 a1 ih =>
    intro T h d hd
    rw [opaqueDivs] at hd
    rw [typeof_uop Γ rfl] at h
    obtain ⟨S, hS, _⟩ := bind_inv h
    exact ih hS d hd
  | case12 a h1 h2 h3 h4 h5 h6 h7 =>
    intro T h d hd
    rw [opaqueDivs] at hd
    · simp at hd
    all_goals assumption

/-- Terms with equal normal forms have equal values, when divisions do not
clash. -/
lemma arithVal_eq_of_norm (hD : NoClash Γ D)
    {Ta Tb : Ty} {r s : ℝ} (ha : typeof Γ a = some Ta) (hb : typeof Γ b = some Tb)
    (hda : ∀ d ∈ opaqueDivs a, d ∈ D) (hdb : ∀ d ∈ opaqueDivs b, d ∈ D)
    (h : getArithPolyNorm compareVars compareVar a = getArithPolyNorm compareVars compareVar b)
    (hr : ArithVal I Ta a r) (hs : ArithVal I Tb b s) : r = s := by
  have hva := getArithPolyNorm_spec compareVars compareVar (readsLeaves_divRead (I := I) D) hr
    fun d hd => readsDiv_divRead hD (hda d hd) (typeof_opaqueDivs ha d hd)
  have hvb := getArithPolyNorm_spec compareVars compareVar (readsLeaves_divRead (I := I) D) hs
    fun d hd => readsDiv_divRead hD (hdb d hd) (typeof_opaqueDivs hb d hd)
  rw [← hva, ← hvb, h]

lemma value_eq_of_arithVal (ha : ArithVal I T a r)
    (hb : ArithVal I T b r) : value I a = value I b := by
  rcases ha with ⟨rfl, z, ha, rfl⟩ | ⟨rfl, ha⟩
  · rw [ha, hb.toInt]
  rcases hb with ⟨h, -⟩ | ⟨-, hb⟩
  · contradiction
  · rw [ha, hb]

private lemma arith_of_arith1 {s : Sym} {R : Ty → Ty} (hs : s.arity = 1)
    (hty : symTy s = tyArith1 R) (hR : ∀ T, T = .int ∨ T = .real → R T = .int ∨ R T = .real)
    {a : Term} {T : Ty} (h : typeof Γ (uop s a) = some T) : T = .int ∨ T = .real := by
  rw [typeof_uop Γ hs, hty] at h
  obtain ⟨A, _, hsym⟩ := bind_inv h
  obtain ⟨t, S, -, hS, rfl⟩ := tyArith1_inv hsym
  exact hR S hS

private lemma arith_of_arith2 {s : Sym} {R : Ty → Ty} (hs : s.arity = 2)
    (hty : symTy s = tyArith2 R) (hR : ∀ T, T = .int ∨ T = .real → R T = .int ∨ R T = .real)
    {a b : Term} {T : Ty} (h : typeof Γ (bop s a b) = some T) : T = .int ∨ T = .real := by
  obtain ⟨S, -, -, hS, rfl⟩ := typeof_arith2_inv hs hty h
  exact hR S hS

lemma getArithPolyNorm_of_not_arith {a : Term} (h : typeof Γ a = some T)
    (hT : ¬ (T = .int ∨ T = .real)) : getArithPolyNorm compareVars compareVar a = polyVar a := by
  fun_cases getArithPolyNorm compareVars compareVar a with
  | case1 a1 => exact absurd (arith_of_arith1 (R := id) rfl rfl (fun _ hA => hA) h) hT
  | case2 a1 a2 => exact absurd (arith_of_arith2 (R := id) rfl rfl (fun _ hA => hA) h) hT
  | case3 a1 a2 => exact absurd (arith_of_arith2 (R := id) rfl rfl (fun _ hA => hA) h) hT
  | case4 a1 a2 => exact absurd (arith_of_arith2 (R := id) rfl rfl (fun _ hA => hA) h) hT
  | case5 a1 a2 =>
    exact absurd (arith_of_arith2 (R := fun _ => .real) rfl rfl (fun _ _ => .inr rfl) h) hT
  | case6 a1 a2 =>
    exact absurd (arith_of_arith2 (R := fun _ => .real) rfl rfl (fun _ _ => .inr rfl) h) hT
  | case7 a1 => exact absurd (arith_of_arith1 (R := fun _ => .real) rfl rfl (fun _ _ => .inr rfl) h) hT
  | case8 _ _ _ _ _ _ _ _ q hq =>
    refine absurd ?_ hT
    unfold eoToQ at hq
    split at hq
    · exact .inl (some.inj h).symm
    · exact .inr (some.inj h).symm
    · cases hq
  | case9 => rfl

/-! ## Scaled relations -/

lemma eoSgn_spec {c : Term} {x : ℝ} {s : Int} (hs : eoSgn c = some s)
    (hc : ArithVal I T c x) : (0 < s ↔ 0 < x) ∧ (s < 0 ↔ x < 0) := by
  cases c with
  | num z =>
    obtain ⟨-, rfl⟩ := (arithVal_int (value_num I z)).unique hc
    cases hs
    rw [Int.cast_pos, Int.cast_lt_zero]
    omega
  | rat q =>
    obtain ⟨-, rfl⟩ := (arithVal_real (value_rat I q)).unique hc
    cases hs
    rw [Rat.cast_pos, Rat.cast_lt_zero]
    grind
  | _ => simp [eoSgn] at hs

lemma relHolds_sub {r : Sym} (x y : ℝ) : relHolds r x y ↔ relHolds r (x - y) 0 := by
  cases r <;> simp [relHolds, sub_eq_zero]

private lemma relHolds_mul_pos_zero {r : Sym} {c : ℝ} (hc : 0 < c) (x : ℝ) :
    relHolds r (c * x) 0 ↔ relHolds r x 0 := by
  have hlt : c * x < 0 ↔ x < 0 := by rw [mul_comm, mul_neg_iff]; grind
  have hpos : 0 < c * x ↔ 0 < x := mul_pos_iff_of_pos_left hc
  have heq : c * x = 0 ↔ x = 0 := mul_eq_zero_iff_left hc.ne'
  cases r <;> simp only [relHolds, gt_iff_lt, ge_iff_le, hlt, hpos, heq, ← not_lt]

/-- Scaling by two numbers that are not zero keeps an equation, and keeps the
other relations if both have the same sign. -/
lemma relHolds_scale {r : Sym} {c d : ℝ} (hc : c ≠ 0) (hd : d ≠ 0)
    (hsign : r = .eq ∨ (0 < c ↔ 0 < d)) {x y : ℝ} (h : c * x = d * y) :
    relHolds r x 0 ↔ relHolds r y 0 := by
  rcases hsign with rfl | hsign
  · show x = 0 ↔ y = 0
    rw [← mul_eq_zero_iff_left hc, h, mul_eq_zero_iff_left hd]
  rcases lt_or_gt_of_ne hc with hneg | hpos
  · have hneg' : d < 0 := lt_of_le_of_ne (not_lt.1 fun hd' => hneg.not_gt (hsign.2 hd')) hd
    rw [← relHolds_mul_pos_zero (neg_pos.2 hneg), ← relHolds_mul_pos_zero (neg_pos.2 hneg') y,
      neg_mul, neg_mul, h]
  · rw [← relHolds_mul_pos_zero hpos, h, relHolds_mul_pos_zero (hsign.1 hpos)]

/-- What the test on the two scaling factors establishes. -/
lemma isPolyNormRelConsts_spec {r cx cy : Term} {c d : ℝ}
    (h : isPolyNormRelConsts r cx cy = some true) (hc : ArithVal I T cx c)
    (hd : ArithVal I T cy d) :
    c ≠ 0 ∧ d ≠ 0 ∧ ∃ s, r = .sym s ∧ IsRel s ∧ (s = .eq ∨ (0 < c ↔ 0 < d)) := by
  obtain ⟨qx, hqx, h⟩ := bind_inv h
  obtain ⟨qy, hqy, h⟩ := bind_inv h
  obtain ⟨b, hb, h⟩ := map_inv h
  obtain rfl := arithVal_of_eoToQ hqx hc
  obtain rfl := arithVal_of_eoToQ hqy hd
  simp only [Bool.and_eq_true, Bool.not_eq_true', Bool.or_eq_false_iff, decide_eq_false_iff_not] at h
  obtain ⟨⟨hx, hy⟩, rfl⟩ := h
  refine ⟨Rat.cast_ne_zero.2 hx, Rat.cast_ne_zero.2 hy, ?_⟩
  have hsgn : ((eoSgn cx).bind fun s => (eoSgn cy).map fun s' => decide (s = s')) = some true →
      ((0 : ℝ) < qx ↔ (0 : ℝ) < qy) := by
    intro hs
    obtain ⟨s, hs, h⟩ := bind_inv hs
    obtain ⟨s', hs', h⟩ := map_inv h
    obtain rfl := of_decide_eq_true h
    rw [← (eoSgn_spec hs hc).1, (eoSgn_spec hs' hd).1]
  unfold isPolyNormRelConstsRel at hb
  split at hb
  · exact ⟨.lt, rfl, by simp [IsRel], .inr (hsgn hb)⟩
  · exact ⟨.leq, rfl, by simp [IsRel], .inr (hsgn hb)⟩
  · exact ⟨.geq, rfl, by simp [IsRel], .inr (hsgn hb)⟩
  · exact ⟨.gt, rfl, by simp [IsRel], .inr (hsgn hb)⟩
  · exact ⟨.eq, rfl, by simp [IsRel], .inl rfl⟩
  · cases hb

/-- A term that is `(- a b)`, possibly below `to_real`, is the difference of two
terms of one type. -/
lemma isEqMaybeToReal_minus {x a b : Term} {U : Ty}
    (h : isEqMaybeToReal x (bop .minus a b) = some true) (hx : ArithVal I U x r) :
    ∃ T p q, ArithVal I T a p ∧ ArithVal I T b q ∧ r = p - q := by
  unfold isEqMaybeToReal at h
  split at h
  swap
  · cases h
  rename_i hor
  rcases hor with rfl | rfl
  · obtain ⟨p, q, hp, hq, rfl⟩ := arithVal_op2_inv (s := .minus) rfl rfl (by simp) hx
    exact ⟨U, p, q, hp, hq, rfl⟩
  obtain ⟨S, hS⟩ := arithVal_toReal_inv hx
  obtain ⟨p, q, hp, hq, rfl⟩ := arithVal_op2_inv (s := .minus) rfl rfl (by simp) hS
  exact ⟨S, p, q, hp, hq, rfl⟩

lemma arithVal_scaled_inv {c x one : Term} {U : Ty} (hone : eoToQ one = some 1)
    (h : ArithVal I U (bop .times c (bop .times x one)) r) :
    ∃ k p, ArithVal I U c k ∧ ArithVal I U x p ∧ r = k * p := by
  obtain ⟨k, y, hk, hy, rfl⟩ := arithVal_times_inv h
  obtain ⟨p, o, hp, ho, rfl⟩ := arithVal_times_inv hy
  rw [arithVal_of_eoToQ hone ho]
  exact ⟨k, p, hk, hp, by simp⟩

private lemma arithVal_of_times {v : Val I.U}
    (h : value I (bop .times a b) = some v) : ∃ T r, ArithVal I T (bop .times a b) r := by
  obtain ⟨va, vb, ha, hb, hval⟩ := value_bop_inv I rfl h
  have hval' : vArith2 (fun x y : Int => x * y) (fun x y : ℝ => x * y) [va, vb] = some v := hval
  rcases vArith2_inv hval' with ⟨m, n, heq, -⟩ | ⟨m, n, heq, -⟩
  · cases heq
    exact ⟨_, _, arithVal_times (arithVal_int ha) (arithVal_int hb)⟩
  · cases heq
    exact ⟨_, _, arithVal_times (arithVal_real ha) (arithVal_real hb)⟩

/-- Two equal products have equal numbers. -/
lemma arithVal_of_sat_times_eq {a b a' b' : Term}
    (h : Sat I (bop .eq (bop .times a b) (bop .times a' b'))) :
    ∃ U r, ArithVal I U (bop .times a b) r ∧ ArithVal I U (bop .times a' b') r := by
  obtain ⟨v, hv, hv'⟩ := sat_eq.1 h
  obtain ⟨U, r, hr⟩ := arithVal_of_times hv
  refine ⟨U, r, hr, ?_⟩
  unfold ArithVal at hr ⊢
  rwa [hv', ← hv]

lemma arithPolyNormRel_sound {P F c : Term} (h : arithPolyNormRel P F = some c)
    (hP : Sat I P) : Sat I c := by
  unfold arithPolyNormRel at h
  split at h
  swap
  · cases h
  rename_i cx x one cy y one' r x1 x2 r' y1 y2
  split at h
  swap
  · cases h
  rename_i heq
  obtain ⟨rfl, rfl⟩ := heq
  obtain ⟨hone, h⟩ := eoRequires_eq_some.1 h
  obtain ⟨hconsts, h⟩ := eoRequires_eq_some.1 h
  obtain ⟨hx, h⟩ := eoRequires_eq_some.1 h
  obtain ⟨hy, h⟩ := eoRequires_eq_some.1 h
  cases h
  rw [decide_eq_true_iff] at hone hconsts hx hy
  obtain ⟨U, r, hl, hr⟩ := arithVal_of_sat_times_eq hP
  obtain ⟨k, p, hk, hp, rfl⟩ := arithVal_scaled_inv hone hl
  obtain ⟨l, q, hl, hq, hscale⟩ := arithVal_scaled_inv hone hr
  obtain ⟨hk0, hl0, s, rfl, hs, hsign⟩ := isPolyNormRelConsts_spec hconsts hk hl
  obtain ⟨V, u1, u2, hu1, hu2, rfl⟩ := isEqMaybeToReal_minus hx hp
  obtain ⟨W, v1, v2, hv1, hv2, rfl⟩ := isEqMaybeToReal_minus hy hq
  have hrel : relHolds s u1 u2 ↔ relHolds s v1 v2 := by
    rw [relHolds_sub, relHolds_scale hk0 hl0 hsign hscale, ← relHolds_sub]
  exact (boolVal_eq (boolVal_isRel hs hu1 hu2) (boolVal_isRel hs hv1 hv2)).sat.2 hrel

/-! ## When normalization is sound -/

/-- The quotients of `/` and `/_total` agree where the divisor is a constant
other than zero. -/
lemma value_div_eq_of_const {x y : Term} {q : Rat} (hq : eoToQ y = some q) (hne : q ≠ 0)
    (hty : typeof Γ (bop .qdiv x y) = some .real) :
    value I (bop .qdiv x y) = value I (bop .qdivTotal x y) := by
  have hty' : typeof Γ (bop .qdivTotal x y) = some .real := by
    rw [typeof_bop Γ rfl] at hty ⊢
    exact hty
  obtain ⟨r, hr⟩ := arithVal_of_typeof (I := I) hty (.inr rfl)
  obtain ⟨s, hs⟩ := arithVal_of_typeof (I := I) hty' (.inr rfl)
  obtain ⟨S, a, ha, rfl⟩ := arithVal_div_const (b := false) hq hne hr
  obtain ⟨S', a', ha', rfl⟩ := arithVal_div_const (b := true) hq hne hs
  obtain ⟨-, rfl⟩ := ha.unique ha'
  exact value_eq_of_arithVal hr hs

/-- The divisions of `D` are those that `$get_arith_poly_norm` may keep as
variables; equal polynomials then mean equal numbers. -/
def PolyNormSound (Γ : Nat → Ty) (D : Set (Bool × Term × Term)) : Prop :=
  ∀ a b Ta Tb, typeof Γ a = some Ta → typeof Γ b = some Tb → (Ta = .int ∨ Ta = .real) →
    (Tb = .int ∨ Tb = .real) → (∀ d ∈ opaqueDivs a ++ opaqueDivs b, d ∈ D) →
    getArithPolyNorm compareVars compareVar a = getArithPolyNorm compareVars compareVar b →
    ∀ I : Interp Γ, numVal (value I a) = numVal (value I b)

/-- The rule `arith_poly_norm` concludes true equations. -/
def ArithPolyNormSound (Γ : Nat → Ty) (D : Set (Bool × Term × Term)) : Prop :=
  ∀ a b c, (∀ d ∈ opaqueDivs a ++ opaqueDivs b, d ∈ D) →
    arithPolyNorm compareVars compareVar (bop .eq a b) = some c → typeof Γ c = some .bool →
    ∀ I : Interp Γ, Sat I c

lemma polyNormSound_of_noClash (hD : NoClash Γ D) : PolyNormSound compareVars compareVar Γ D := by
  intro a b Ta Tb ha hb hTa hTb hdivs hnorm I
  obtain ⟨r, hr⟩ := arithVal_of_typeof (I := I) ha hTa
  obtain ⟨s, hs⟩ := arithVal_of_typeof (I := I) hb hTb
  rw [numVal_of_arithVal hr, numVal_of_arithVal hs]
  exact arithVal_eq_of_norm compareVars compareVar hD ha hb
    (fun d hd => hdivs d (List.mem_append_left _ hd))
    (fun d hd => hdivs d (List.mem_append_right _ hd)) hnorm hr hs

lemma arithPolyNormSound_of_polyNormSound (h : PolyNormSound compareVars compareVar Γ D) :
    ArithPolyNormSound compareVars compareVar Γ D := by
  intro a b c hdivs hrule hc I
  obtain ⟨hnorm, hrule⟩ := eoRequires_eq_some.1 hrule
  rw [decide_eq_true_iff] at hnorm
  cases hrule
  obtain ⟨A, B, ha, hb, hAB⟩ := typeof_bop_inv rfl hc
  obtain ⟨_, _, _, heq, _⟩ := tyEq_inv (show tyEq [(a, A), (b, B)] = some _ from hAB)
  cases heq
  by_cases hA : A = .int ∨ A = .real
  · obtain ⟨r, hr⟩ := arithVal_of_typeof (I := I) ha hA
    obtain ⟨s, hs⟩ := arithVal_of_typeof (I := I) hb hA
    have hrs := h a b A A ha hb hA hA hdivs hnorm I
    rw [numVal_of_arithVal hr, numVal_of_arithVal hs] at hrs
    exact (boolVal_arithEq hr hs).sat.2 hrs
  -- terms of other types are kept as they are, so the two sides are the same term
  rw [getArithPolyNorm_of_not_arith compareVars compareVar ha hA,
    getArithPolyNorm_of_not_arith compareVars compareVar hb hA] at hnorm
  obtain rfl : a = b := by simpa [polyVar] using hnorm
  obtain ⟨v, hv⟩ := value_of_typeof I ha
  exact sat_eq.2 ⟨_, hv, hv⟩

lemma noClash_of_arithPolyNormSound
    (h : ArithPolyNormSound compareVars compareVar Γ D) : NoClash Γ D := by
  intro x y hdiv htotal hty I
  by_cases hconst : ∃ q, eoToQ y = some q ∧ q ≠ 0
  · obtain ⟨q, hq, hne⟩ := hconst
    exact value_div_eq_of_const hq hne hty
  -- both divisions stay opaque, and both are the variable `(/ x y)`
  have hkeep : ∀ d ∈ opaqueDivs (bop .qdiv x y) ++ opaqueDivs (bop .qdivTotal x y), d ∈ D := by
    intro d hd
    simp only [opaqueDivs] at hd
    split at hd
    · rename_i q hq
      rw [if_neg fun hne => hconst ⟨q, hq, hne⟩] at hd
      grind
    · grind
  have hty' : typeof Γ (bop .eq (bop .qdiv x y) (bop .qdivTotal x y)) = some .bool := by
    have htot : typeof Γ (bop .qdivTotal x y) = some .real := by
      rw [typeof_bop Γ rfl] at hty ⊢
      exact hty
    exact typeof_isRel (by simp [IsRel]) (.inr rfl) hty htot
  have hsat := h _ _ _ hkeep (by simp [arithPolyNorm, eoRequires, getArithPolyNorm]) hty' I
  obtain ⟨v, hv, hv'⟩ := sat_eq.1 hsat
  rw [hv, hv']

/-- Polynomial normalization of arithmetic terms, and with it the rule
`arith_poly_norm`, is sound exactly as long as `/` and `/_total` do not
clash.  Normalization of bit-vectors and the rule `arith_poly_norm_rel` are
sound without a condition. -/
theorem poly_norm_sound_iff (D : Set (Bool × Term × Term)) :
    (PolyNormSound compareVars compareVar Γ D ↔ NoClash Γ D) ∧
    (ArithPolyNormSound compareVars compareVar Γ D ↔ NoClash Γ D) ∧
    (∀ (I : Interp Γ) (n : Nat) (a b : Term), typeof Γ a = some (.bitvec n) →
      typeof Γ b = some (.bitvec n) → getBvPolyNorm compareVars compareVar (2 ^ n) a =
        getBvPolyNorm compareVars compareVar (2 ^ n) b → value I a = value I b) ∧
    (∀ (I : Interp Γ) (P F c : Term), arithPolyNormRel P F = some c → Sat I P → Sat I c) := by
  refine ⟨⟨?_, polyNormSound_of_noClash compareVars compareVar⟩, ⟨?_, ?_⟩, ?_, ?_⟩
  · intro h
    exact noClash_of_arithPolyNormSound compareVars compareVar
      (arithPolyNormSound_of_polyNormSound compareVars compareVar h)
  · exact noClash_of_arithPolyNormSound compareVars compareVar
  · intro h
    exact arithPolyNormSound_of_polyNormSound compareVars compareVar
      (polyNormSound_of_noClash compareVars compareVar h)
  · exact fun I n a b ha hb h => value_eq_of_getBvPolyNorm compareVars compareVar ha hb h
  · exact fun I P F c h hP => arithPolyNormRel_sound h hP

/-- Quotients of different terms do not clash. -/
theorem poly_norm_sound_iff_distinct :
    NoClash (fun _ => .real) {(false, .const 0, .const 1), (true, .const 1, .const 0)} ∧
    ArithPolyNormSound (fun _ _ => true) (fun _ _ => true) (fun _ => .real)
      {(false, .const 0, .const 1), (true, .const 1, .const 0)} := by
  have h : NoClash (fun _ => .real) {(false, .const 0, .const 1), (true, .const 1, .const 0)} := by
    intro x y hdiv htotal
    simp at hdiv htotal
    grind
  exact ⟨h, (poly_norm_sound_iff _ _ _).2.1.2 h⟩

private lemma value_real_of_arithVal {a : Term} (h : ArithVal I .real a r) :
    value I a = some (Val.real r) := by
  rcases h with ⟨h, -⟩ | ⟨-, h⟩
  · contradiction
  · exact h

/-- All constants are zero, and so is no quotient by zero. -/
noncomputable def zeroDivisor : Interp (fun _ => .real) where
  U := fun _ => Unit
  const := fun _ => (0 : ℝ)
  divByZero := fun _ => 1
  intDivByZero := fun _ => 0
  modByZero := fun _ => 0

/-- With divisor zero, `/` and `/_total` have one normal form and two values. -/
theorem arithPolyNorm_zero_divisor_unsound :
    getArithPolyNorm (fun _ _ => true) (fun _ _ => true) (bop .qdiv (.const 0) (.const 1)) =
      getArithPolyNorm (fun _ _ => true) (fun _ _ => true) (bop .qdivTotal (.const 0) (.const 1)) ∧
    value zeroDivisor (bop .qdiv (.const 0) (.const 1)) = some (Val.real 1) ∧
    value zeroDivisor (bop .qdivTotal (.const 0) (.const 1)) = some (Val.real 0) ∧
    arithPolyNorm (fun _ _ => true) (fun _ _ => true)
        (bop .eq (bop .qdiv (.const 0) (.const 1)) (bop .qdivTotal (.const 0) (.const 1))) =
      some (bop .eq (bop .qdiv (.const 0) (.const 1)) (bop .qdivTotal (.const 0) (.const 1))) ∧
    ¬ Sat zeroDivisor
      (bop .eq (bop .qdiv (.const 0) (.const 1)) (bop .qdivTotal (.const 0) (.const 1))) := by
  have h0 : ∀ n, ArithVal zeroDivisor .real (.const n) 0 := fun n => .inr ⟨rfl, rfl⟩
  have hdiv := arithVal_qdiv (s := .qdiv) rfl rfl (h0 0) (h0 1)
  have htotal := arithVal_qdiv (s := .qdivTotal) rfl rfl (h0 0) (h0 1)
  have hone : realDiv zeroDivisor 0 0 = 1 := by simp [realDiv, zeroDivisor]
  rw [hone] at hdiv
  rw [div_zero] at htotal
  refine ⟨rfl, ?_, ?_, ?_, ?_⟩
  · exact value_real_of_arithVal hdiv
  · exact value_real_of_arithVal htotal
  · simp [arithPolyNorm, eoRequires, getArithPolyNorm]
  · rw [(boolVal_arithEq hdiv htotal).sat]
    exact one_ne_zero

end EthosCpc
