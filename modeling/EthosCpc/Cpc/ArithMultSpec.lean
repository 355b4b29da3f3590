import EthosCpc.Cpc.ArithMult

/-!
# Soundness of the sign and magnitude rules

`eo::to_z` rounds a rational literal down, so the programs take every `z`
with `0 ≤ z < 1` for zero.  For a premise `(> t z)` this does no harm.  For
`(< t z)` and `(not (= t z))` it does, and the two rules that use it are
sound exactly as long as no such literal lies strictly between zero and
one.  `arith_mult_tangent` is sound without restriction.
-/

namespace EthosCpc

open Term (bop uop)
variable {Γ : Nat → Ty} {I : Interp Γ}

/-! ## Signs -/

/-- `x` is positive (for `true`) or negative (for `false`). -/
def HasSign : Bool → ℝ → Prop
  | true, x => 0 < x
  | false, x => x < 0

lemma HasSign.scale_pos {b : Bool} {c x : ℝ} (hc : 0 < c) (h : HasSign b x) :
    HasSign b (c * x) := by
  cases b with
  | true => exact mul_pos hc h
  | false => exact mul_neg_of_pos_of_neg hc h

lemma HasSign.scale_neg {b : Bool} {c x : ℝ} (hc : c < 0) (h : HasSign b x) :
    HasSign (!b) (c * x) := by
  cases b with
  | true => exact mul_neg_of_neg_of_pos hc h
  | false => exact mul_pos_of_neg_of_neg hc h

/-! ## What the programs compute -/

variable {T : Ty}

variable {t z : Term}

/-- Stripping an even power of a factor that is not zero divides by a positive
number. -/
lemma stripEvenExponent_spec {y : ℝ} (ht : ArithVal I T t y) (hy : y ≠ 0) :
    ∀ {m : Term} {x : ℝ}, ArithVal I T m x →
      ∃ c x', 0 < c ∧ x = c * x' ∧ ArithVal I T (stripEvenExponent t m) x' := by
  intro m
  induction m using stripEvenExponent.induct t with
  | case1 t1 t2 m h ih =>
    intro x hm
    obtain ⟨rfl, rfl⟩ := h
    obtain ⟨y1, x1, ht1, hm1, rfl⟩ := arithVal_times_inv hm
    obtain ⟨y2, x2, ht2, hm2, rfl⟩ := arithVal_times_inv hm1
    obtain ⟨-, rfl⟩ := ht.unique ht1
    obtain ⟨-, rfl⟩ := ht.unique ht2
    obtain ⟨c, x', hc, rfl, hx'⟩ := ih hm2
    have hsq : 0 < y2 * y2 := mul_self_pos.2 hy
    refine ⟨y2 * y2 * c, x', mul_pos hsq hc, by ring, ?_⟩
    rw [stripEvenExponent, if_pos ⟨rfl, rfl⟩]
    exact hx'
  | case2 t1 t2 m h =>
    intro x hm
    rw [stripEvenExponent, if_neg h]
    exact ⟨1, x, one_pos, (one_mul x).symm, hm⟩
  | case3 m h =>
    intro x hm
    rw [stripEvenExponent]
    · exact ⟨1, x, one_pos, (one_mul x).symm, hm⟩
    · exact h

lemma matchNeq_inv {F m F' m' : Term} (h : matchNeq F m = some (t, z, F', m')) :
    F = bop .and (uop .not (bop .eq t z)) F' ∧ m = bop .times t (bop .times t m') := by
  unfold matchNeq at h
  split at h
  swap
  · cases h
  split at h
  swap
  · cases h
  rename_i ht
  cases h
  rw [ht.1, ht.2]
  exact ⟨rfl, rfl⟩

variable {r : Sym}

lemma matchRel_inv {F m F' m' : Term} (h : matchRel r F m = some (t, z, F', m')) :
    F = bop .and (bop r t z) F' ∧ m = bop .times t m' := by
  unfold matchRel at h
  split at h
  swap
  · cases h
  split at h
  swap
  · cases h
  rename_i ht
  cases h
  rw [ht.1, ht.2]
  exact ⟨rfl, rfl⟩

variable {Z : Set Term}

lemma cmpLits_mkAnd {Fs : List Term} (h : ∀ F ∈ Fs, ∀ z ∈ cmpLits F, z ∈ Z) :
    ∀ z ∈ cmpLits (mkAnd Fs), z ∈ Z := by
  induction Fs with
  | nil => simp [cmpLits]
  | cons F Fs ih =>
    intro z hz
    rw [mkAnd_cons] at hz
    simp only [cmpLits, List.mem_append] at hz
    rcases hz with hz | hz
    · exact h F (by simp) z hz
    · exact ih (fun G hG => h G (by simp [hG])) z hz

/-- No literal of `Z` lies strictly between zero and one. -/
def NoFraction (Z : Set Term) : Prop := ∀ q : Rat, .rat q ∈ Z → ⌊q⌋ = 0 → q = 0

/-- A literal that is rounded to zero is not negative, and is zero when
fractions are excluded. -/
lemma zeroLit_spec {w : ℝ} (hz : eoToZ z = some 0)
    (hw : ArithVal I T z w) : 0 ≤ w ∧ ∀ Z, NoFraction Z → z ∈ Z → w = 0 := by
  rcases arithVal_of_eoToZ hz hw with ⟨-, rfl, rfl⟩ | ⟨q, -, rfl, rfl, hq⟩
  · simp
  constructor
  · have : 0 ≤ q := by
      have := Int.floor_le q
      rw [hq] at this
      exact_mod_cast this
    exact_mod_cast this
  · intro Z hZ hmem
    rw [hZ q hmem hq]
    simp

/-- The sign the program computes is the sign of the monomial, relative to
the sign it started from. -/
lemma mkArithMultSignSgn_spec (hZ : NoFraction Z) :
    ∀ (n : Nat) {sgn res : Bool} {F m : Term} {x : ℝ},
      mkArithMultSignSgn n sgn F m = some res → (∀ z ∈ cmpLits F, z ∈ Z) → Sat I F →
      ArithVal I T m x → HasSign (res == sgn) x := by
  intro n
  induction n with
  | zero => intro sgn res F m x h; simp [mkArithMultSignSgn] at h
  | succ n ih =>
    intro sgn res F m x h hF hsat hm
    rw [mkArithMultSignSgn] at h
    split at h
    · -- a factor that is not zero, squared
      rename_i t z F' m' hmatch
      obtain ⟨rfl, rfl⟩ := matchNeq_inv hmatch
      obtain ⟨hz, hrec⟩ := eoRequires_eq_some.1 h
      obtain ⟨hlit, hF'⟩ := sat_and.1 hsat
      obtain ⟨y, x1, ht, hm1, rfl⟩ := arithVal_times_inv hm
      obtain ⟨y', x2, ht', hm2, rfl⟩ := arithVal_times_inv hm1
      obtain ⟨-, rfl⟩ := ht.unique ht'
      have hne := sat_not.1 hlit
      obtain ⟨w, hw⟩ := boolVal_eq_inv hne ht
      have hw0 := (zeroLit_spec (by simpa using hz) hw).2 Z hZ (hF z (by simp [cmpLits]))
      have hy : y' ≠ 0 := by
        intro hy0
        exact (hne.unique (boolVal_arithEq ht hw)).2 (by rw [hw0]; exact hy0)
      obtain ⟨c, x', hc, rfl, hx'⟩ := stripEvenExponent_spec ht hy hm2
      have hsign := ih hrec (fun z hz => hF z (by simp [cmpLits, hz])) hF' hx'
      rw [show y' * (y' * (c * x')) = (y' * y' * c) * x' by ring]
      exact hsign.scale_pos (mul_pos (mul_self_pos.2 hy) hc)
    split at h
    · -- a positive factor
      rename_i t z F' m' hmatch
      obtain ⟨rfl, rfl⟩ := matchRel_inv hmatch
      obtain ⟨hz, hrec⟩ := eoRequires_eq_some.1 h
      obtain ⟨hlit, hF'⟩ := sat_and.1 hsat
      obtain ⟨y, x1, ht, hm1, rfl⟩ := arithVal_times_inv hm
      obtain ⟨S, y', w, ht', hw⟩ := boolVal_rel_inv rfl rfl (sat_iff_boolVal.1 hlit)
      obtain ⟨rfl, rfl⟩ := ht.unique ht'
      have hgt : y' > w := (boolVal_gt ht hw).sat.1 hlit
      have hy : 0 < y' := (zeroLit_spec (by simpa using hz) hw).1.trans_lt hgt
      obtain ⟨c, x', hc, rfl, hx'⟩ := stripEvenExponent_spec ht hy.ne' hm1
      have hsign := ih hrec (fun z hz => hF z (by simp [cmpLits, hz])) hF' hx'
      rw [← mul_assoc]
      exact hsign.scale_pos (mul_pos hy hc)
    split at h
    · -- a negative factor
      rename_i t z F' m' hmatch
      obtain ⟨rfl, rfl⟩ := matchRel_inv hmatch
      obtain ⟨hz, hrec⟩ := eoRequires_eq_some.1 h
      obtain ⟨hlit, hF'⟩ := sat_and.1 hsat
      obtain ⟨y, x1, ht, hm1, rfl⟩ := arithVal_times_inv hm
      obtain ⟨S, y', w, ht', hw⟩ := boolVal_rel_inv rfl rfl (sat_iff_boolVal.1 hlit)
      obtain ⟨rfl, rfl⟩ := ht.unique ht'
      have hlt : y' < w := (boolVal_lt ht hw).sat.1 hlit
      have hw0 := (zeroLit_spec (by simpa using hz) hw).2 Z hZ (hF z (by simp [cmpLits]))
      have hy : y' < 0 := hw0 ▸ hlt
      obtain ⟨c, x', hc, rfl, hx'⟩ := stripEvenExponent_spec ht hy.ne hm1
      have hsign := (ih hrec (fun z hz => hF z (by simp [cmpLits, hz])) hF' hx').scale_pos hc
      have := hsign.scale_neg hy
      cases res <;> cases sgn <;> exact this
    split at h
    swap
    · refine ih h (fun z hz => hF z ?_) (sat_and.2 ⟨hsat, rfl⟩) hm
      simpa [cmpLits] using hz
    -- the monomial is used up
    obtain ⟨hone, hres⟩ := eoRequires_eq_some.1 h
    cases hres
    have hx : x = ((1 : Rat) : ℝ) := arithVal_of_eoToQ (by simpa using hone) hm
    rw [hx]
    simp [HasSign]

variable {c b u : Term}

lemma arithMultSign_sat (hZ : NoFraction Z) {n : Nat} {F m : Term}
    (hF : ∀ z ∈ cmpLits F, z ∈ Z) (h : arithMultSign n Γ F m = some c)
    (hc : typeof Γ c = some .bool) : Sat I c := by
  unfold arithMultSign at h
  obtain ⟨sgn, hsgn, h⟩ := bind_inv h
  obtain ⟨zero, hzero, rfl⟩ := map_inv h
  obtain ⟨T, hT, hzero⟩ := bind_inv hzero
  have hz : ArithVal I T zero 0 := arithVal_zero hzero
  obtain ⟨x, hx⟩ := arithVal_of_typeof (I := I) hT hz.type
  have hFb := boolVal_of_typeof (I := I) (typeof_connective_inv rfl rfl hc).1
  have hsign := fun hsat => mkArithMultSignSgn_spec (I := I) hZ n hsgn hF hsat hx
  cases sgn with
  | true => exact (boolVal_imp hFb (boolVal_gt hx hz)).sat.2 hsign
  | false => exact (boolVal_imp hFb (boolVal_lt hx hz)).sat.2 hsign

/-! ## Products -/

private lemma type_of_product {T S : Ty} {nil : Term} {e : ℝ} (hnil : ArithVal I T nil e) :
    ∀ {ys : List Term} {y : ℝ}, ArithVal I S (prependNAryChildren (.sym .times) nil ys) y →
      S = T := by
  intro ys
  induction ys with
  | nil => intro y h; exact (hnil.unique h).1
  | cons y ys ih =>
    intro r h
    obtain ⟨_, _, _, hrest, _⟩ := arithVal_times_inv h
    exact ih hrest

private lemma prepend_product {nil : Term} {y : ℝ} (hnil : ArithVal I T nil 1)
    (hb : ArithVal I T b y) :
    ∀ {xs : List Term} {x : ℝ}, ArithVal I T (prependNAryChildren (.sym .times) nil xs) x →
      ArithVal I T (prependNAryChildren (.sym .times) b xs) (x * y) := by
  intro xs
  induction xs with
  | nil =>
    intro x h
    obtain ⟨-, rfl⟩ := hnil.unique h
    rw [one_mul]
    exact hb
  | cons x' xs ih =>
    intro x h
    obtain ⟨u, v, hu, hv, rfl⟩ := arithVal_times_inv h
    rw [mul_assoc]
    exact arithVal_times hu (ih hv)

lemma mkNary_times_spec {y : ℝ} (h : mkNary Γ .times t [] = some b)
    (ht : ArithVal I T t y) : ArithVal I T b y := by
  obtain ⟨nil, hnil, rfl⟩ := map_inv h
  obtain ⟨S, hS, hone⟩ := bind_inv hnil
  have hn : ArithVal I S nil 1 := arithVal_one hone
  obtain ⟨y', hy'⟩ := arithVal_of_typeof (I := I) hS hn.type
  obtain ⟨rfl, -⟩ := ht.unique hy'
  have := arithVal_times ht hn
  rwa [mul_one] at this

variable {x y : ℝ}

lemma appendFactor_spec {T S : Ty} {a r : Term} (h : appendFactor Γ a t = some r)
    (ha : ArithVal I T a x) (ht : ArithVal I S t y) : S = T ∧ ArithVal I T r (x * y) := by
  unfold appendFactor at h
  obtain ⟨b, hb, h⟩ := bind_inv h
  obtain ⟨nil, hnil, h⟩ := bind_inv h
  obtain ⟨R, _, hone⟩ := bind_inv hnil
  have hn : ArithVal I R nil 1 := arithVal_one hone
  have hbv := mkNary_times_spec hb ht
  obtain ⟨xs, ys, hxs, hys, rfl⟩ := eoListConcat_spec h
  rw [eq_of_getNAryChildren hxs] at ha
  rw [eq_of_getNAryChildren hys] at hbv
  obtain rfl := type_of_product hn ha
  obtain rfl := type_of_product hn hbv
  rw [prependNAryChildren_append]
  exact ⟨rfl, prepend_product hn hbv ha⟩

/-! ## Comparisons of absolute values -/

/-- The relation between the two products built so far. -/
def AbsRel : Sym → ℝ → ℝ → Prop
  | .gt, x, y => |y| < |x|
  | .eq, x, y => |x| = |y|
  | _, _, _ => False

lemma AbsRel.cases (h : AbsRel r x y) : r = .gt ∨ r = .eq := by
  cases r <;> simp_all [AbsRel]

lemma AbsRel.mul {x y t u : ℝ} (h : AbsRel r x y) (h' : AbsRel r t u) :
    AbsRel r (x * t) (y * u) := by
  rcases h.cases with rfl | rfl
  · simp only [AbsRel, abs_mul] at *
    exact mul_lt_mul'' h h' (abs_nonneg y) (abs_nonneg u)
  · simp only [AbsRel, abs_mul] at *
    rw [h, h']

lemma AbsRel.mul_nonzero {x y t u : ℝ} (h : AbsRel .gt x y) (h' : AbsRel .eq t u)
    (ht : t ≠ 0) : AbsRel .gt (x * t) (y * u) := by
  simp only [AbsRel, abs_mul] at *
  rw [← h']
  exact mul_lt_mul_of_pos_right h (abs_pos.2 ht)

lemma absRel_of_sat (hr : r = .gt ∨ r = .eq) (ht : ArithVal I T t x) (hu : ArithVal I T u y)
    (h : Sat I (bop r (uop .abs t) (uop .abs u))) : AbsRel r x y := by
  rcases hr with rfl | rfl
  · exact (boolVal_gt (arithVal_abs ht) (arithVal_abs hu)).sat.1 h
  · exact (boolVal_arithEq (arithVal_abs ht) (arithVal_abs hu)).sat.1 h

lemma sat_of_absRel (h : AbsRel r x y) (ht : ArithVal I T t x) (hu : ArithVal I T u y) :
    Sat I (bop r (uop .abs t) (uop .abs u)) := by
  rcases h.cases with rfl | rfl
  · exact (boolVal_gt (arithVal_abs ht) (arithVal_abs hu)).sat.2 h
  · exact (boolVal_arithEq (arithVal_abs ht) (arithVal_abs hu)).sat.2 h

private lemma arithVal_of_value_abs {v : Val I.U}
    (h : value I (uop .abs t) = some v) : ∃ S x, ArithVal I S t x := by
  obtain ⟨w, hw, h⟩ := value_uop_inv I rfl h
  rcases vArith1_inv h with ⟨m, heq, -⟩ | ⟨m, heq, -⟩
  · cases heq
    exact ⟨_, _, arithVal_int hw⟩
  · cases heq
    exact ⟨_, _, arithVal_real hw⟩

lemma sat_abs_inv (hr : r = .gt ∨ r = .eq) (h : Sat I (bop r (uop .abs t) (uop .abs u))) :
    ∃ S x y, ArithVal I S t x ∧ ArithVal I S u y ∧ AbsRel r x y := by
  rcases hr with rfl | rfl
  · obtain ⟨S, x', y', hx', hy'⟩ := boolVal_rel_inv rfl rfl (sat_iff_boolVal.1 h)
    obtain ⟨x, hx, rfl⟩ := arithVal_abs_inv hx'
    obtain ⟨y, hy, rfl⟩ := arithVal_abs_inv hy'
    exact ⟨S, x, y, hx, hy, absRel_of_sat (.inl rfl) hx hy h⟩
  obtain ⟨v, hv, hv'⟩ := sat_eq.1 h
  obtain ⟨S, x, hx⟩ := arithVal_of_value_abs hv
  obtain ⟨y', hy'⟩ := boolVal_eq_inv (sat_iff_boolVal.1 h) (arithVal_abs hx)
  obtain ⟨y, hy, rfl⟩ := arithVal_abs_inv hy'
  exact ⟨S, x, y, hx, hy, absRel_of_sat (.inr rfl) hx hy h⟩

/-- What the two premise patterns accept. -/
lemma matchAbs_inv {r0 : Sym} {H a0 b0 r a : Term}
    (h : matchAbs H (bop r0 a0 b0) = some (r, a, b, t, u)) :
    r = .sym r0 ∧ a = a0 ∧ b = b0 ∧ (H = bop r0 (uop .abs t) (uop .abs u) ∨
        r0 = .gt ∧ ∃ z, eoToZ z = some 0 ∧ H = bop .and (bop .eq (uop .abs t) (uop .abs u))
          (bop .and (uop .not (bop .eq t z)) (.bool true))) := by
  unfold matchAbs at h
  split at h
  · rename_i heq
    cases heq
    split at h
    · rename_i hr
      subst hr
      cases h
      exact ⟨rfl, rfl, rfl, .inl rfl⟩
    · cases h
  · rename_i t' z _ _ heq
    cases heq
    split at h
    swap
    · cases h
    rename_i ht
    subst ht
    obtain ⟨hz, hres⟩ := eoRequires_eq_some.1 h
    cases hres
    exact ⟨rfl, rfl, rfl, .inr ⟨rfl, z, by simpa using hz, rfl⟩⟩
  · cases h

/-- One premise multiplies both products and keeps their relation. -/
lemma matchAbs_spec (hZ : NoFraction Z) {r0 : Sym} {H a0 b0 r a : Term}
    (h : matchAbs H (bop r0 a0 b0) = some (r, a, b, t, u))
    (hH : ∀ z ∈ cmpLits H, z ∈ Z) (hsat : Sat I H) (hrel : AbsRel r0 x y) :
    ∃ S x' y', ArithVal I S t x' ∧ ArithVal I S u y' ∧ AbsRel r0 (x * x') (y * y') := by
  obtain ⟨-, -, -, rfl | ⟨rfl, z, hz, rfl⟩⟩ := matchAbs_inv h
  · obtain ⟨S, x', y', hx', hy', hrel'⟩ := sat_abs_inv hrel.cases hsat
    exact ⟨S, x', y', hx', hy', hrel.mul hrel'⟩
  obtain ⟨heq, hrest⟩ := sat_and.1 hsat
  obtain ⟨hlit, _⟩ := sat_and.1 hrest
  obtain ⟨S, x', y', hx', hy', hrel'⟩ := sat_abs_inv (.inr rfl) heq
  have hne := sat_not.1 hlit
  obtain ⟨w, hw⟩ := boolVal_eq_inv hne hx'
  have hw0 := (zeroLit_spec hz hw).2 Z hZ (hH z (by simp [cmpLits]))
  have hx0 : x' ≠ 0 := by
    intro h0
    exact (hne.unique (boolVal_arithEq hx' hw)).2 (by rw [hw0]; exact h0)
  exact ⟨S, x', y', hx', hy', hrel.mul_nonzero hrel' hx0⟩

/-- The premises, in turn, keep the relation between the products. -/
lemma mkArithMultAbsComparisonRec_spec (hZ : NoFraction Z) :
    ∀ {F : Term} {r : Sym} {a b c : Term} {x y : ℝ},
      mkArithMultAbsComparisonRec Γ F (bop r a b) = some c → (∀ z ∈ cmpLits F, z ∈ Z) →
      Sat I F → ArithVal I T a x → ArithVal I T b y → AbsRel r x y → Sat I c := by
  intro F
  induction F with
  | app f B _ ih =>
    intro r a b c x y h hF hsat ha hb hrel
    unfold mkArithMultAbsComparisonRec at h
    split at h
    · rename_i H B' heq
      cases heq
      obtain ⟨⟨r', a', b', t, u⟩, hmatch, hrest⟩ := bind_inv h
      obtain ⟨a2, ha2, hrest'⟩ := bind_inv hrest
      obtain ⟨b2, hb2, hrec⟩ := bind_inv hrest'
      obtain ⟨rfl, rfl, rfl, -⟩ := matchAbs_inv hmatch
      obtain ⟨hH, hB⟩ := sat_and.1 hsat
      obtain ⟨S, x', y', hx', hy', hrel'⟩ := matchAbs_spec hZ hmatch
        (fun z hz => hF z (by simp [cmpLits, hz])) hH hrel
      have ha' := (appendFactor_spec ha2 ha hx').2
      have hb' := (appendFactor_spec hb2 hb hy').2
      exact ih hrec (fun z hz => hF z (by simp [cmpLits, hz])) hB ha' hb' hrel'
    · contradiction
    · contradiction
  | bool v =>
    intro r a b c x y h _ _ ha hb hrel
    cases v with
    | true =>
      cases h
      exact sat_of_absRel hrel ha hb
    | false => simp [mkArithMultAbsComparisonRec] at h
  | _ => intro r a b c x y h; simp [mkArithMultAbsComparisonRec] at h

/-- The conclusion of `arith_mult_abs_comparison` holds when fractions are
excluded. -/
lemma arithMultAbsComparison_sat (hZ : NoFraction Z) {Fs : List Term}
    (hFs : ∀ F ∈ Fs, ∀ z ∈ cmpLits F, z ∈ Z) (h : arithMultAbsComparison Γ Fs = some c)
    (hsat : ∀ F ∈ Fs, Sat I F) : Sat I c := by
  cases Fs with
  | nil => simp [arithMultAbsComparison, mkArithMultAbsComparison] at h
  | cons H Fs =>
    unfold arithMultAbsComparison at h
    rw [mkAnd_cons] at h
    unfold mkArithMultAbsComparison at h
    split at h
    swap
    · cases h
    rename_i r t u B heq
    cases heq
    split at h
    swap
    · cases h
    rename_i hr
    obtain ⟨a, ha, h⟩ := bind_inv h
    obtain ⟨b, hb, h⟩ := bind_inv h
    obtain ⟨S, x, y, hx, hy, hrel⟩ := sat_abs_inv hr (hsat _ (.head _))
    refine mkArithMultAbsComparisonRec_spec hZ h ?_ ?_ (mkNary_times_spec ha hx)
      (mkNary_times_spec hb hy) hrel
    · exact cmpLits_mkAnd fun F hF => hFs F (by simp [hF])
    · exact sat_mkAnd.2 fun F hF => hsat F (by simp [hF])

/-! ## The tangent plane -/

/-- On which side of the tangent plane at `(a, b)` the product lies is decided
by the sides of `x` and `y`. -/
private lemma tangent_geq (x y a b : ℝ) :
    x * y ≥ b * x + a * y - a * b ↔ x ≤ a ∧ y ≤ b ∨ x ≥ a ∧ y ≥ b := by
  have hfac : x * y - (b * x + a * y - a * b) = (x - a) * (y - b) := by ring
  constructor
  · intro h
    have hprod : 0 ≤ (x - a) * (y - b) := by linarith
    rcases mul_nonneg_iff.1 hprod with ⟨hx, hy⟩ | ⟨hx, hy⟩
    · exact .inr ⟨by linarith, by linarith⟩
    · exact .inl ⟨by linarith, by linarith⟩
  intro h
  have hprod : 0 ≤ (x - a) * (y - b) := by
    rcases h with ⟨hx, hy⟩ | ⟨hx, hy⟩
    · exact mul_nonneg_of_nonpos_of_nonpos (by linarith) (by linarith)
    · exact mul_nonneg (by linarith) (by linarith)
  linarith

private lemma tangent_leq (x y a b : ℝ) :
    x * y ≤ b * x + a * y - a * b ↔ x ≤ a ∧ y ≥ b ∨ x ≥ a ∧ y ≤ b := by
  have h := tangent_geq x (-y) a (-b)
  constructor
  · intro hle
    have := h.1 (by linarith)
    rcases this with ⟨hx, hy⟩ | ⟨hx, hy⟩
    · exact .inl ⟨hx, by linarith⟩
    · exact .inr ⟨hx, by linarith⟩
  intro hor
  have := h.2 (by
    rcases hor with ⟨hx, hy⟩ | ⟨hx, hy⟩
    · exact .inl ⟨hx, by linarith⟩
    · exact .inr ⟨hx, by linarith⟩)
  linarith

lemma arithMultTangent_sat {x y a s : Term} (hT : T = .int ∨ T = .real)
    (hx : typeof Γ x = some T) (hy : typeof Γ y = some T) (ha : typeof Γ a = some T)
    (hb : typeof Γ b = some T) (h : arithMultTangent Γ x y a b s = some c) : Sat I c := by
  obtain ⟨rx, hx⟩ := arithVal_of_typeof (I := I) hx hT
  obtain ⟨ry, hy⟩ := arithVal_of_typeof (I := I) hy hT
  obtain ⟨ra, ha⟩ := arithVal_of_typeof (I := I) ha hT
  obtain ⟨rb, hb⟩ := arithVal_of_typeof (I := I) hb hT
  unfold arithMultTangent at h
  obtain ⟨bx, hbx, h⟩ := bind_inv h
  obtain ⟨ay, hay, h⟩ := bind_inv h
  obtain ⟨sum, hsum, h⟩ := bind_inv h
  obtain ⟨ab, hab, h⟩ := bind_inv h
  obtain ⟨xy, hxy, h⟩ := bind_inv h
  obtain ⟨r1, hr1, h⟩ := bind_inv h
  obtain ⟨r2, hr2, rfl⟩ := map_inv h
  have hbx := arithVal_mkNary_times hbx hb hx
  have hay := arithVal_mkNary_times hay ha hy
  have hab := arithVal_mkNary_times hab ha hb
  have hxy := arithVal_mkNary_times hxy hx hy
  have hplane := arithVal_minus (arithVal_mkNary_plus hsum hbx hay) hab
  -- the right-hand side, for either choice of the two relations
  have hrhs : ∀ {F G : Term} {p q : Prop}, BoolVal I F p → BoolVal I G q →
      BoolVal I (prependNAryChildren (.sym .or) (.bool false)
        [mkAnd [bop .leq x a, F], mkAnd [bop .geq x a, G]])
        (rx ≤ ra ∧ p ∨ rx ≥ ra ∧ q) := by
    intro F G p q hF hG
    have hl := boolVal_and (boolVal_leq hx ha) (boolVal_and hF (boolVal_bool true))
    have hr := boolVal_and (boolVal_geq hx ha) (boolVal_and hG (boolVal_bool true))
    exact (boolVal_or hl (boolVal_or hr (boolVal_bool false))).congr (by simp)
  unfold eoIte at hr1 hr2
  split at hr1
  · cases hr1
    cases hr2
    exact (boolVal_eq (boolVal_geq hxy hplane)
      (hrhs (boolVal_leq hy hb) (boolVal_geq hy hb))).sat.2 (tangent_geq rx ry ra rb)
  · cases hr1
    cases hr2
    exact (boolVal_eq (boolVal_leq hxy hplane)
      (hrhs (boolVal_geq hy hb) (boolVal_leq hy hb))).sat.2 (tangent_leq rx ry ra rb)
  · cases hr1

/-! ## Fractions -/

/-- Real constants with the given values. -/
noncomputable def realInterp (f : Nat → ℝ) : Interp fun _ => .real where
  U := fun _ => Unit
  const := f
  divByZero := id
  intDivByZero := id
  modByZero := id

private lemma realInterp_const (f : Nat → ℝ) (n : Nat) :
    ArithVal (realInterp f) .real (.const n) (f n) := arithVal_real rfl

/-- The literal `(< x q)` and the monomial `(* x)`. -/
def fractionLit (q : Rat) : Term := mkAnd [bop .lt (.const 0) (.rat q)]

def fractionMonomial : Term := bop .times (.const 0) (.rat 1)

variable {q : Rat}

lemma arithMultSign_fraction (hq : ⌊q⌋ = 0) :
    arithMultSign 2 (fun _ => .real) (fractionLit q) fractionMonomial =
      some (bop .imp (fractionLit q) (bop .lt fractionMonomial (.rat 0))) := by
  have hsgn : mkArithMultSignSgn 2 true (fractionLit q) fractionMonomial = some false := by
    simp [mkArithMultSignSgn, fractionLit, fractionMonomial, matchNeq, matchRel, eoRequires,
      eoToZ, hq, stripEvenExponent, eoToQ]
  rw [arithMultSign, hsgn]
  rfl

private lemma pos_of_floor_zero (hq : ⌊q⌋ = 0) (hne : q ≠ 0) : (0 : ℝ) < q := by
  have h : (0 : Rat) ≤ q := by
    have := Int.floor_le q
    rw [hq] at this
    exact_mod_cast this
  exact_mod_cast lt_of_le_of_ne h (Ne.symm hne)

lemma not_sat_fraction (hq : ⌊q⌋ = 0) (hne : q ≠ 0) : ¬ Sat (realInterp fun _ => 0)
      (bop .imp (fractionLit q) (bop .lt fractionMonomial (.rat 0))) := by
  have hx := realInterp_const (fun _ => 0) 0
  have hlit := boolVal_and (boolVal_lt hx (arithVal_real (value_rat _ q))) (boolVal_bool true)
  have hm := arithVal_times hx (arithVal_real (value_rat _ 1))
  have hc := boolVal_imp hlit (boolVal_lt hm (arithVal_real (value_rat _ 0)))
  intro hsat
  have := hc.sat.1 hsat ⟨pos_of_floor_zero hq hne, rfl⟩
  simp at this

/-- The premises `(> (abs x) (abs y))` and
`(and (= (abs t) (abs t)) (not (= t q)))`. -/
def fractionPremises (q : Rat) : List Term :=
  [bop .gt (uop .abs (.const 0)) (uop .abs (.const 1)),
    mkAnd [bop .eq (uop .abs (.const 2)) (uop .abs (.const 2)),
      uop .not (bop .eq (.const 2) (.rat q))]]

/-- The conclusion drawn from them, `(> (abs (* x t)) (abs (* y t)))`. -/
def fractionComparison : Term :=
  bop .gt (uop .abs (bop .times (.const 0) (bop .times (.const 2) (.rat 1))))
    (uop .abs (bop .times (.const 1) (bop .times (.const 2) (.rat 1))))

lemma arithMultAbsComparison_fraction (hq : ⌊q⌋ = 0) :
    arithMultAbsComparison (fun _ => .real) (fractionPremises q) = some fractionComparison := by
  have h : arithMultAbsComparison (fun _ => .real) (fractionPremises q) =
      (eoRequires (decide (eoToZ (.rat q) = some 0))
        (some (Term.sym .gt, bop .times (.const 0) (.rat 1), bop .times (.const 1) (.rat 1),
          Term.const 2, Term.const 2))).bind fun p =>
        (appendFactor (fun _ => .real) p.2.1 p.2.2.2.1).bind fun a' =>
        (appendFactor (fun _ => .real) p.2.2.1 p.2.2.2.2).bind fun b' =>
          mkArithMultAbsComparisonRec (fun _ => .real) (.bool true) (.app (.app p.1 a') b') := rfl
  rw [h, eoToZ, hq]
  rfl

/-- With `x = 1` and `y` and `t` zero the premises hold and the conclusion does
not. -/
lemma not_sat_fractionComparison (hq : ⌊q⌋ = 0) (hne : q ≠ 0) :
    (∀ F ∈ fractionPremises q, Sat (realInterp fun n => if n = 0 then 1 else 0) F) ∧
    ¬ Sat (realInterp fun n => if n = 0 then 1 else 0) fractionComparison := by
  have hx := realInterp_const (fun n => if n = 0 then 1 else 0) 0
  have hy := realInterp_const (fun n => if n = 0 then 1 else 0) 1
  have ht := realInterp_const (fun n => if n = 0 then 1 else 0) 2
  constructor
  · intro F hF
    simp only [fractionPremises, List.mem_cons, List.not_mem_nil, or_false] at hF
    rcases hF with rfl | rfl
    · exact (boolVal_gt (arithVal_abs hx) (arithVal_abs hy)).sat.2 (by simp)
    rw [sat_mkAnd]
    intro G hG
    simp only [List.mem_cons, List.not_mem_nil, or_false] at hG
    rcases hG with rfl | rfl
    · exact (boolVal_arithEq (arithVal_abs ht) (arithVal_abs ht)).sat.2 rfl
    · refine (boolVal_not (boolVal_arithEq ht (arithVal_real (value_rat _ q)))).sat.2 ?_
      simpa using (pos_of_floor_zero hq hne).ne
  · have hone := arithVal_real (value_rat (realInterp fun n => if n = 0 then 1 else 0) 1)
    intro hsat
    have hc := boolVal_gt (arithVal_abs (arithVal_times hx (arithVal_times ht hone)))
      (arithVal_abs (arithVal_times hy (arithVal_times ht hone)))
    have := hc.sat.1 hsat
    simp at this

/-! ## Main results -/

/-- For every set `Z` of literals that premises may be compared with,
`arith_mult_sign` is sound exactly if `Z` has no fraction between zero and
one, and so is `arith_mult_abs_comparison`.  `arith_mult_tangent` is always
sound. -/
theorem arith_mult_rules_sound_iff (Z : Set Term) :
    ((∀ (Γ : Nat → Ty) (I : Interp Γ) (n : Nat) (F m c : Term),
        (∀ z ∈ cmpLits F, z ∈ Z) → arithMultSign n Γ F m = some c →
        typeof Γ c = some .bool → Sat I c) ↔ NoFraction Z) ∧
    ((∀ (Γ : Nat → Ty) (I : Interp Γ) (Fs : List Term) (c : Term),
        (∀ F ∈ Fs, ∀ z ∈ cmpLits F, z ∈ Z) → arithMultAbsComparison Γ Fs = some c →
        (∀ F ∈ Fs, Sat I F) → Sat I c) ↔ NoFraction Z) ∧
    (∀ (Γ : Nat → Ty) (I : Interp Γ) (T : Ty) (x y a b s c : Term), (T = .int ∨ T = .real) →
      typeof Γ x = some T → typeof Γ y = some T → typeof Γ a = some T → typeof Γ b = some T →
      arithMultTangent Γ x y a b s = some c → Sat I c) := by
  refine ⟨⟨?_, ?_⟩, ⟨?_, ?_⟩, ?_⟩
  · intro h q hmem hq
    by_contra hne
    refine not_sat_fraction hq hne (h _ _ 2 _ _ _ ?_ (arithMultSign_fraction hq) rfl)
    simpa [cmpLits, fractionLit] using hmem
  · intro hZ Γ I n F m c hF h hc
    exact arithMultSign_sat hZ hF h hc
  · intro h q hmem hq
    by_contra hne
    obtain ⟨hsat, hnot⟩ := not_sat_fractionComparison hq hne
    refine hnot (h _ _ _ _ ?_ (arithMultAbsComparison_fraction hq) hsat)
    simpa [cmpLits, fractionPremises] using hmem
  · intro hZ Γ I Fs c hFs h hsat
    exact arithMultAbsComparison_sat hZ hFs h hsat
  · intro Γ I T x y a b s c hT hx hy ha hb h
    exact arithMultTangent_sat hT hx hy ha hb h

/-- With the literal zero, `(< x 0/1)` gives the sign of `x`. -/
theorem arith_mult_rules_sound_iff_zero : Sat (realInterp fun _ => -1)
      (bop .imp (fractionLit 0) (bop .lt fractionMonomial (.rat 0))) :=
  (arith_mult_rules_sound_iff {.rat 0}).1.2 (by intro q hq _; simpa using hq) _ _ 2 _ _ _
    (by simp [cmpLits, fractionLit]) (arithMultSign_fraction (by simp)) rfl

/-- From `(< x 1/2)` the rule `arith_mult_sign` concludes that `x` is
negative. -/
theorem arithMultSign_half_unsound :
    ∃ c, arithMultSign 2 (fun _ => .real) (fractionLit (1 / 2)) fractionMonomial = some c ∧
      typeof (fun _ => .real) c = some .bool ∧ ¬ Sat (realInterp fun _ => 0) c :=
  ⟨_, arithMultSign_fraction (by norm_num), rfl, not_sat_fraction (by norm_num) (by norm_num)⟩

end EthosCpc
