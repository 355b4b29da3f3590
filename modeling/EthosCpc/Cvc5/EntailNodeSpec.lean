import EthosCpc.Cvc5.EntailNode
import EthosCpc.Cvc5.NodeSpec

/-!
# Values of the nodes of arithmetic entailment

`ArithVal I T n r` says that a node has the number `r` as its value, at the
type `T`.  The type of a node with a value is the type of the value
(`typeOf_of_eval`), also where the code computes it without looking at all
children.
-/

namespace EthosCpc.Cvc5.Entail

open Library
open Option (bind_eq_some_iff some.inj)
open List (Forall₂ cons_ne_nil forall₂_cons_left_iff forall₂_cons_right_iff)

/-! ## Values of applications -/

section Values

variable {Γ : Nat → Ty} {I : Interp Γ} {k : Kind} {ds cs : List Node} {a b c : Node} {v : Val I.U}

lemma evalList_eq_some {vs : List (Val I.U)} :
    evalList I cs = some vs ↔ Forall₂ (fun c v => eval I c = some v) cs vs :=
  readings_eq_some (by rw [evalList]) fun _ _ => by rw [evalList]

lemma eval_app_iff : eval I (.app k ds) = some v ↔
    ∃ vs, Forall₂ (fun c v => eval I c = some v) ds vs ∧ kindVal I k vs = some v := by
  rw [eval, bind_eq_some_iff]
  simp only [evalList_eq_some]

lemma eval_app_one_iff : eval I (.app k [a]) = some v ↔
    ∃ x, eval I a = some x ∧ kindVal I k [x] = some v := by
  rw [eval_app_iff]
  constructor
  · rintro ⟨vs, hvs, h⟩
    obtain ⟨x, xs, hx, hxs, rfl⟩ := forall₂_cons_left_iff.1 hvs
    cases hxs
    exact ⟨x, hx, h⟩
  · rintro ⟨x, hx, h⟩
    exact ⟨[x], .cons hx .nil, h⟩

lemma eval_app_two_iff : eval I (.app k [a, b]) = some v ↔
    ∃ x y, eval I a = some x ∧ eval I b = some y ∧ kindVal I k [x, y] = some v := by
  rw [eval_app_iff]
  constructor
  · rintro ⟨vs, hvs, h⟩
    obtain ⟨x, xs, hx, hxs, rfl⟩ := forall₂_cons_left_iff.1 hvs
    obtain ⟨y, ys, hy, hys, rfl⟩ := forall₂_cons_left_iff.1 hxs
    cases hys
    exact ⟨x, y, hx, hy, h⟩
  · rintro ⟨x, y, hx, hy, h⟩
    exact ⟨[x, y], .cons hx (.cons hy .nil), h⟩

lemma eval_app_three_iff : eval I (.app k [a, b, c]) = some v ↔
    ∃ x y z, eval I a = some x ∧ eval I b = some y ∧ eval I c = some z ∧
      kindVal I k [x, y, z] = some v := by
  rw [eval_app_iff]
  constructor
  · rintro ⟨vs, hvs, h⟩
    obtain ⟨x, xs, hx, hxs, rfl⟩ := forall₂_cons_left_iff.1 hvs
    obtain ⟨y, ys, hy, hys, rfl⟩ := forall₂_cons_left_iff.1 hxs
    obtain ⟨z, zs, hz, hzs, rfl⟩ := forall₂_cons_left_iff.1 hys
    cases hzs
    exact ⟨x, y, z, hx, hy, hz, h⟩
  · rintro ⟨x, y, z, hx, hy, hz, h⟩
    exact ⟨[x, y, z], .cons hx (.cons hy (.cons hz .nil)), h⟩

end Values

/-! ## Numbers -/

section Numbers

variable {U : Nat → Type} {f : Int → Int → Int} {g : ℝ → ℝ → ℝ} {T : Ty} {v w : Val U} {x y : ℝ}

/-- A value is a number at a type. -/
def IsNum (T : Ty) (v : Val U) (r : ℝ) : Prop := v.1 = T ∧ numOf v = some r

lemma isNum_int (z : Int) : IsNum .int (Val.int z : Val U) z := ⟨rfl, rfl⟩

lemma isNum_real (r : ℝ) : IsNum .real (Val.real r : Val U) r := ⟨rfl, rfl⟩

lemma IsNum.cases (h : IsNum T v x) :
    (∃ z : Int, T = .int ∧ v = .int z ∧ x = z) ∨ (T = .real ∧ v = .real x) := by
  obtain ⟨rfl, hx⟩ := h
  rcases numOf_inv hx with ⟨z, rfl, rfl⟩ | rfl
  · exact .inl ⟨z, rfl, rfl, rfl⟩
  · exact .inr ⟨rfl, rfl⟩

lemma IsNum.eq_int (h : IsNum .int v x) : ∃ z : Int, v = .int z ∧ x = z := by
  rcases h.cases with ⟨z, -, hv, hx⟩ | ⟨hT, -⟩
  · exact ⟨z, hv, hx⟩
  · cases hT

lemma IsNum.eq_real (h : IsNum .real v x) : v = .real x := by
  rcases h.cases with ⟨z, hT, -, -⟩ | ⟨-, hv⟩
  · cases hT
  · exact hv

lemma IsNum.isArithType (h : IsNum T v x) : T.isArithType = true := by
  rcases h.cases with ⟨z, rfl, -, -⟩ | ⟨rfl, -⟩
  · rfl
  · rfl

lemma IsNum.arith2 (hcast : ∀ m n : Int, ((f m n : Int) : ℝ) = g m n) (hv : IsNum T v x)
    (hw : IsNum T w y) : ∃ r, vArith2 f g [v, w] = some r ∧ IsNum T r (g x y) := by
  rcases hv.cases with ⟨m, rfl, rfl, rfl⟩ | ⟨rfl, rfl⟩
  · obtain ⟨n, rfl, rfl⟩ := hw.eq_int
    exact ⟨_, rfl, by rw [← hcast]; exact isNum_int _⟩
  · cases hw.eq_real
    exact ⟨_, rfl, isNum_real _⟩

lemma isNum_fold {u : ℝ} (hcast : ∀ m n : Int, ((f m n : Int) : ℝ) = g m n)
    (hunit : ∀ r, g r u = r) {vs : List (Val U)} {xs : List ℝ}
    (h : Forall₂ (IsNum T) vs xs) (hne : vs ≠ []) :
    ∃ r, vArithFold f g vs = some r ∧ IsNum T r (xs.foldr g u) := by
  induction h with
  | nil => exact absurd rfl hne
  | @cons v x vs xs hv hvs ih =>
    cases hvs with
    | nil =>
      refine ⟨v, ?_, ?_⟩
      · rcases hv.cases with ⟨m, -, rfl, -⟩ | ⟨-, rfl⟩
        · rfl
        · rfl
      · rw [List.foldr_cons, List.foldr_nil, hunit]
        exact hv
    | cons hw hvs =>
      obtain ⟨r, hr, hnum⟩ := ih (cons_ne_nil _ _)
      obtain ⟨r', hr', hnum'⟩ := hv.arith2 hcast hnum
      refine ⟨r', ?_, hnum'⟩
      change (vArithFold f g (_ :: _)).bind _ = some r'
      rw [hr]
      exact hr'

lemma fold_inv {vs : List (Val U)} {r : Val U} (h : vArithFold f g vs = some r) :
    vs ≠ [] ∧ ∃ xs, Forall₂ (IsNum r.1) vs xs := by
  induction vs generalizing r with
  | nil => cases h
  | cons v vs ih =>
    refine ⟨cons_ne_nil _ _, ?_⟩
    cases vs with
    | nil =>
      rcases vArith1_inv h with ⟨m, heq, rfl⟩ | ⟨a, heq, rfl⟩
      · cases heq
        exact ⟨[(m : ℝ)], .cons (isNum_int m) .nil⟩
      · cases heq
        exact ⟨[a], .cons (isNum_real a) .nil⟩
    | cons w ws =>
      obtain ⟨s, hs, h⟩ := bind_inv h
      obtain ⟨_, xs, hxs⟩ := ih hs
      rcases vArith2_inv h with ⟨m, n, heq, rfl⟩ | ⟨a, b, heq, rfl⟩
      · cases heq
        exact ⟨m :: xs, .cons (isNum_int m) hxs⟩
      · cases heq
        exact ⟨a :: xs, .cons (isNum_real a) hxs⟩

end Numbers

section ArithValues

variable {Γ : Nat → Ty} (I : Interp Γ)

/-- The node has the number `r` as its value, at the type `T`. -/
def ArithVal (T : Ty) (n : Node) (r : ℝ) : Prop := ∃ v, eval I n = some v ∧ IsNum T v r

variable {I} {k : Kind} {cs : List Node} {a b : Node} {xs : List ℝ} {x y r : ℝ} {T : Ty}

lemma ArithVal.unique {T' : Ty} {r' : ℝ} (h : ArithVal I T a r) (h' : ArithVal I T' a r') :
    T' = T ∧ r' = r := by
  obtain ⟨v, hv, rfl, hr⟩ := h
  obtain ⟨v', hv', rfl, hr'⟩ := h'
  cases hv.symm.trans hv'
  exact ⟨rfl, some.inj (hr'.symm.trans hr)⟩

lemma arithVal_int_iff : ArithVal I .int a r ↔ ∃ z : Int, eval I a = some (.int z) ∧ r = z := by
  constructor
  · rintro ⟨v, hv, hnum⟩
    obtain ⟨z, rfl, rfl⟩ := hnum.eq_int
    exact ⟨z, hv, rfl⟩
  · rintro ⟨z, hz, rfl⟩
    exact ⟨_, hz, isNum_int z⟩

lemma arithVal_of_int {z : Int} (h : eval I a = some (.int z)) : ArithVal I .int a z :=
  ⟨_, h, isNum_int z⟩

lemma arithVal_real_iff : ArithVal I .real a r ↔ eval I a = some (.real r) := by
  constructor
  · rintro ⟨v, hv, hnum⟩
    cases hnum.eq_real
    exact hv
  · intro h
    exact ⟨_, h, isNum_real r⟩

lemma ArithVal.eval_eq (ha : ArithVal I T a r) (hb : ArithVal I T b r) : eval I a = eval I b := by
  obtain ⟨v, hv, hvn⟩ := ha
  obtain ⟨w, hw, hwn⟩ := hb
  rw [hv, hw]
  rcases hvn.cases with ⟨z, rfl, rfl, rfl⟩ | ⟨rfl, rfl⟩
  · obtain ⟨z', rfl, hz⟩ := hwn.eq_int
    rw [Int.cast_inj.1 hz]
  · rw [hwn.eq_real]

lemma arithVal_constInteger (z : Int) : ArithVal I .int (.constInteger z) z :=
  ⟨_, by rw [eval], isNum_int z⟩

lemma arithVal_constRational (q : Rat) : ArithVal I .real (.constRational q) q :=
  ⟨_, by rw [eval], isNum_real _⟩

lemma arithVal_rational {q : Rat} (h : a.rational? = some q) : ∃ T, ArithVal I T a q := by
  unfold Node.rational? at h
  split at h
  · cases h
    exact ⟨.int, by simpa using arithVal_constInteger (I := I) _⟩
  · cases h
    exact ⟨.real, arithVal_constRational _⟩
  · cases h

lemma forall₂_arithVal {vs : List (Val I.U)} (hvs : Forall₂ (fun c v => eval I c = some v) cs vs)
    (hxs : Forall₂ (IsNum T) vs xs) : Forall₂ (ArithVal I T) cs xs := by
  induction hvs generalizing xs with
  | nil =>
    cases hxs
    exact .nil
  | cons hv _ ih =>
    cases hxs with
    | cons hx hxs => exact .cons ⟨_, hv, hx⟩ (ih hxs)

lemma forall₂_arithVal_inv (h : Forall₂ (ArithVal I T) cs xs) :
    ∃ vs, Forall₂ (fun c v => eval I c = some v) cs vs ∧ Forall₂ (IsNum T) vs xs := by
  induction h with
  | nil => exact ⟨[], .nil, .nil⟩
  | cons hc _ ih =>
    obtain ⟨v, hv, hx⟩ := hc
    obtain ⟨vs, hvs, hxs⟩ := ih
    exact ⟨v :: vs, .cons hv hvs, .cons hx hxs⟩

variable {f : Int → Int → Int} {g : ℝ → ℝ → ℝ}

lemma arithVal_fold {u : ℝ}
    (hk : kindVal I k = vArithFold f g) (hcast : ∀ m n : Int, ((f m n : Int) : ℝ) = g m n)
    (hunit : ∀ r, g r u = r) (h : Forall₂ (ArithVal I T) cs xs) (hne : cs ≠ []) :
    ArithVal I T (.app k cs) (xs.foldr g u) := by
  obtain ⟨vs, hvs, hxs⟩ := forall₂_arithVal_inv h
  have hvne : vs ≠ [] := by
    rintro rfl
    cases hvs
    exact hne rfl
  obtain ⟨r, hr, hnum⟩ := isNum_fold hcast hunit hxs hvne
  exact ⟨r, eval_app_iff.2 ⟨vs, hvs, by rw [hk, hr]⟩, hnum⟩

lemma arithVal_fold_inv {u : ℝ}
    (hk : kindVal I k = vArithFold f g) (hcast : ∀ m n : Int, ((f m n : Int) : ℝ) = g m n)
    (hunit : ∀ r, g r u = r) (h : ArithVal I T (.app k cs) r) :
    cs ≠ [] ∧ ∃ xs, Forall₂ (ArithVal I T) cs xs ∧ r = xs.foldr g u := by
  obtain ⟨v, hv, hnum⟩ := h
  obtain ⟨vs, hvs, hk'⟩ := eval_app_iff.1 hv
  rw [hk] at hk'
  obtain ⟨hne, xs, hxs⟩ := fold_inv hk'
  rw [hnum.1] at hxs
  have hcs := forall₂_arithVal hvs hxs
  have hne' : cs ≠ [] := by
    rintro rfl
    cases hvs
    exact hne rfl
  exact ⟨hne', xs, hcs, ((arithVal_fold hk hcast hunit hcs hne').unique ⟨v, hv, hnum⟩).2⟩

lemma arithVal_add (h : Forall₂ (ArithVal I T) cs xs) (hne : cs ≠ []) :
    ArithVal I T (.app .add cs) xs.sum := by
  rw [List.sum_eq_foldr]
  exact arithVal_fold (k := .add) rfl (by simp) (by simp) h hne

lemma arithVal_add_inv (h : ArithVal I T (.app .add cs) r) :
    cs ≠ [] ∧ ∃ xs, Forall₂ (ArithVal I T) cs xs ∧ r = xs.sum := by
  obtain ⟨hne, xs, hxs, rfl⟩ := arithVal_fold_inv (k := .add) (u := 0) rfl (by simp) (by simp) h
  exact ⟨hne, xs, hxs, List.sum_eq_foldr.symm⟩

/-- The two kinds of products. -/
def IsMult (k : Kind) : Prop := k = .mult ∨ k = .nonlinearMult

lemma kindVal_isMult (hk : IsMult k) : kindVal I k = vArithFold (· * ·) (· * ·) := by
  rcases hk with rfl | rfl
  · rfl
  · rfl

lemma arithVal_mult (hk : IsMult k) (h : Forall₂ (ArithVal I T) cs xs) (hne : cs ≠ []) :
    ArithVal I T (.app k cs) xs.prod := by
  rw [List.prod_eq_foldr]
  exact arithVal_fold (kindVal_isMult hk) (by simp) (by simp) h hne

lemma arithVal_mult_inv (hk : IsMult k) (h : ArithVal I T (.app k cs) r) :
    cs ≠ [] ∧ ∃ xs, Forall₂ (ArithVal I T) cs xs ∧ r = xs.prod := by
  obtain ⟨hne, xs, hxs, rfl⟩ :=
    arithVal_fold_inv (u := 1) (kindVal_isMult hk) (by simp) (by simp) h
  exact ⟨hne, xs, hxs, List.prod_eq_foldr.symm⟩

lemma arithVal_mult_two (ha : ArithVal I T a x) (hb : ArithVal I T b y) :
    ArithVal I T (.app .mult [a, b]) (x * y) := by
  have h := arithVal_mult (Or.inl rfl) (.cons ha (.cons hb .nil)) (cons_ne_nil _ _)
  simpa using h

lemma arithVal_mult_two_inv (h : ArithVal I T (.app .mult [a, b]) r) :
    ∃ x y, ArithVal I T a x ∧ ArithVal I T b y ∧ r = x * y := by
  obtain ⟨-, xs, hxs, rfl⟩ := arithVal_mult_inv (Or.inl rfl) h
  obtain ⟨x, xs', hx, hxs', rfl⟩ := forall₂_cons_left_iff.1 hxs
  obtain ⟨y, ys, hy, hys, rfl⟩ := forall₂_cons_left_iff.1 hxs'
  cases hys
  exact ⟨x, y, hx, hy, by simp⟩

lemma arithVal_add_two (ha : ArithVal I T a x) (hb : ArithVal I T b y) :
    ArithVal I T (.app .add [a, b]) (x + y) := by
  have h := arithVal_add (.cons ha (.cons hb .nil)) (cons_ne_nil _ _)
  simpa using h

lemma arithVal_sub_inv (h : ArithVal I T (.app .sub cs) r) :
    ∃ a b x y, cs = [a, b] ∧ ArithVal I T a x ∧ ArithVal I T b y ∧ r = x - y := by
  obtain ⟨v, hv, hnum⟩ := h
  obtain ⟨vs, hvs, hk⟩ := eval_app_iff.1 hv
  change vArith2 _ _ vs = some v at hk
  rcases vArith2_inv hk with ⟨m, n, rfl, rfl⟩ | ⟨p, q, rfl, rfl⟩
  · obtain ⟨a, as, ha, has, rfl⟩ := forall₂_cons_right_iff.1 hvs
    obtain ⟨b, bs, hb, hbs, rfl⟩ := forall₂_cons_right_iff.1 has
    cases hbs
    obtain ⟨rfl, hr⟩ := hnum
    refine ⟨a, b, m, n, rfl, arithVal_of_int ha, arithVal_of_int hb, ?_⟩
    cases hr
    exact Int.cast_sub m n
  obtain ⟨a, as, ha, has, rfl⟩ := forall₂_cons_right_iff.1 hvs
  obtain ⟨b, bs, hb, hbs, rfl⟩ := forall₂_cons_right_iff.1 has
  cases hbs
  obtain ⟨rfl, hr⟩ := hnum
  exact ⟨a, b, p, q, rfl, arithVal_real_iff.2 ha, arithVal_real_iff.2 hb, (some.inj hr).symm⟩

lemma arithVal_neg_inv (h : ArithVal I T (.app .neg cs) r) :
    ∃ a x, cs = [a] ∧ ArithVal I T a x ∧ r = -x := by
  obtain ⟨v, hv, hnum⟩ := h
  obtain ⟨vs, hvs, hk⟩ := eval_app_iff.1 hv
  change vArith1 _ _ vs = some v at hk
  rcases vArith1_inv hk with ⟨m, rfl, rfl⟩ | ⟨p, rfl, rfl⟩
  · obtain ⟨a, as, ha, has, rfl⟩ := forall₂_cons_right_iff.1 hvs
    cases has
    obtain ⟨rfl, hr⟩ := hnum
    refine ⟨a, m, rfl, arithVal_of_int ha, ?_⟩
    cases hr
    exact Int.cast_neg m
  obtain ⟨a, as, ha, has, rfl⟩ := forall₂_cons_right_iff.1 hvs
  cases has
  obtain ⟨rfl, hr⟩ := hnum
  exact ⟨a, p, rfl, arithVal_real_iff.2 ha, (some.inj hr).symm⟩

end ArithValues

/-! ## Sequences -/

section SeqShapes

variable {U : Nat → Type} {vs : List (Val U)} {r : Val U}

lemma vSeq1_inv {f : ∀ T, List (Dom U T) → Val U} (h : vSeq1 f vs = some r) :
    ∃ (T : Ty) (l : List (Dom U T)), vs = [Val.seq T l] ∧ r = f T l := by
  unfold vSeq1 at h
  split at h
  · rename_i T l
    exact ⟨T, l, rfl, (some.inj h).symm⟩
  · cases h

lemma vAny1_inv {f : ∀ T, Dom U T → Val U} (h : vAny1 f vs = some r) :
    ∃ (T : Ty) (x : Dom U T), vs = [⟨T, x⟩] ∧ r = f T x := by
  unfold vAny1 at h
  split at h
  · rename_i T x
    exact ⟨T, x, rfl, (some.inj h).symm⟩
  · cases h

lemma vSubstr_inv (h : vSubstr vs = some r) :
    ∃ (T : Ty) (l : List (Dom U T)) (n m : Int), vs = [Val.seq T l, Val.int n, Val.int m] ∧
      r = Val.seq T (Words.substr l n m) := by
  unfold vSubstr at h
  split at h
  · rename_i T l n m
    exact ⟨T, l, n, m, rfl, (some.inj h).symm⟩
  · cases h

lemma vSeq3_inv {f : ∀ T, List (Dom U T) → List (Dom U T) → List (Dom U T) → List (Dom U T)}
    (h : vSeq3 f vs = some r) : ∃ (T : Ty) (x y z : List (Dom U T)),
      vs = [Val.seq T x, Val.seq T y, Val.seq T z] ∧ r = Val.seq T (f T x y z) := by
  unfold vSeq3 at h
  split at h
  swap
  · cases h
  rename_i T x T' y T'' z
  split at h
  swap
  · cases h
  rename_i hT
  subst hT
  split at h
  · rename_i hT'
    subst hT'
    exact ⟨_, x, y, z, rfl, (some.inj h).symm⟩
  · cases h

open Classical in
lemma vIndexof_inv (h : vIndexof vs = some r) :
    ∃ (T : Ty) (x y : List (Dom U T)) (n : Int), vs = [Val.seq T x, Val.seq T y, Val.int n] ∧
      r = Val.int (Words.indexof x y n) := by
  unfold vIndexof at h
  split at h
  swap
  · cases h
  rename_i T x T' y n
  split at h
  · rename_i hT
    subst hT
    exact ⟨_, x, y, n, rfl, (some.inj h).symm⟩
  · cases h

lemma vSeqFold_inv (h : vSeqFold vs = some r) : vs ≠ [] ∧
    ∃ (T : Ty) (ls : List (List (Dom U T))), vs = ls.map (Val.seq T) ∧
      r = Val.seq T ls.flatten := by
  induction vs generalizing r with
  | nil => cases h
  | cons v vs ih =>
    refine ⟨cons_ne_nil _ _, ?_⟩
    cases vs with
    | nil =>
      obtain ⟨T, l, heq, rfl⟩ := vSeq1_inv h
      cases heq
      exact ⟨T, [l], rfl, by rw [List.flatten_cons, List.flatten_nil, List.append_nil]⟩
    | cons w ws =>
      obtain ⟨s, hs, h⟩ := bind_inv h
      obtain ⟨-, T, ls, hls, rfl⟩ := ih hs
      obtain ⟨T', x, y, heq, rfl⟩ := vSeq2_inv h
      rw [List.cons.injEq, List.cons.injEq] at heq
      obtain ⟨rfl, hy, -⟩ := heq
      obtain rfl := Ty.seq.inj (congrArg Sigma.fst hy)
      cases Val.mk_inj.1 hy
      exact ⟨_, x :: ls, by rw [List.map_cons, hls], rfl⟩

lemma vSeqFold_map {T : Ty} (ls : List (List (Dom U T))) (hne : ls ≠ []) :
    vSeqFold (ls.map (Val.seq T) : List (Val U)) = some (Val.seq T ls.flatten) := by
  induction ls with
  | nil => exact absurd rfl hne
  | cons l ls ih =>
    cases ls with
    | nil =>
      rw [List.flatten_cons, List.flatten_nil, List.append_nil]
      rfl
    | cons l' ls =>
      change (vSeqFold ((l' :: ls).map (Val.seq T))).bind _ = _
      rw [ih (cons_ne_nil _ _)]
      exact dif_pos rfl

end SeqShapes

section SeqValues

variable {Γ : Nat → Ty} (I : Interp Γ)

/-- The node has the sequence `l` as its value. -/
def SeqVal (T : Ty) (s : Node) (l : List (Dom I.U T)) : Prop := eval I s = some (Val.seq T l)

variable {I} {a b c s : Node} {cs : List Node} {v : Val I.U}

lemma eval_strLen_iff : eval I (.app .strLen [s]) = some v ↔
    ∃ T l, SeqVal I T s l ∧ v = Val.int l.length := by
  rw [eval_app_one_iff]
  constructor
  · rintro ⟨x, hx, hk⟩
    obtain ⟨T, l, heq, rfl⟩ := vSeq1_inv hk
    cases heq
    exact ⟨T, l, hx, rfl⟩
  · rintro ⟨T, l, hl, rfl⟩
    exact ⟨_, hl, rfl⟩

variable {T : Ty}

variable {l : List (Dom I.U T)} {r : ℝ}

lemma arithVal_len (h : SeqVal I T s l) : ArithVal I .int (.app .strLen [s]) l.length := by
  have hlen := arithVal_of_int (eval_strLen_iff.2 ⟨T, l, h, rfl⟩)
  rwa [Int.cast_natCast] at hlen

lemma arithVal_strLen_nonneg (h : ArithVal I T (.app .strLen cs) r) : 0 ≤ r := by
  obtain ⟨v, hv, hnum⟩ := h
  obtain ⟨vs, _, hk⟩ := eval_app_iff.1 hv
  obtain ⟨S, l, -, rfl⟩ := vSeq1_inv hk
  rw [← some.inj hnum.2]
  exact Int.cast_nonneg (Int.natCast_nonneg _)

lemma seqVal_concat_iff : SeqVal I T (.app .strConcat cs) l ↔
      cs ≠ [] ∧ ∃ ls, Forall₂ (SeqVal I T) cs ls ∧ l = ls.flatten := by
  unfold SeqVal
  rw [eval_app_iff]
  constructor
  · rintro ⟨vs, hvs, hk⟩
    obtain ⟨hne, S, ls, rfl, heq⟩ := vSeqFold_inv hk
    obtain rfl := Ty.seq.inj (congrArg Sigma.fst heq)
    refine ⟨?_, ls, (List.forall₂_map_right_iff (f := Val.seq T)).1 hvs, Val.mk_inj.1 heq⟩
    rintro rfl
    cases ls with
    | nil => exact hne rfl
    | cons l' ls => cases hvs
  · rintro ⟨hne, ls, hls, rfl⟩
    refine ⟨ls.map (Val.seq T), (List.forall₂_map_right_iff (f := Val.seq T)).2 hls,
      vSeqFold_map ls ?_⟩
    rintro rfl
    cases hls
    exact hne rfl

lemma seqVal_substr_inv (h : SeqVal I T (.app .strSubstr [a, b, c]) l) :
    ∃ x n m, SeqVal I T a x ∧ eval I b = some (.int n) ∧ eval I c = some (.int m) ∧
      l = Words.substr x n m := by
  obtain ⟨u, v, w, ha, hb, hc, hk⟩ := eval_app_three_iff.1 h
  obtain ⟨S, x, n, m, heq, hval⟩ := vSubstr_inv hk
  cases heq
  obtain rfl := Ty.seq.inj (congrArg Sigma.fst hval)
  exact ⟨x, n, m, ha, hb, hc, Val.mk_inj.1 hval⟩

open Classical in
lemma seqVal_replace_inv (h : SeqVal I T (.app .strReplace [a, b, c]) l) :
    ∃ x y z, SeqVal I T a x ∧ SeqVal I T b y ∧ SeqVal I T c z ∧ l = Words.replace x y z := by
  obtain ⟨u, v, w, ha, hb, hc, hk⟩ := eval_app_three_iff.1 h
  obtain ⟨S, x, y, z, heq, hval⟩ := vSeq3_inv hk
  cases heq
  obtain rfl := Ty.seq.inj (congrArg Sigma.fst hval)
  exact ⟨x, y, z, ha, hb, hc, Val.mk_inj.1 hval⟩

lemma seqVal_itos_inv (h : SeqVal I T (.app .strItos [a]) l) :
    ∃ z : Int, eval I a = some (.int z) ∧ l.length = (strFromInt z).length := by
  obtain ⟨u, ha, hk⟩ := eval_app_one_iff.1 h
  obtain ⟨z, heq, hval⟩ := vInt1_inv hk
  cases heq
  obtain rfl := Ty.seq.inj (congrArg Sigma.fst hval)
  exact ⟨z, ha, congrArg List.length (Val.mk_inj.1 hval)⟩

open Classical in
lemma arithVal_indexof_inv (h : ArithVal I .int (.app .strIndexof [a, b, c]) r) :
    ∃ (T : Ty) (x y : List (Dom I.U T)) (n : Int), SeqVal I T a x ∧ SeqVal I T b y ∧
      r = Words.indexof x y n := by
  obtain ⟨z, hz, rfl⟩ := arithVal_int_iff.1 h
  obtain ⟨u, v, w, ha, hb, hc, hk⟩ := eval_app_three_iff.1 hz
  obtain ⟨T, x, y, n, heq, hval⟩ := vIndexof_inv hk
  cases heq
  exact ⟨T, x, y, n, ha, hb, congrArg Int.cast (Val.mk_inj.1 hval)⟩

lemma arithVal_stoi_inv (h : ArithVal I .int (.app .strStoi [a]) r) :
    ∃ s : Str, r = strToInt s := by
  obtain ⟨z, hz, rfl⟩ := arithVal_int_iff.1 h
  obtain ⟨u, ha, hk⟩ := eval_app_one_iff.1 hz
  obtain ⟨s, _, hval⟩ := vStr1_inv hk
  exact ⟨s, congrArg Int.cast (Val.mk_inj.1 hval)⟩

end SeqValues

/-! ## Types -/

section Types

variable {Γ : Nat → Ty} {I : Interp Γ} {k : Kind} {vs : List (Val I.U)} {v : Val I.U}

lemma vApply_resultTy {U : Nat → Type} {f v : Val U} {vs : List (Val U)}
    (h : vApply f vs = some v) : resultTy f.1 vs.length = some v.1 := by
  induction vs generalizing f with
  | nil =>
    rw [vApply] at h
    cases h
    rw [List.length_nil, resultTy]
  | cons w ws ih =>
    obtain ⟨S, g⟩ := f
    cases S with
    | fn A B =>
      obtain ⟨V, x⟩ := w
      simp only [vApply] at h
      split at h
      · rename_i hV
        exact ih h
      · cases h
    | _ => cases h

variable {T : Ty} {n : Node}

lemma sumTy_of_isNum {U : Nat → Type} {vs : List (Val U)} {xs : List ℝ}
    (h : Forall₂ (IsNum T) vs xs) (hne : vs ≠ []) : sumTy (vs.map Sigma.fst) = T := by
  have hall : ∀ v ∈ vs, v.1 = T ∧ T.isArithType = true := by
    clear hne
    induction h with
    | nil => simp
    | cons hx _ ih => exact List.forall_mem_cons.2 ⟨⟨hx.1, hx.isArithType⟩, ih⟩
  obtain ⟨v, ws, rfl⟩ := List.exists_cons_of_ne_nil hne
  obtain ⟨hv, hT⟩ := hall v (.head _)
  cases T with
  | int =>
    refine if_pos ?_
    simp only [List.all_map, List.all_eq_true, Function.comp, decide_eq_true_eq]
    exact fun w hw => (hall w hw).1
  | real =>
    refine if_neg ?_
    simp [hv]
  | _ => cases hT

lemma type_of_kindVal (h : kindVal I k vs = some v) : (match preComputeType k with
      | some T => some T
      | none => computeType Γ k (vs.map Sigma.fst)) = some v.1 := by
  cases k with
  | equal =>
    obtain ⟨T, x, y, -, rfl⟩ := vEq_inv h
    rfl
  | geq =>
    rcases vRel_inv h with ⟨x, y, -, rfl⟩ | ⟨x, y, -, rfl⟩
    · rfl
    · rfl
  | not =>
    obtain ⟨x, -, rfl⟩ := vBool1_inv h
    rfl
  | add | mult | nonlinearMult =>
    obtain ⟨hne, xs, hxs⟩ := fold_inv h
    exact congrArg some (sumTy_of_isNum hxs hne)
  | sub =>
    rcases vArith2_inv h with ⟨x, y, rfl, rfl⟩ | ⟨x, y, rfl, rfl⟩
    · rfl
    · rfl
  | neg =>
    rcases vArith1_inv h with ⟨x, rfl, rfl⟩ | ⟨x, rfl, rfl⟩
    · rfl
    · rfl
  | toReal =>
    simp only [kindVal] at h
    split at h
    · cases h
      rfl
    · cases h
  | division | divisionTotal =>
    simp only [kindVal, kindVal.vArith2R.eq_def] at h
    split at h
    · cases h
      rfl
    · cases h
  | strLen =>
    obtain ⟨T, l, -, rfl⟩ := vSeq1_inv h
    rfl
  | strConcat =>
    obtain ⟨hne, T, ls, rfl, rfl⟩ := vSeqFold_inv h
    cases ls with
    | nil => exact absurd rfl hne
    | cons l ls =>
      refine if_pos ?_
      simp only [List.map_map, List.all_map, List.all_eq_true, Function.comp,
        decide_eq_true_eq]
      exact fun _ _ => trivial
  | strSubstr =>
    obtain ⟨T, l, n, m, rfl, rfl⟩ := vSubstr_inv h
    rfl
  | strReplace =>
    obtain ⟨T, x, y, z, rfl, rfl⟩ := vSeq3_inv h
    rfl
  | strItos =>
    obtain ⟨z, -, rfl⟩ := vInt1_inv h
    rfl
  | strIndexof =>
    obtain ⟨T, x, y, n, -, rfl⟩ := vIndexof_inv h
    rfl
  | strStoi =>
    obtain ⟨s, -, rfl⟩ := vStr1_inv h
    rfl
  | seqUnit =>
    obtain ⟨T, x, rfl, rfl⟩ := vAny1_inv h
    rfl
  | strUnit =>
    obtain ⟨z, -, rfl⟩ := vInt1_inv h
    rfl
  | applyUf =>
    match vs, h with
    | f :: vs, h =>
      change resultTy f.1 (vs.map Sigma.fst).length = some v.1
      rw [List.length_map]
      exact vApply_resultTy h
  | other f =>
    change resultTy (Γ f) (vs.map Sigma.fst).length = some v.1
    rw [List.length_map]
    exact vApply_resultTy h

lemma typesOf_eq_some {cs : List Node} {Ts : List Ty} :
    typesOf Γ cs = some Ts ↔ Forall₂ (fun c T => typeOf Γ c = some T) cs Ts :=
  readings_eq_some (by rw [typesOf]) fun _ _ => by rw [typesOf]

lemma typeOf_of_eval (h : eval I n = some v) : typeOf Γ n = some v.1 := by
  induction n generalizing v with
  | constBoolean b | constInteger z | constRational q | constString s =>
    rw [eval] at h
    cases h
    rfl
  | constSequence T es =>
    rw [eval] at h
    obtain ⟨l, -, rfl⟩ := map_inv h
    rfl
  | var n =>
    rw [eval] at h
    cases h
    rfl
  | app k ds ih =>
    obtain ⟨vs, hvs, hk⟩ := eval_app_iff.1 h
    have hts : typesOf Γ ds = some (vs.map Sigma.fst) := by
      refine typesOf_eq_some.2 (List.forall₂_map_right_iff.2 ?_)
      clear h hk
      induction hvs with
      | nil => exact .nil
      | cons hc _ ihvs =>
        obtain ⟨ihc, ihcs⟩ := List.forall_mem_cons.1 ih
        exact .cons (ihc hc) (ihvs ihcs)
    rw [typeOf, hts]
    exact type_of_kindVal hk

lemma ArithVal.typeOf_eq {r : ℝ} (h : ArithVal I T n r) : typeOf Γ n = some T := by
  obtain ⟨v, hv, rfl, -⟩ := h
  exact typeOf_of_eval hv

lemma ArithVal.isArithType {r : ℝ} (h : ArithVal I T n r) : T.isArithType = true := by
  obtain ⟨v, _, hnum⟩ := h
  exact hnum.isArithType

end Types

end EthosCpc.Cvc5.Entail
