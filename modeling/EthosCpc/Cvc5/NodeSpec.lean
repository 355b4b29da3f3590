import EthosCpc.Cvc5.Node

/-!
# Values of nodes

Proofs about the arithmetic checkers compute with real numbers.  `NumVal I n r`
says that the node `n` has the number `r` as its value, whatever mixture of
`Int` and `Real` it is made of, and `TruthVal I F p` that the formula `F` is
true exactly if `p` is.  A well-typed node has a value of its type
(`eval_of_typeOf`).
-/

namespace EthosCpc.Cvc5

open Option (some.inj)
open List (Forall₂ forall_mem_cons map_cons)

/-! ## Values of applications -/

section Values

variable {Γ : Nat → Ty} {I : Interp Γ}

variable {vs : List (Val I.U)}

lemma readings_eq_some {α β : Type*} {f : α → Option β} {g : List α → Option (List β)}
    (hnil : g [] = some []) (hcons : ∀ c cs, g (c :: cs) = (f c).bind fun v => (g cs).map (v :: ·))
    {cs : List α} {vs : List β} : g cs = some vs ↔ Forall₂ (fun c v => f c = some v) cs vs := by
  induction cs generalizing vs with
  | nil =>
    rw [hnil, Option.some.injEq, List.forall₂_nil_left_iff]
    exact eq_comm
  | cons c cs ih =>
    rw [hcons, List.forall₂_cons_left_iff]
    constructor
    · intro h
      obtain ⟨v, hv, h⟩ := bind_inv h
      obtain ⟨vs', hvs', rfl⟩ := map_inv h
      exact ⟨v, vs', hv, ih.1 hvs', rfl⟩
    · rintro ⟨v, vs', hv, hvs', rfl⟩
      rw [hv, ih.2 hvs']
      rfl

lemma evalList_eq_some {cs : List Node} :
    evalList I cs = some vs ↔ Forall₂ (fun c v => eval I c = some v) cs vs :=
  readings_eq_some (by rw [evalList]) fun _ _ => by rw [evalList]

lemma eval_app_inv {k : Kind} {cs : List Node} {r : Val I.U} (h : eval I (.app k cs) = some r) :
    ∃ vs, Forall₂ (fun c v => eval I c = some v) cs vs ∧ kindVal I k vs = some r := by
  rw [eval] at h
  obtain ⟨vs, hvs, h⟩ := bind_inv h
  exact ⟨vs, evalList_eq_some.1 hvs, h⟩

lemma eval_app {k : Kind} {cs : List Node} (h : Forall₂ (fun c v => eval I c = some v) cs vs) :
    eval I (.app k cs) = kindVal I k vs := by
  rw [eval, evalList_eq_some.2 h]
  rfl

variable {v w : Val I.U}

lemma eval_app_two {k : Kind} {a b : Node} (ha : eval I a = some v)
    (hb : eval I b = some w) : eval I (.app k [a, b]) = kindVal I k [v, w] :=
  eval_app (.cons ha (.cons hb .nil))

lemma eval_app_two_inv {k : Kind} {a b : Node} {r : Val I.U} (h : eval I (.app k [a, b]) = some r) :
    ∃ v w, eval I a = some v ∧ eval I b = some w ∧ kindVal I k [v, w] = some r := by
  obtain ⟨vs, hvs, h⟩ := eval_app_inv h
  cases hvs with
  | cons ha hvs =>
    cases hvs with
    | cons hb hvs =>
      cases hvs
      exact ⟨_, _, ha, hb, h⟩

lemma eval_app_one {k : Kind} {a : Node} {v : Val I.U} (ha : eval I a = some v) :
    eval I (.app k [a]) = kindVal I k [v] :=
  eval_app (.cons ha .nil)

lemma eval_app_one_inv {k : Kind} {a : Node} {r : Val I.U} (h : eval I (.app k [a]) = some r) :
    ∃ v, eval I a = some v ∧ kindVal I k [v] = some r := by
  obtain ⟨vs, hvs, h⟩ := eval_app_inv h
  cases hvs with
  | cons ha hvs =>
    cases hvs
    exact ⟨_, ha, h⟩

/-! ## Numbers -/

variable (I)

/-- The node has the number `r` as its value. -/
def NumVal (n : Node) (r : ℝ) : Prop := ∃ v, eval I n = some v ∧ numOf v = some r

def TruthVal (F : Node) (p : Prop) : Prop := eval I F = some (.bool (truth p))

variable {I}

variable {n : Node}

lemma NumVal.unique {r r' : ℝ} (h : NumVal I n r) (h' : NumVal I n r') : r' = r := by
  obtain ⟨v, hv, hr⟩ := h
  obtain ⟨v', hv', hr'⟩ := h'
  cases hv.symm.trans hv'
  exact some.inj (hr'.symm.trans hr)

lemma TruthVal.holds {F : Node} {p : Prop} (h : TruthVal I F p) : Holds I F ↔ p := by
  unfold Holds TruthVal at *
  rw [h]
  simp

variable {U : Nat → Type}

lemma numOf_inv {v : Val U} {r : ℝ} (h : numOf v = some r) :
    (∃ z : Int, v = Val.int z ∧ r = z) ∨ v = Val.real r := by
  obtain ⟨T, x⟩ := v
  cases T with
  | int => exact .inl ⟨x, rfl, (some.inj h).symm⟩
  | real =>
    right
    cases some.inj h
    rfl
  | _ => contradiction

variable {g : ℝ → ℝ → ℝ} {f : Int → Int → Int}

lemma numOf_vNum2 {v w : Val U}
    {x y : ℝ} (hcast : ∀ m n : Int, ((f m n : Int) : ℝ) = g m n) (hv : numOf v = some x)
    (hw : numOf w = some y) : ∃ u, vNum2 f g v w = some u ∧ numOf u = some (g x y) := by
  rcases numOf_inv hv with ⟨m, rfl, rfl⟩ | rfl
  · rcases numOf_inv hw with ⟨n, rfl, rfl⟩ | rfl
    · exact ⟨_, rfl, congrArg some (hcast m n)⟩
    · exact ⟨_, rfl, rfl⟩
  rcases numOf_inv hw with ⟨n, rfl, rfl⟩ | rfl
  · exact ⟨_, rfl, rfl⟩
  · exact ⟨_, rfl, rfl⟩

lemma vNum2_inv {v w u : Val U}
    (h : vNum2 f g v w = some u) : ∃ x y, numOf v = some x ∧ numOf w = some y := by
  unfold vNum2 at h
  split at h
  · exact ⟨_, _, rfl, rfl⟩
  obtain ⟨x, hx, h⟩ := bind_inv h
  obtain ⟨y, hy, _⟩ := map_inv h
  exact ⟨x, y, hx, hy⟩

variable {u : Int}

lemma numOf_vNumFold
    (hcast : ∀ m n : Int, ((f m n : Int) : ℝ) = g m n) {vs : List (Val U)} {xs : List ℝ}
    (h : Forall₂ (fun v x => numOf v = some x) vs xs) :
    ∃ r, vNumFold f g u vs = some r ∧ numOf r = some (xs.foldr g u) := by
  induction h with
  | nil => exact ⟨_, rfl, rfl⟩
  | cons hv _ ih =>
    obtain ⟨r, hr, hnum⟩ := ih
    obtain ⟨r', hr', hnum'⟩ := numOf_vNum2 hcast hv hnum
    refine ⟨r', ?_, hnum'⟩
    rw [vNumFold, hr]
    exact hr'

lemma vNumFold_inv {vs : List (Val U)} {r : Val U} (h : vNumFold f g u vs = some r) :
    ∃ xs, Forall₂ (fun v x => numOf v = some x) vs xs := by
  induction vs generalizing r with
  | nil => exact ⟨[], .nil⟩
  | cons v vs ih =>
    obtain ⟨r', hr', h⟩ := bind_inv h
    obtain ⟨xs, hxs⟩ := ih hr'
    obtain ⟨x, _, hx, _⟩ := vNum2_inv h
    exact ⟨x :: xs, .cons hx hxs⟩

lemma forall₂_numVal {cs : List Node} {xs : List ℝ}
    (hvs : Forall₂ (fun c v => eval I c = some v) cs vs)
    (hxs : Forall₂ (fun v x => numOf v = some x) vs xs) :
    Forall₂ (NumVal I) cs xs := by
  induction hvs generalizing xs with
  | nil =>
    cases hxs
    exact .nil
  | cons hv _ ih =>
    cases hxs with
    | cons hx hxs => exact .cons ⟨_, hv, hx⟩ (ih hxs)

lemma forall₂_numVal_inv {cs : List Node} {xs : List ℝ} (h : Forall₂ (NumVal I) cs xs) :
    ∃ vs, Forall₂ (fun c v => eval I c = some v) cs vs ∧
      Forall₂ (fun v x => numOf v = some x) vs xs := by
  induction h with
  | nil => exact ⟨[], .nil, .nil⟩
  | cons hc _ ih =>
    obtain ⟨v, hv, hx⟩ := hc
    obtain ⟨vs, hvs, hxs⟩ := ih
    exact ⟨v :: vs, .cons hv hvs, .cons hx hxs⟩

section Operations

variable {cs : List Node} {a b : Node} {xs : List ℝ} {x y r : ℝ}

variable {k : Kind}

lemma numVal_fold {f : Int → Int → Int} {g : ℝ → ℝ → ℝ} {u : Int}
    (hk : kindVal I k = vNumFold f g u) (hcast : ∀ m n : Int, ((f m n : Int) : ℝ) = g m n)
    (h : Forall₂ (NumVal I) cs xs) : NumVal I (.app k cs) (xs.foldr g u) := by
  obtain ⟨vs, hvs, hxs⟩ := forall₂_numVal_inv h
  obtain ⟨r, hr, hnum⟩ := numOf_vNumFold (u := u) hcast hxs
  exact ⟨r, by rw [eval_app hvs, hk, hr], hnum⟩

lemma numVal_fold_inv {f : Int → Int → Int} {g : ℝ → ℝ → ℝ} {u : Int}
    (hk : kindVal I k = vNumFold f g u) (hcast : ∀ m n : Int, ((f m n : Int) : ℝ) = g m n)
    (h : NumVal I (.app k cs) r) : ∃ xs, Forall₂ (NumVal I) cs xs ∧ r = xs.foldr g u := by
  obtain ⟨v, hv, hnum⟩ := h
  obtain ⟨vs, hvs, hk'⟩ := eval_app_inv hv
  rw [hk] at hk'
  obtain ⟨xs, hxs⟩ := vNumFold_inv hk'
  have hcs := forall₂_numVal hvs hxs
  exact ⟨xs, hcs, (numVal_fold hk hcast hcs).unique ⟨v, hv, hnum⟩⟩

lemma numVal_add (h : Forall₂ (NumVal I) cs xs) : NumVal I (.app .add cs) xs.sum := by
  have hsum := numVal_fold (k := .add) (I := I) rfl (by simp) h
  rwa [Int.cast_zero, ← List.sum_eq_foldr] at hsum

lemma numVal_add_inv (h : NumVal I (.app .add cs) r) :
    ∃ xs, Forall₂ (NumVal I) cs xs ∧ r = xs.sum := by
  obtain ⟨xs, hxs, rfl⟩ := numVal_fold_inv (k := .add) rfl (by simp) h
  exact ⟨xs, hxs, by rw [Int.cast_zero, ← List.sum_eq_foldr]⟩

/-- The two kinds of products. -/
def IsMult (k : Kind) : Prop := k = .mult ∨ k = .nonlinearMult

lemma kindVal_isMult (hk : IsMult k) : kindVal I k = vNumFold (· * ·) (· * ·) 1 := by
  rcases hk with rfl | rfl
  · rfl
  · rfl

lemma numVal_mult (hk : IsMult k) (h : Forall₂ (NumVal I) cs xs) :
    NumVal I (.app k cs) xs.prod := by
  have hprod := numVal_fold (kindVal_isMult hk) (by simp) h
  rwa [Int.cast_one, ← List.prod_eq_foldr] at hprod

lemma numVal_mult_inv (hk : IsMult k) (h : NumVal I (.app k cs) r) :
    ∃ xs, Forall₂ (NumVal I) cs xs ∧ r = xs.prod := by
  obtain ⟨xs, hxs, rfl⟩ := numVal_fold_inv (kindVal_isMult hk) (by simp) h
  exact ⟨xs, hxs, by rw [Int.cast_one, ← List.prod_eq_foldr]⟩

lemma numVal_mult_two (hk : IsMult k) (ha : NumVal I a x) (hb : NumVal I b y) :
    NumVal I (.app k [a, b]) (x * y) := by
  have h := numVal_mult hk (.cons ha (.cons hb .nil))
  simpa using h

lemma numVal_add_two (ha : NumVal I a x) (hb : NumVal I b y) :
    NumVal I (.app .add [a, b]) (x + y) := by
  have h := numVal_add (.cons ha (.cons hb .nil))
  simpa using h

lemma numVal_sub (ha : NumVal I a x) (hb : NumVal I b y) : NumVal I (.app .sub [a, b]) (x - y) := by
  obtain ⟨v, hv, hx⟩ := ha
  obtain ⟨w, hw, hy⟩ := hb
  obtain ⟨u, hu, hnum⟩ :=
    numOf_vNum2 (f := (· - ·)) (g := (· - ·)) (fun m n => Int.cast_sub m n) hx hy
  exact ⟨u, by rw [eval_app_two hv hw]; exact hu, hnum⟩

lemma numVal_sub_inv (h : NumVal I (.app .sub [a, b]) r) :
    ∃ x y, NumVal I a x ∧ NumVal I b y ∧ r = x - y := by
  obtain ⟨u, hu, hnum⟩ := h
  obtain ⟨v, w, hv, hw, hk⟩ := eval_app_two_inv hu
  obtain ⟨x, y, hx, hy⟩ := vNum2_inv (show vNum2 _ _ v w = some u from hk)
  have hsub := numVal_sub ⟨v, hv, hx⟩ ⟨w, hw, hy⟩
  exact ⟨x, y, ⟨v, hv, hx⟩, ⟨w, hw, hy⟩, hsub.unique ⟨u, hu, hnum⟩⟩

lemma numVal_arith1 {f : Int → Int} {g : ℝ → ℝ} (hk : kindVal I k = vArith1 f g)
    (hcast : ∀ m : Int, ((f m : Int) : ℝ) = g m) (ha : NumVal I a x) :
    NumVal I (.app k [a]) (g x) := by
  obtain ⟨v, hv, hx⟩ := ha
  rcases numOf_inv hx with ⟨m, rfl, rfl⟩ | rfl
  · exact ⟨Val.int (f m), by rw [eval_app_one hv, hk]; rfl, congrArg some (hcast m)⟩
  · exact ⟨_, by rw [eval_app_one hv, hk]; rfl, rfl⟩

lemma numVal_arith1_inv {f : Int → Int} {g : ℝ → ℝ}
    (hk : kindVal I k = vArith1 f g) (hcast : ∀ m : Int, ((f m : Int) : ℝ) = g m)
    (h : NumVal I (.app k [a]) r) : ∃ x, NumVal I a x ∧ r = g x := by
  obtain ⟨u, hu, hnum⟩ := h
  obtain ⟨v, hv, hk'⟩ := eval_app_one_inv hu
  rw [hk] at hk'
  obtain ⟨x, hx⟩ : ∃ x, numOf v = some x := by
    rcases vArith1_inv hk' with ⟨m, heq, -⟩ | ⟨m, heq, -⟩
    · cases heq
      exact ⟨_, rfl⟩
    · cases heq
      exact ⟨_, rfl⟩
  exact ⟨x, ⟨v, hv, hx⟩, (numVal_arith1 hk hcast ⟨v, hv, hx⟩).unique ⟨u, hu, hnum⟩⟩

lemma numVal_abs (ha : NumVal I a x) : NumVal I (.app .abs [a]) |x| :=
  numVal_arith1 rfl (by simp) ha

lemma numVal_toReal_inv (h : NumVal I (.app .toReal [a]) r) : NumVal I a r := by
  obtain ⟨u, hu, hnum⟩ := h
  obtain ⟨v, hv, hk⟩ := eval_app_one_inv hu
  refine ⟨v, hv, ?_⟩
  rcases vToReal_inv (show vToReal [v] = some u from hk) with ⟨m, heq, rfl⟩ | ⟨m, heq, rfl⟩
  · cases heq
    exact hnum
  · cases heq
    exact hnum

lemma numVal_rational {c : Node} {q : Rat} (h : c.rational? = some q) : NumVal I c q := by
  cases c with
  | constInteger z =>
    cases h
    refine ⟨_, by rw [eval], ?_⟩
    simp [numOf]
  | constRational q =>
    cases h
    exact ⟨_, by rw [eval], rfl⟩
  | _ => contradiction

/-! ## Relations -/

lemma truthVal_rel {p : ℝ → ℝ → Prop} (hk : kindVal I k = vNumRel p)
    (ha : NumVal I a x) (hb : NumVal I b y) : TruthVal I (.app k [a, b]) (p x y) := by
  obtain ⟨v, hv, hx⟩ := ha
  obtain ⟨w, hw, hy⟩ := hb
  unfold TruthVal
  rw [eval_app_two hv hw, hk, vNumRel, hx, hy]
  rfl

lemma holds_equal {a b : Node} :
    Holds I (.app .equal [a, b]) ↔ ∃ v, eval I a = some v ∧ eval I b = some v := by
  constructor
  · intro h
    obtain ⟨v, w, hv, hw, hk⟩ := eval_app_two_inv h
    obtain ⟨T, x, y, heq, hr⟩ := vEq_inv (show vEq [v, w] = some _ from hk)
    cases heq
    rw [Val.bool_inj] at hr
    have hxy : x = y := truth_eq_true.1 hr.symm
    exact ⟨_, hv, hxy ▸ hw⟩
  · rintro ⟨⟨T, x⟩, ha, hb⟩
    unfold Holds
    rw [eval_app_two ha hb]
    simp [kindVal, vEq]

end Operations

/-! ## Well-typed nodes have a value of their type -/

lemma numOf_of_isArithType {v : Val U} (h : v.1.isArithType = true) : ∃ x, numOf v = some x := by
  obtain ⟨T, x⟩ := v
  cases T with
  | int => exact ⟨_, rfl⟩
  | real => exact ⟨_, rfl⟩
  | _ => contradiction

lemma type_vNum2 {v w : Val U} (hv : v.1.isArithType = true) (hw : w.1.isArithType = true) :
    ∃ u, vNum2 f g v w = some u ∧ u.1 = if v.1 = .int ∧ w.1 = .int then .int else .real := by
  obtain ⟨T, x⟩ := v
  obtain ⟨S, y⟩ := w
  cases T with
  | int =>
    cases S with
    | int => exact ⟨_, rfl, rfl⟩
    | real => exact ⟨_, rfl, rfl⟩
    | _ => contradiction
  | real =>
    cases S with
    | int => exact ⟨_, rfl, rfl⟩
    | real => exact ⟨_, rfl, rfl⟩
    | _ => contradiction
  | _ => contradiction

lemma type_vNumFold {vs : List (Val U)} (h : ∀ v ∈ vs, v.1.isArithType = true) :
    ∃ r, vNumFold f g u vs = some r ∧ r.1 = if ∀ v ∈ vs, v.1 = .int then .int else .real := by
  induction vs with
  | nil => exact ⟨_, rfl, rfl⟩
  | cons v vs ih =>
    obtain ⟨hv, hvs⟩ := forall_mem_cons.1 h
    obtain ⟨r, hr, hty⟩ := ih hvs
    have harith : r.1.isArithType = true := by
      rw [hty]
      split
      · rfl
      · rfl
    obtain ⟨r', hr', hty'⟩ := type_vNum2 (f := f) (g := g) hv harith
    refine ⟨r', by rw [vNumFold, hr]; exact hr', ?_⟩
    rw [hty', hty]
    by_cases hall : ∀ v ∈ vs, v.1 = .int
    · simp only [forall_mem_cons, eq_true hall, if_true, and_true]
    · simp only [forall_mem_cons, eq_false hall, if_false, and_false, reduceCtorEq]

variable {T : Ty} {Ts : List Ty}

lemma arithTy_eq_some (h : arithTy Ts = some T) :
    (∀ S ∈ Ts, S.isArithType = true) ∧ T = if ∀ S ∈ Ts, S = .int then .int else .real := by
  unfold arithTy at h
  split at h
  swap
  · cases h
  rename_i hall
  refine ⟨by simpa using hall, ?_⟩
  cases h
  simp

lemma kindVal_of_arithTy (h : arithTy (vs.map Sigma.fst) = some T) :
    ∃ x : Dom I.U T, vNumFold f g u vs = some ⟨T, x⟩ := by
  obtain ⟨hall, hT⟩ := arithTy_eq_some h
  simp only [List.forall_mem_map] at hall hT
  obtain ⟨⟨S, x⟩, hr, hty⟩ := type_vNumFold (f := f) (g := g) (u := u) hall
  obtain rfl : S = T := hty.trans hT.symm
  exact ⟨x, hr⟩

lemma vNumRel_of_arithTy {p : ℝ → ℝ → Prop}
    (h : arithTy [v.1, w.1] = some T) : ∃ b : Bool, vNumRel p [v, w] = some (.bool b) := by
  obtain ⟨hall, _⟩ := arithTy_eq_some h
  obtain ⟨x, hx⟩ := numOf_of_isArithType (hall v.1 (by simp))
  obtain ⟨y, hy⟩ := numOf_of_isArithType (hall w.1 (by simp))
  rw [vNumRel, hx, hy]
  exact ⟨_, rfl⟩

lemma vNumDiv_of_arithTy {f : ℝ → ℝ → ℝ}
    (h : arithTy [v.1, w.1] = some T) : ∃ r : ℝ, vNumDiv f [v, w] = some (.real r) := by
  obtain ⟨hall, _⟩ := arithTy_eq_some h
  obtain ⟨x, hx⟩ := numOf_of_isArithType (hall v.1 (by simp))
  obtain ⟨y, hy⟩ := numOf_of_isArithType (hall w.1 (by simp))
  rw [vNumDiv, hx, hy]
  exact ⟨_, rfl⟩

lemma vNum2_of_arithTy
    (h : arithTy [v.1, w.1] = some T) : ∃ x : Dom I.U T, vNum2 f g v w = some ⟨T, x⟩ := by
  obtain ⟨hall, hT⟩ := arithTy_eq_some h
  obtain ⟨⟨S, x⟩, hr, hty⟩ :=
    type_vNum2 (f := f) (g := g) (hall v.1 (by simp)) (hall w.1 (by simp))
  obtain rfl : S = T := by
    rw [hT]
    simpa using hty
  exact ⟨x, hr⟩

lemma vArith1_of_arithTy {f : Int → Int} {g : ℝ → ℝ} {v : Val I.U}
    (h : arithTy [v.1] = some T) : ∃ x : Dom I.U T, vArith1 f g [v] = some ⟨T, x⟩ := by
  obtain ⟨S, x⟩ := v
  cases S with
  | int =>
    cases h
    exact ⟨_, rfl⟩
  | real =>
    cases h
    exact ⟨_, rfl⟩
  | _ => contradiction

lemma vBoolFold_of_bool {f : Bool → Bool → Bool} {u : Bool}
    {vs : List (Val U)} (h : ∀ v ∈ vs, v.1 = .bool) :
    ∃ b : Bool, vBoolFold f u vs = some (.bool b) := by
  induction vs with
  | nil => exact ⟨u, rfl⟩
  | cons v vs ih =>
    obtain ⟨hv, hvs⟩ := forall_mem_cons.1 h
    obtain ⟨b, hb⟩ := ih hvs
    obtain ⟨T, x⟩ := v
    cases hv
    rw [vBoolFold, hb]
    exact ⟨_, rfl⟩

lemma vBvFold_of_bitvec {f : ∀ w, BitVec w → BitVec w → BitVec w} {w : Nat}
    {vs : List (Val U)} (a : BitVec w) (h : ∀ v ∈ vs, v.1 = .bitvec w) :
    ∃ x : BitVec w, vBvFold f (.bitvec a :: vs) = some (.bitvec x) := by
  have hfold : ∀ b : BitVec w, ∃ x : BitVec w,
      vs.foldl (fun acc w => acc.bind fun a => vBv2 (fun n x y => .bitvec (f n x y)) [a, w])
        (some (Val.bitvec b)) = some (.bitvec x) := by
    induction vs with
    | nil => exact fun b => ⟨b, rfl⟩
    | cons v vs ih =>
      intro b
      obtain ⟨hv, hvs⟩ := forall_mem_cons.1 h
      obtain ⟨T, x⟩ := v
      cases hv
      obtain ⟨y, hy⟩ := ih hvs (f w b x)
      refine ⟨y, ?_⟩
      rw [List.foldl_cons, ← hy]
      simp only [Option.bind_some, vBv2, dif_pos]
  exact hfold a

lemma bvTy_eq_some (h : bvTy Ts = some T) :
    ∃ w Ss, Ts = .bitvec w :: Ss ∧ (∀ S ∈ Ss, S = .bitvec w) ∧ T = .bitvec w := by
  unfold bvTy at h
  split at h
  swap
  · cases h
  rename_i w Ss
  split at h
  · rename_i hall
    exact ⟨w, Ss, rfl, by simpa using hall, (some.inj h).symm⟩
  · cases h

lemma vBvFold_of_bvTy {f : ∀ w, BitVec w → BitVec w → BitVec w} {vs : List (Val I.U)} {T : Ty}
    (h : bvTy (vs.map Sigma.fst) = some T) : ∃ x : Dom I.U T, vBvFold f vs = some ⟨T, x⟩ := by
  obtain ⟨w, Ss, hmap, hall, rfl⟩ := bvTy_eq_some h
  cases vs with
  | nil => contradiction
  | cons v vs =>
    obtain ⟨S, a⟩ := v
    obtain ⟨hhead, htail⟩ := List.cons.inj hmap
    cases hhead
    refine vBvFold_of_bitvec a ?_
    intro u hu
    exact hall u.1 (htail ▸ List.mem_map_of_mem hu)

lemma vApply_of_fnTy {f : Val U} {vs : List (Val U)}
    (h : fnTy f.1 (vs.map Sigma.fst) = some T) : ∃ x : Dom U T, vApply f vs = some ⟨T, x⟩ := by
  induction vs generalizing f with
  | nil =>
    obtain ⟨S, g⟩ := f
    obtain rfl : S = T := by simpa [fnTy] using h
    exact ⟨g, by rw [vApply]⟩
  | cons v vs ih =>
    obtain ⟨S, g⟩ := f
    obtain ⟨V, x⟩ := v
    cases S with
    | fn A B =>
      rw [map_cons, fnTy] at h
      split at h
      · rename_i hV
        cases hV
        rw [vApply, dif_pos rfl]
        exact ih h
      · cases h
    | _ => contradiction

lemma kindVal_of_kindTy {k : Kind}
    (h : kindTy Γ k (vs.map Sigma.fst) = some T) : ∃ x : Dom I.U T, kindVal I k vs = some ⟨T, x⟩ := by
  cases k
  case add | mult | nonlinearMult =>
    simp only [kindTy] at h
    split at h
    · exact kindVal_of_arithTy h
    · cases h
  case bvAdd | bvMult =>
    simp only [kindTy] at h
    split at h
    · exact vBvFold_of_bvTy h
    · cases h
  case and | or =>
    simp only [kindTy] at h
    split at h
    · rename_i hall
      cases h
      exact vBoolFold_of_bool (by simpa using hall.2)
    · cases h
  case applyUf f => exact vApply_of_fnTy (f := ⟨Γ f, I.const f⟩) h
  case distinct =>
    rcases vs with _ | ⟨v, _ | ⟨w, vs⟩⟩ <;> try contradiction
    simp only [map_cons, kindTy] at h
    split at h
    · cases h
      exact ⟨_, rfl⟩
    · cases h
  case neg | abs =>
    rcases vs with _ | ⟨v, _ | ⟨w, vs⟩⟩ <;> try contradiction
    exact vArith1_of_arithTy h
  case not | toReal =>
    rcases vs with _ | ⟨⟨_ | _, x⟩, _ | ⟨w, vs⟩⟩ <;> try contradiction
    cases h
    exact ⟨_, rfl⟩
  case implies =>
    rcases vs with _ | ⟨⟨_ | _, x⟩, _ | ⟨⟨_ | _, y⟩, _ | ⟨w, vs⟩⟩⟩ <;> try contradiction
    cases h
    exact ⟨_, rfl⟩
  case bvNeg =>
    rcases vs with _ | ⟨⟨S, x⟩, _ | ⟨w, vs⟩⟩ <;> try contradiction
    obtain ⟨w, Ss, hT, -, rfl⟩ := bvTy_eq_some h
    cases hT
    exact ⟨_, rfl⟩
  case bvSub =>
    rcases vs with _ | ⟨v, _ | ⟨w, _ | ⟨u, vs⟩⟩⟩ <;> try contradiction
    have hvw : bvTy ([v, w].map Sigma.fst) = some T := h
    exact vBvFold_of_bvTy hvw
  case equal =>
    rcases vs with _ | ⟨⟨A, x⟩, _ | ⟨⟨B, y⟩, _ | ⟨u, vs⟩⟩⟩ <;> try contradiction
    simp only [map_cons, List.map_nil, kindTy] at h
    split at h
    · rename_i hB
      cases h
      subst hB
      exact ⟨_, by simp only [kindVal, vEq, dif_pos]; rfl⟩
    · cases h
  case sub =>
    rcases vs with _ | ⟨v, _ | ⟨w, _ | ⟨u, vs⟩⟩⟩ <;> try contradiction
    exact vNum2_of_arithTy h
  case lt | leq | gt | geq =>
    rcases vs with _ | ⟨v, _ | ⟨w, _ | ⟨u, vs⟩⟩⟩ <;> try contradiction
    obtain ⟨S, hS, rfl⟩ := map_inv h
    exact vNumRel_of_arithTy hS
  case division | divisionTotal =>
    rcases vs with _ | ⟨v, _ | ⟨w, _ | ⟨u, vs⟩⟩⟩ <;> try contradiction
    obtain ⟨S, hS, rfl⟩ := map_inv h
    exact vNumDiv_of_arithTy hS

lemma exists_values {cs : List Node}
    (ih : ∀ c ∈ cs, ∀ {T : Ty}, c.typeOf Γ = some T → ∃ x : Dom I.U T, eval I c = some ⟨T, x⟩)
    (h : Node.typesOf Γ cs = some Ts) : ∃ vs : List (Val I.U),
      Forall₂ (fun c v => eval I c = some v) cs vs ∧ vs.map Sigma.fst = Ts := by
  induction cs generalizing Ts with
  | nil =>
    cases h
    exact ⟨[], .nil, rfl⟩
  | cons c cs ihcs =>
    rw [Node.typesOf] at h
    obtain ⟨S, hS, h⟩ := bind_inv h
    obtain ⟨Ss, hSs, rfl⟩ := map_inv h
    obtain ⟨x, hx⟩ := ih c (.head _) hS
    obtain ⟨vs, hvs, hmap⟩ := ihcs (fun d hd => ih d (.tail _ hd)) hSs
    exact ⟨⟨S, x⟩ :: vs, .cons hx hvs, by rw [map_cons, hmap]⟩

lemma eval_of_typeOf (h : n.typeOf Γ = some T) : ∃ x : Dom I.U T, eval I n = some ⟨T, x⟩ := by
  induction n generalizing T with
  | constBoolean b => cases h; exact ⟨b, by rw [eval]⟩
  | constInteger z => cases h; exact ⟨z, by rw [eval]⟩
  | constRational q => cases h; exact ⟨(q : ℝ), by rw [eval]⟩
  | constBitvector w v => cases h; exact ⟨v, by rw [eval]⟩
  | app k cs ih =>
    rw [Node.typeOf] at h
    obtain ⟨Ts, hTs, hk⟩ := bind_inv h
    obtain ⟨vs, hvs, rfl⟩ := exists_values ih hTs
    rw [eval_app hvs]
    exact kindVal_of_kindTy hk

lemma truthVal_of_typeOf {F : Node} (h : F.typeOf Γ = some .bool) : TruthVal I F (Holds I F) := by
  obtain ⟨b, hF⟩ : ∃ b : Bool, eval I F = some (Val.bool b) := eval_of_typeOf h
  unfold TruthVal Holds
  rw [hF, Option.some.injEq, Val.bool_inj, eq_truth]
  simp

lemma exists_int_of_typeOf {r : ℝ} (h : n.typeOf Γ = some .int)
    (hr : NumVal I n r) : ∃ z : Int, r = z := by
  obtain ⟨z, hz⟩ := eval_of_typeOf (I := I) h
  exact ⟨z, (NumVal.unique ⟨_, hz, rfl⟩ hr)⟩

end Values

end EthosCpc.Cvc5
