import EthosCpc.Cvc5.PolyNormSpec
import EthosCpc.Cvc5.ArithProofChecker
import EthosCpc.Cpc.ArithLinearSpec

/-!
# The arithmetic rules of cvc5 are sound where their checks are complete

A formula that a checker returns follows from the premises
(`checkArith_sound`), but for three gaps.  `MACRO_ARITH_SCALE_SUM_UB` reads any
predicate of two arithmetic terms as a relation, `INT_TIGHT_LB` and
`INT_TIGHT_UB` tighten a non-strict integral bound, and `ARITH_POLY_NORM_REL`
looks at the factors of its premise only when both are constants and ignores
further factors.
-/

namespace EthosCpc.Cvc5

open Library.MapPoly (IsOrder isOrder_someOrder)
open Option (some.inj)
open List (Forall₂ forall_mem_cons map_cons mem_cons mem_cons_of_mem mem_cons_self prod_cons)

variable {Γ : Nat → Ty} {le : Node → Node → Bool} {I : Interp Γ}

/-! ## Connectives -/

section Connectives

variable {F G : Node}

variable {T : Ty}

lemma typeOf_two_inv {k : Kind} {a b : Node} (h : (Node.app k [a, b]).typeOf Γ = some T) :
    ∃ A B, a.typeOf Γ = some A ∧ b.typeOf Γ = some B ∧ kindTy Γ k [A, B] = some T := by
  obtain ⟨Ts, hTs, hk⟩ := typeOf_app_inv h
  cases hTs with
  | cons ha hTs =>
    cases hTs with
    | cons hb hTs =>
      cases hTs
      exact ⟨_, _, ha, hb, hk⟩

lemma typeOf_implies_inv (h : (Node.app .implies [F, G]).typeOf Γ = some T) :
    F.typeOf Γ = some .bool ∧ G.typeOf Γ = some .bool := by
  obtain ⟨A, B, hF, hG, hk⟩ := typeOf_two_inv h
  unfold kindTy at hk
  split at hk
  all_goals simp_all

lemma holds_implies (hF : F.typeOf Γ = some .bool) (hG : G.typeOf Γ = some .bool) :
    Holds I (.app .implies [F, G]) ↔ (Holds I F → Holds I G) := by
  have hF' := truthVal_of_typeOf (I := I) hF
  have hG' := truthVal_of_typeOf (I := I) hG
  have h : TruthVal I (.app .implies [F, G]) (Holds I F → Holds I G) := by
    unfold TruthVal
    rw [eval_app_two hF' hG']
    by_cases hp : Holds I F <;> by_cases hq : Holds I G <;> simp [kindVal, vBool2, hp, hq]
  exact h.holds

lemma holds_not (hF : F.typeOf Γ = some .bool) : Holds I (.app .not [F]) ↔ ¬ Holds I F := by
  have hF' := truthVal_of_typeOf (I := I) hF
  have h : TruthVal I (.app .not [F]) (¬ Holds I F) := by
    unfold TruthVal
    rw [eval_app_one hF']
    by_cases hp : Holds I F <;> simp [kindVal, vBool1, hp, truth]
  exact h.holds

lemma holds_equal_bool (hF : F.typeOf Γ = some .bool) (hG : G.typeOf Γ = some .bool) :
    Holds I (.app .equal [F, G]) ↔ (Holds I F ↔ Holds I G) := by
  have hF' := truthVal_of_typeOf (I := I) hF
  have hG' := truthVal_of_typeOf (I := I) hG
  rw [holds_equal]
  constructor
  · rintro ⟨v, hv, hw⟩
    unfold Holds
    rw [hv, hw]
  intro hiff
  refine ⟨_, hF', ?_⟩
  rw [hG', truth_inj.2 hiff.symm]

lemma vBoolFold_truth {U : Nat → Type} {f : Bool → Bool → Bool} {u : Bool} {ps : List Prop} :
    vBoolFold f u (ps.map fun p => (Val.bool (truth p) : Val U)) =
      some (.bool (ps.foldr (fun p b => f (truth p) b) u)) := by
  induction ps with
  | nil => rfl
  | cons p ps ih =>
    rw [map_cons, vBoolFold, ih]
    rfl

variable {Fs : List Node}

lemma eval_forall₂_holds (hFs : ∀ F ∈ Fs, F.typeOf Γ = some .bool) :
    Forall₂ (fun F v => eval I F = some v) Fs
      ((Fs.map (Holds I)).map fun p => Val.bool (truth p)) := by
  induction Fs with
  | nil => exact .nil
  | cons F Fs ih =>
    obtain ⟨hF, hFs'⟩ := forall_mem_cons.1 hFs
    exact .cons (truthVal_of_typeOf hF) (ih hFs')

lemma holds_and (hFs : ∀ F ∈ Fs, F.typeOf Γ = some .bool) :
    Holds I (.app .and Fs) ↔ ∀ F ∈ Fs, Holds I F := by
  unfold Holds
  rw [eval_app (eval_forall₂_holds hFs), kindVal, vBoolFold_truth, Option.some.injEq, Val.bool_inj]
  induction Fs with
  | nil => simp
  | cons F Fs ih =>
    obtain ⟨_, hFs'⟩ := forall_mem_cons.1 hFs
    rw [map_cons, List.foldr_cons, Bool.and_eq_true, truth_eq_true, ih hFs', forall_mem_cons]
    rfl

lemma holds_or (hFs : ∀ F ∈ Fs, F.typeOf Γ = some .bool) :
    Holds I (.app .or Fs) ↔ ∃ F ∈ Fs, Holds I F := by
  unfold Holds
  rw [eval_app (eval_forall₂_holds hFs), kindVal, vBoolFold_truth, Option.some.injEq, Val.bool_inj]
  induction Fs with
  | nil => simp
  | cons F Fs ih =>
    obtain ⟨_, hFs'⟩ := forall_mem_cons.1 hFs
    rw [map_cons, List.foldr_cons, Bool.or_eq_true, truth_eq_true, ih hFs',
      List.exists_mem_cons_iff]
    rfl

lemma holds_mkAnd (hFs : ∀ F ∈ Fs, F.typeOf Γ = some .bool) :
    Holds I (mkAnd Fs) ↔ ∀ F ∈ Fs, Holds I F := by
  match Fs, hFs with
  | [], _ => simp [mkAnd, Holds, eval]
  | [F], _ => simp [mkAnd]
  | F :: G :: Fs, hFs => exact holds_and hFs

lemma typeOf_and_inv
    (h : (Node.app .and Fs).typeOf Γ = some T ∨ (Node.app .or Fs).typeOf Γ = some T) :
    ∀ F ∈ Fs, F.typeOf Γ = some .bool := by
  obtain ⟨Ts, hTs, hall⟩ : ∃ Ts, Forall₂ (fun c S => c.typeOf Γ = some S) Fs Ts ∧
      ∀ S ∈ Ts, S = .bool := by
    rcases h with h | h
    · obtain ⟨Ts, hTs, hk⟩ := typeOf_app_inv h
      simp only [kindTy] at hk
      split at hk
      · rename_i hall
        exact ⟨Ts, hTs, by simpa using hall.2⟩
      · cases hk
    obtain ⟨Ts, hTs, hk⟩ := typeOf_app_inv h
    simp only [kindTy] at hk
    split at hk
    · rename_i hall
      exact ⟨Ts, hTs, by simpa using hall.2⟩
    · cases hk
  clear h
  induction hTs with
  | nil => simp
  | cons hF _ ih =>
    obtain ⟨hS, hall'⟩ := forall_mem_cons.1 hall
    exact forall_mem_cons.2 ⟨hS ▸ hF, ih hall'⟩

lemma typeOf_mkAnd_inv (h : (mkAnd Fs).typeOf Γ = some .bool) :
    ∀ F ∈ Fs, F.typeOf Γ = some .bool := by
  match Fs, h with
  | [], _ => simp
  | [F], h => simpa [mkAnd] using h
  | F :: G :: Fs, h => exact typeOf_and_inv (.inl h)

end Connectives

/-! ## Arithmetic terms and relations -/

section Relations

variable (Γ) in
/-- A well-typed arithmetic term. -/
def IsNum (n : Node) : Prop := ∃ T, n.typeOf Γ = some T ∧ T.isArithType = true

lemma IsNum.numVal {n : Node} (h : IsNum Γ n) : ∃ x, NumVal I n x := by
  obtain ⟨T, hn, hT⟩ := h
  obtain ⟨x, hx⟩ := eval_of_typeOf (I := I) hn
  obtain ⟨r, hr⟩ := numOf_of_isArithType (v := ⟨T, x⟩) hT
  exact ⟨r, _, hx, hr⟩

variable {cs : List Node} {T : Ty}

lemma isNum_of_forall₂ {Ts : List Ty}
    (hTs : Forall₂ (fun c S => c.typeOf Γ = some S) cs Ts) (h : arithTy Ts = some T) :
    ∀ c ∈ cs, IsNum Γ c := by
  have hall := (arithTy_eq_some h).1
  clear h
  induction hTs with
  | nil => simp
  | cons hc _ ih =>
    obtain ⟨hS, hall'⟩ := forall_mem_cons.1 hall
    exact forall_mem_cons.2 ⟨⟨_, hc, hS⟩, ih hall'⟩

/-- The kinds whose children are arithmetic terms. -/
def isArithKind : Kind → Bool
  | .lt | .leq | .gt | .geq | .add | .sub | .neg | .mult | .nonlinearMult | .abs => true
  | _ => false

variable {k : Kind}

lemma arithTy_of_isArithKind (hk : isArithKind k = true) {Ts : List Ty}
    (h : kindTy Γ k Ts = some T) : ∃ S, arithTy Ts = some S := by
  unfold kindTy at h
  split at h
  all_goals first
    | contradiction
    | exact ⟨_, h⟩
    | split at h
      · exact ⟨_, h⟩
      · contradiction
    | obtain ⟨S, hS, -⟩ := map_inv h
      exact ⟨S, hS⟩

lemma isNum_children (hk : isArithKind k = true)
    (h : (Node.app k cs).typeOf Γ = some T) : ∀ c ∈ cs, IsNum Γ c := by
  obtain ⟨Ts, hTs, hkind⟩ := typeOf_app_inv h
  obtain ⟨S, hS⟩ := arithTy_of_isArithKind hk hkind
  exact isNum_of_forall₂ hTs hS

def relProp : Kind → ℝ → ℝ → Prop
  | .lt => (· < ·)
  | .leq => (· ≤ ·)
  | .gt => (· > ·)
  | .geq => (· ≥ ·)
  | .distinct => (· ≠ ·)
  | _ => (· = ·)

lemma kindVal_isOrderKind (hk : isOrderKind k = true) : kindVal I k = vNumRel (relProp k) := by
  cases k <;> first | rfl | contradiction

lemma val_eq_of_numOf {U : Nat → Type} {x y : Dom U T} {r : ℝ}
    (hx : numOf ⟨T, x⟩ = some r) (hy : numOf ⟨T, y⟩ = some r) : x = y := by
  rcases numOf_inv hx with ⟨m, heq, rfl⟩ | heq
  · cases heq
    have hcast : (Int.cast y : ℝ) = m := some.inj hy
    exact (Int.cast_injective hcast).symm
  · cases heq
    exact (some.inj hy).symm

variable {a b : Node}

lemma exists_type_of_equal (hk : k = .equal ∨ k = .distinct)
    (h : (Node.app k (a :: b :: cs)).typeOf Γ = some .bool) :
    ∃ A, a.typeOf Γ = some A ∧ b.typeOf Γ = some A := by
  obtain ⟨Ts, hTs, hkind⟩ := typeOf_app_inv h
  cases hTs with
  | @cons _ A _ _ ha hTs =>
    cases hTs with
    | @cons _ B _ Ts hb hTs =>
      refine ⟨A, ha, ?_⟩
      rw [hb]
      rcases hk with rfl | rfl
      · cases Ts with
        | nil =>
          simp only [kindTy] at hkind
          split at hkind
          · rename_i hAB
            rw [hAB]
          · cases hkind
        | cons S Ts => contradiction
      simp only [kindTy] at hkind
      split at hkind
      · rename_i hall
        simp only [List.all_cons, Bool.and_eq_true, decide_eq_true_eq] at hall
        rw [hall.1]
      · cases hkind

lemma holds_rel (hk : isMultRel k = true) {x y : ℝ}
    (hty : (Node.app k [a, b]).typeOf Γ = some .bool) (ha : NumVal I a x) (hb : NumVal I b y) :
    Holds I (.app k [a, b]) ↔ relProp k x y := by
  by_cases hord : isOrderKind k = true
  · exact (truthVal_rel (kindVal_isOrderKind hord) ha hb).holds
  have hk' : k = .equal ∨ k = .distinct := by
    cases k <;> simp_all [isMultRel, isOrderKind]
  obtain ⟨A, hA, hB⟩ := exists_type_of_equal hk' hty
  obtain ⟨v, hv⟩ := eval_of_typeOf (I := I) hA
  obtain ⟨w, hw⟩ := eval_of_typeOf (I := I) hB
  obtain ⟨v', hv', hx⟩ := ha
  obtain ⟨w', hw', hy⟩ := hb
  cases hv.symm.trans hv'
  cases hw.symm.trans hw'
  have hiff : v = w ↔ x = y := by
    constructor
    · rintro rfl
      exact some.inj (hx.symm.trans hy)
    · rintro rfl
      exact val_eq_of_numOf hx hy
  rcases hk' with rfl | rfl
  · have htruth : TruthVal I (.app .equal [a, b]) (v = w) := by
      unfold TruthVal
      rw [eval_app_two hv hw]
      simp [kindVal, vEq]
    exact htruth.holds.trans hiff
  have htruth : TruthVal I (.app .distinct [a, b]) (v ≠ w) := by
    unfold TruthVal
    rw [eval_app_two hv hw]
    simp [kindVal, vDistinct]
  exact htruth.holds.trans (not_congr hiff)

lemma typeOf_rel_rest (hk : isMultRel k = true) (hne : k ≠ .distinct)
    (h : (Node.app k (a :: b :: cs)).typeOf Γ = some T) : cs = [] := by
  obtain ⟨Ts, hTs, hkind⟩ := typeOf_app_inv h
  cases hTs with
  | cons _ hTs =>
    cases hTs with
    | cons _ hTs =>
      cases hTs with
      | nil => rfl
      | cons _ _ => cases k <;> contradiction

lemma relProp_of_holds (hk : isMultRel k = true)
    {x y : ℝ} (hty : (Node.app k (a :: b :: cs)).typeOf Γ = some .bool)
    (h : Holds I (.app k (a :: b :: cs))) (ha : NumVal I a x) (hb : NumVal I b y) :
    relProp k x y := by
  by_cases hne : k = .distinct
  swap
  · obtain rfl := typeOf_rel_rest hk hne hty
    exact (holds_rel hk hty ha hb).1 h
  subst hne
  obtain ⟨A, hA, hB⟩ := exists_type_of_equal (.inr rfl) hty
  have hpair : (Node.app .distinct [a, b]).typeOf Γ = some .bool := by
    simp [Node.typeOf, Node.typesOf, hA, hB, kindTy]
  refine (holds_rel rfl hpair ha hb).1 ?_
  obtain ⟨v, hv, _⟩ := ha
  obtain ⟨w, hw, _⟩ := hb
  obtain ⟨vs, hvs, hk'⟩ := eval_app_inv h
  cases hvs with
  | cons hv' hvs =>
    cases hvs with
    | cons hw' hvs =>
      cases hv.symm.trans hv'
      cases hw.symm.trans hw'
      simp only [kindVal, vDistinct, Option.some.injEq, Val.bool_inj, truth_eq_true,
        List.pairwise_cons] at hk'
      unfold Holds
      rw [eval_app_two hv hw]
      simpa [kindVal, vDistinct] using hk'.1 _ mem_cons_self

lemma isNum_of_order (hk : isOrderKind k = true)
    (h : (Node.app k cs).typeOf Γ = some T) : ∀ c ∈ cs, IsNum Γ c :=
  isNum_children (by cases k <;> first | rfl | contradiction) h

end Relations

/-! ## `ARITH_MULT_POS` and `ARITH_MULT_NEG` -/

variable {n : Node}

lemma numVal_mkConstRealOrInt {T : Ty} {z : Int} (h : mkConstRealOrInt T z = some n) :
    NumVal I n z := by
  unfold mkConstRealOrInt at h
  split at h
  · cases h
    simpa using numVal_rational (I := I) (c := .constInteger z) (q := z) rfl
  · cases h
    simpa using numVal_rational (I := I) (c := .constRational z) (q := z) rfl
  · cases h

lemma multRel_sound {guard : Kind} {conclude : Kind → Option Kind} {mult F C : Node}
    (hguard : isOrderKind guard = true)
    (hmul : ∀ k k' (m x y : ℝ), conclude k = some k' → isMultRel k = true → relProp guard m 0 →
      relProp k x y → isMultRel k' = true ∧ relProp k' (m * x) (m * y))
    (h : multRel Γ guard conclude mult F = some C) (hC : C.typeOf Γ = some .bool) : Holds I C := by
  unfold multRel at h
  split at h
  swap
  · cases h
  rename_i rel lhs rhs rest
  split at h
  swap
  · cases h
  rename_i hrel
  obtain ⟨T, _, h⟩ := bind_inv h
  obtain ⟨zero, hzero, h⟩ := bind_inv h
  obtain ⟨rel', hrel', rfl⟩ := map_inv h
  obtain ⟨hA, hB⟩ := typeOf_implies_inv hC
  rw [holds_implies hA hB]
  intro hand
  obtain ⟨hG, hF, -⟩ : _ ∧ _ ∧ True := by simpa using typeOf_mkAnd_inv hA
  obtain ⟨hGh, hFh⟩ : Holds I (.app guard [mult, zero]) ∧
      Holds I (.app rel (lhs :: rhs :: rest)) := by
    simpa using (holds_mkAnd (typeOf_mkAnd_inv hA)).1 hand
  obtain ⟨A, B, hl, hr, _⟩ := typeOf_two_inv hB
  obtain ⟨m, hm⟩ := (isNum_of_order hguard hG mult (by simp)).numVal (I := I)
  obtain ⟨x, hx⟩ := (isNum_children (k := .mult) rfl hl lhs (by simp)).numVal (I := I)
  obtain ⟨y, hy⟩ := (isNum_children (k := .mult) rfl hr rhs (by simp)).numVal (I := I)
  have hm0 : relProp guard m 0 := by
    have hz := numVal_mkConstRealOrInt (I := I) hzero
    rw [Int.cast_zero] at hz
    exact (holds_rel (by cases guard <;> first | rfl | contradiction) hG hm hz).1 hGh
  have hxy := relProp_of_holds hrel hF hFh hx hy
  obtain ⟨hrel'', hprod⟩ := hmul rel rel' m x y hrel' hrel hm0 hxy
  exact (holds_rel hrel'' hB (numVal_mult_two (.inl rfl) hm hx)
    (numVal_mult_two (.inl rfl) hm hy)).2 hprod

variable {children args : List Node} {C : Node}

lemma arithMultPos_sound
    (h : checkArithMultPos Γ children args = some C) (hC : C.typeOf Γ = some .bool) :
    Holds I C := by
  unfold checkArithMultPos at h
  split at h
  swap
  · cases h
  refine multRel_sound rfl ?_ h hC
  intro k k' m x y hk hrel hm hxy
  cases hk
  refine ⟨hrel, ?_⟩
  have hpos : 0 < m := hm
  cases k <;> first | contradiction | skip
  case equal => exact congrArg (m * ·) hxy
  case distinct => exact fun heq => hxy (mul_left_cancel₀ hpos.ne' heq)
  case lt => exact mul_lt_mul_of_pos_left hxy hpos
  case leq => exact mul_le_mul_of_nonneg_left hxy hpos.le
  case gt => exact mul_lt_mul_of_pos_left hxy hpos
  case geq => exact mul_le_mul_of_nonneg_left hxy hpos.le

lemma arithMultNeg_sound
    (h : checkArithMultNeg Γ children args = some C) (hC : C.typeOf Γ = some .bool) :
    Holds I C := by
  unfold checkArithMultNeg at h
  split at h
  swap
  · cases h
  refine multRel_sound rfl ?_ h hC
  intro k k' m x y hk hrel hm hxy
  have hneg : m < 0 := hm
  cases k with
  | equal =>
    cases hk
    exact ⟨rfl, congrArg (m * ·) hxy⟩
  | distinct =>
    cases hk
    exact ⟨rfl, fun heq => hxy (mul_left_cancel₀ hneg.ne heq)⟩
  | lt =>
    cases hk
    exact ⟨rfl, mul_lt_mul_of_neg_left hxy hneg⟩
  | leq =>
    cases hk
    exact ⟨rfl, mul_le_mul_of_nonpos_left hxy hneg.le⟩
  | gt =>
    cases hk
    exact ⟨rfl, mul_lt_mul_of_neg_left hxy hneg⟩
  | geq =>
    cases hk
    exact ⟨rfl, mul_le_mul_of_nonpos_left hxy hneg.le⟩
  | _ => contradiction

/-! ## Sums -/

section Sums

variable (I) in
/-- The sums built so far are so related in an interpretation. -/
def SumState.Holds (s : SumState) : Prop :=
  ∀ xs ys, Forall₂ (NumVal I) s.left xs → Forall₂ (NumVal I) s.right ys →
    if s.strict then xs.sum < ys.sum else xs.sum ≤ ys.sum

lemma forall₂_concat_inv {α β : Type*} {R : α → β → Prop} {as : List α} {a : α} {bs : List β}
    (h : Forall₂ R (as ++ [a]) bs) : ∃ bs' b, bs = bs' ++ [b] ∧ Forall₂ R as bs' ∧ R a b := by
  induction as generalizing bs with
  | nil =>
    cases h with
    | cons ha h =>
      cases h
      exact ⟨[], _, rfl, .nil, ha⟩
  | cons a' as ih =>
    cases h with
    | cons ha' h =>
      obtain ⟨bs', b, rfl, hbs', hb⟩ := ih h
      exact ⟨_ :: bs', b, rfl, .cons ha' hbs', hb⟩

lemma SumState.Holds.add {s : SumState} (hs : s.Holds I) {l r : Node} {b : Bool}
    (hlr : ∀ x y, NumVal I l x → NumVal I r y → if b then x < y else x ≤ y) :
    SumState.Holds I ⟨s.strict || b, s.left ++ [l], s.right ++ [r]⟩ := by
  intro xs ys hxs hys
  obtain ⟨xs', x, rfl, hxs', hx⟩ := forall₂_concat_inv hxs
  obtain ⟨ys', y, rfl, hys', hy⟩ := forall₂_concat_inv hys
  have hsum := hs xs' ys' hxs' hys'
  have hxy := hlr x y hx hy
  rw [List.sum_append, List.sum_append, List.sum_singleton, List.sum_singleton]
  cases hstrict : s.strict <;> cases b <;>
    simp only [hstrict, Bool.or_false, Bool.or_true, Bool.false_eq_true, if_true, if_false]
      at hsum hxy ⊢ <;> linarith

lemma SumState.holds_empty : SumState.Holds I ⟨false, [], []⟩ := by
  intro xs ys hxs hys
  cases hxs
  cases hys
  simp

lemma forall₂_numVal_of_isNum {cs : List Node} (h : ∀ c ∈ cs, IsNum Γ c) :
    ∃ xs, Forall₂ (NumVal I) cs xs := by
  induction cs with
  | nil => exact ⟨[], .nil⟩
  | cons c cs ih =>
    obtain ⟨hc, hcs⟩ := forall_mem_cons.1 h
    obtain ⟨x, hx⟩ := hc.numVal (I := I)
    obtain ⟨xs, hxs⟩ := ih hcs
    exact ⟨x :: xs, .cons hx hxs⟩

lemma SumState.Holds.result {s : SumState} (hs : s.Holds I)
    (hC : s.result.typeOf Γ = some .bool) : Cvc5.Holds I s.result := by
  have hord : isOrderKind (if s.strict then .lt else .leq) = true := by
    cases s.strict <;> rfl
  have hrel : isMultRel (if s.strict then .lt else .leq) = true := by
    cases s.strict <;> rfl
  obtain ⟨A, B, hA, hB, _⟩ := typeOf_two_inv hC
  obtain ⟨xs, hxs⟩ := forall₂_numVal_of_isNum (I := I) (isNum_children (k := .add) rfl hA)
  obtain ⟨ys, hys⟩ := forall₂_numVal_of_isNum (I := I) (isNum_children (k := .add) rfl hB)
  refine (holds_rel hrel hC (numVal_add hxs) (numVal_add hys)).2 ?_
  have hsum := hs xs ys hxs hys
  cases hstrict : s.strict <;> simpa [hstrict, relProp] using hsum

lemma foldlM_invariant {σ α : Type*} {f : σ → α → Option σ} {P : σ → Prop} {as : List α}
    (hstep : ∀ a ∈ as, ∀ s s', f s a = some s' → P s → P s') {s s' : σ}
    (h : as.foldlM f s = some s') (hs : P s) : P s' := by
  induction as generalizing s with
  | nil =>
    cases h
    exact hs
  | cons a as ih =>
    rw [List.foldlM_cons] at h
    obtain ⟨s1, hs1, h⟩ := bind_inv h
    exact ih (fun b hb => hstep b (.tail _ hb)) h (hstep a (.head _) s s1 hs1 hs)

lemma arithSumUb_sound {children : List Node} {C : Node}
    (h : checkArithSumUb children = some C) (hC : C.typeOf Γ = some .bool)
    (hty : ∀ F ∈ children, F.typeOf Γ = some .bool) (hF : ∀ F ∈ children, Holds I F) :
    Holds I C := by
  unfold checkArithSumUb at h
  split at h
  · cases h
  obtain ⟨s, hs, rfl⟩ := map_inv h
  refine SumState.Holds.result (foldlM_invariant ?_ hs SumState.holds_empty) hC
  intro F hmem s s' hstep hsum
  have hFty := hty F hmem
  have hFh := hF F hmem
  unfold sumUbStep at hstep
  split at hstep
  swap
  · cases hstep
  rename_i k l r cs
  have hrel : ∀ hk : isMultRel k = true, ∀ x y, NumVal I l x → NumVal I r y → relProp k x y :=
    fun hk x y hx hy => relProp_of_holds hk hFty hFh hx hy
  split at hstep
  · cases hstep
    simpa using hsum.add (b := true) fun x y hx hy => hrel rfl x y hx hy
  · cases hstep
    simpa using hsum.add (b := false) fun x y hx hy => hrel rfl x y hx hy
  · cases hstep
    simpa using hsum.add (b := false) fun x y hx hy => le_of_eq (hrel rfl x y hx hy)
  · cases hstep

def isScaledRel : Kind → Bool
  | .lt | .leq | .gt | .geq | .equal => true
  | _ => false

lemma numVal_scaled_inv {scalar : Rat} {arg t : Node} {x' : ℝ}
    (hscalar : arg.rational? = some scalar) (h : NumVal I (scaled scalar arg t) x') :
    ∃ x, NumVal I t x ∧ x' = scalar * x := by
  unfold scaled at h
  split at h
  · rename_i hone
    exact ⟨x', h, by rw [hone, Rat.cast_one, one_mul]⟩
  obtain ⟨xs, hxs, rfl⟩ := numVal_mult_inv (.inl rfl) h
  cases hxs with
  | cons harg hxs =>
    cases hxs with
    | cons ht hxs =>
      cases hxs
      refine ⟨_, ht, ?_⟩
      rw [(numVal_rational hscalar).unique harg]
      simp

lemma scale_rel {k : Kind} {scalar : Rat} {x y : ℝ} (hk : isScaledRel k = true)
    (hne : (scalar : ℝ) ≠ 0) (hsign : isScalarSign k scalar = true) (hxy : relProp k x y) :
    if decide (k = .gt ∨ k = .lt) then scalar * x < scalar * y else scalar * x ≤ scalar * y := by
  have hneg : ¬ 0 < scalar → (scalar : ℝ) < 0 := by
    intro h
    have hle : (scalar : ℝ) ≤ 0 := by exact_mod_cast not_lt.1 h
    exact lt_of_le_of_ne hle hne
  have hpos : ¬ scalar < 0 → 0 < (scalar : ℝ) := by
    intro h
    have hle : 0 ≤ (scalar : ℝ) := by exact_mod_cast not_lt.1 h
    exact lt_of_le_of_ne hle hne.symm
  cases k with
  | lt => exact mul_lt_mul_of_pos_left hxy (hpos (of_decide_eq_true hsign))
  | leq => exact mul_le_mul_of_nonneg_left hxy (hpos (of_decide_eq_true hsign)).le
  | gt => exact mul_lt_mul_of_neg_left hxy (hneg (of_decide_eq_true hsign))
  | geq => exact mul_le_mul_of_nonpos_left hxy (hneg (of_decide_eq_true hsign)).le
  | equal =>
    have heq : x = y := hxy
    exact le_of_eq (by rw [heq])
  | _ => contradiction

lemma macroArithScaleSumUb_sound {children args : List Node} {C : Node}
    (h : checkMacroArithScaleSumUb Γ children args = some C) (hC : C.typeOf Γ = some .bool)
    (hok : ∀ F ∈ children, ∀ k cs, F = .app k cs → isScaledRel k = true)
    (hty : ∀ F ∈ children, F.typeOf Γ = some .bool) (hF : ∀ F ∈ children, Holds I F) :
    Holds I C := by
  unfold checkMacroArithScaleSumUb at h
  split at h
  · cases h
  obtain ⟨s, hs, rfl⟩ := map_inv h
  refine SumState.Holds.result (foldlM_invariant ?_ hs SumState.holds_empty) hC
  intro Fa hmem s s' hstep hsum
  have hmem' := (List.of_mem_zip hmem).1
  unfold scaleSumUbStep at hstep
  split at hstep
  swap
  · cases hstep
  rename_i k l r cs arg
  have hk : isScaledRel k = true := hok _ hmem' _ _ rfl
  have hk' : isMultRel k = true := by cases k <;> first | rfl | contradiction
  obtain ⟨scalar, hscalar, hstep⟩ := bind_inv hstep
  split at hstep
  · cases hstep
  rename_i hzero
  obtain ⟨typed, _, hstep⟩ := bind_inv hstep
  split at hstep
  swap
  · cases hstep
  rename_i hsign
  cases hstep
  refine hsum.add fun x' y' hx' hy' => ?_
  obtain ⟨x, hx, rfl⟩ := numVal_scaled_inv hscalar hx'
  obtain ⟨y, hy, rfl⟩ := numVal_scaled_inv hscalar hy'
  have hxy := relProp_of_holds hk' (hty _ hmem') (hF _ hmem') hx hy
  have hsgn := (Bool.and_eq_true_iff.1 hsign).2
  have hne : (scalar : ℝ) ≠ 0 := by exact_mod_cast hzero
  exact scale_rel hk hne hsgn hxy

end Sums

/-! ## Tightening and trichotomy -/

lemma intTight_sound {strict nonStrict : Kind} {newBound : Rat → Int} {children : List Node}
    (hs : isOrderKind strict = true) (hn : isOrderKind nonStrict = true)
    (hbound : ∀ (z : Int) (q : Rat), relProp strict z q → relProp nonStrict z (newBound q))
    (hstrict : ∀ x y : ℝ, relProp nonStrict x y → x ≠ y → relProp strict x y)
    (h : intTight Γ strict nonStrict newBound children = some C) (hC : C.typeOf Γ = some .bool)
    (hok : ∀ F ∈ children, F.kind? = some strict ∨
      ∀ c q, F.child? 1 = some c → c.rational? = some q → q.den ≠ 1)
    (hty : ∀ F ∈ children, F.typeOf Γ = some .bool) (hF : ∀ F ∈ children, Holds I F) :
    Holds I C := by
  have hrel : ∀ {k}, isOrderKind k = true → isMultRel k = true := by
    intro k hk
    cases k <;> first | rfl | contradiction
  unfold intTight at h
  split at h
  swap
  · cases h
  rename_i k i c cs
  split at h
  swap
  · cases h
  rename_i hcond
  obtain ⟨hk, hi⟩ := hcond
  obtain ⟨q, hq, rfl⟩ := map_inv h
  have hmem : Node.app k (i :: c :: cs) ∈ [Node.app k (i :: c :: cs)] := by simp
  obtain ⟨x, hx⟩ := IsNum.numVal (I := I) ⟨_, hi, rfl⟩
  obtain ⟨z, rfl⟩ := exists_int_of_typeOf hi hx
  have hk' : isOrderKind k = true := by
    rcases hk with rfl | rfl
    · exact hs
    · exact hn
  have hprem := relProp_of_holds (hrel hk') (hty _ hmem) (hF _ hmem) hx (numVal_rational hq)
  have hzq : relProp strict z q := by
    rcases hok _ hmem with hkind | hden
    · obtain rfl : k = strict := some.inj hkind
      exact hprem
    rcases hk with rfl | rfl
    · exact hprem
    refine hstrict _ _ hprem fun heq => hden c q rfl hq ?_
    have hz : (z : Rat) = q := by exact_mod_cast heq
    rw [← hz]
    exact Rat.den_intCast z
  have hnew : NumVal I (.constInteger (newBound q)) (newBound q : Int) := by
    simpa using numVal_rational (I := I) (c := .constInteger (newBound q)) (q := newBound q) rfl
  exact (holds_rel (hrel hn) hC hx hnew).2 (hbound z q hzq)

lemma intTightLb_sound {children : List Node}
    (h : checkIntTightLb Γ children = some C) (hC : C.typeOf Γ = some .bool)
    (hok : ∀ F ∈ children, F.kind? = some .gt ∨
      ∀ c q, F.child? 1 = some c → c.rational? = some q → q.den ≠ 1)
    (hty : ∀ F ∈ children, F.typeOf Γ = some .bool) (hF : ∀ F ∈ children, Holds I F) :
    Holds I C := by
  refine intTight_sound rfl rfl ?_ ?_ h hC hok hty hF
  · intro z q hzq
    have hzq' : q < z := by
      have hlt : (q : ℝ) < z := hzq
      exact_mod_cast hlt
    have hlt : ⌊q⌋ < z := Int.floor_lt.2 hzq'
    show ((leastIntGreaterThan q : Int) : ℝ) ≤ z
    exact_mod_cast hlt
  · exact fun x y hle hne => lt_of_le_of_ne hle hne.symm

lemma intTightUb_sound {children : List Node}
    (h : checkIntTightUb Γ children = some C) (hC : C.typeOf Γ = some .bool)
    (hok : ∀ F ∈ children, F.kind? = some .lt ∨
      ∀ c q, F.child? 1 = some c → c.rational? = some q → q.den ≠ 1)
    (hty : ∀ F ∈ children, F.typeOf Γ = some .bool) (hF : ∀ F ∈ children, Holds I F) :
    Holds I C := by
  refine intTight_sound rfl rfl ?_ ?_ h hC hok hty hF
  · intro z q hzq
    have hzq' : (z : Rat) < q := by
      have hlt : (z : ℝ) < q := hzq
      exact_mod_cast hlt
    have hlt : z < ⌈q⌉ := Int.lt_ceil.2 hzq'
    have hle : z ≤ greatestIntLessThan q := by
      rw [greatestIntLessThan]
      omega
    show (z : ℝ) ≤ (greatestIntLessThan q : Int)
    exact_mod_cast hle
  · exact fun x y hle hne => lt_of_le_of_ne hle hne

lemma negateProofLiteral_spec {F G : Node} (h : negateProofLiteral F = some G)
    (hty : F.typeOf Γ = some .bool) (hF : Holds I F) :
    G.typeOf Γ = some .bool ∧ ¬ Holds I G := by
  have horder : ∀ {k k' : Kind} {a b : Node}, isOrderKind k = true → isOrderKind k' = true →
      (∀ x y : ℝ, relProp k x y → ¬ relProp k' x y) → (Node.app k [a, b]).typeOf Γ = some .bool →
      Holds I (.app k [a, b]) →
      (Node.app k' [a, b]).typeOf Γ = some .bool ∧ ¬ Holds I (.app k' [a, b]) := by
    intro k k' a b hk hk' hneg hkty hkF
    have hkty' : (Node.app k' [a, b]).typeOf Γ = some .bool := by
      obtain ⟨A, B, hA, hB, hkind⟩ := typeOf_two_inv hkty
      rw [← hkty, Node.typeOf, Node.typeOf, Node.typesOf, Node.typesOf, Node.typesOf, hA, hB]
      cases k <;> first | contradiction | (cases k' <;> first | contradiction | rfl)
    have hnum := isNum_of_order hk hkty
    obtain ⟨x, hx⟩ := (hnum a (by simp)).numVal (I := I)
    obtain ⟨y, hy⟩ := (hnum b (by simp)).numVal (I := I)
    have hxy := (truthVal_rel (kindVal_isOrderKind hk) hx hy).holds.1 hkF
    refine ⟨hkty', fun hG => hneg x y hxy ?_⟩
    exact (truthVal_rel (kindVal_isOrderKind hk') hx hy).holds.1 hG
  unfold negateProofLiteral at h
  split at h
  · cases h
    exact horder rfl rfl (fun x y => not_le.2) hty hF
  · cases h
    exact horder rfl rfl (fun x y => not_le.2) hty hF
  · cases h
    exact horder rfl rfl (fun x y => not_lt.2) hty hF
  · cases h
    exact horder rfl rfl (fun x y => not_lt.2) hty hF
  · cases h
    refine ⟨?_, fun hG => (holds_not hty).1 hG hF⟩
    rw [Node.typeOf, Node.typesOf, hty]
    rfl
  · cases h
    have hn : G.typeOf Γ = some .bool := by
      obtain ⟨Ts, hTs, hk⟩ := typeOf_app_inv hty
      cases hTs with
      | @cons _ S _ _ hn hTs =>
        cases hTs
        cases S <;> first | exact hn | contradiction
    exact ⟨hn, (holds_not hn).1 hF⟩
  · cases h

lemma thirdRelation_spec {k k' r : Kind} (h : thirdRelation k k' = some r) :
    ∀ s ∈ [Kind.equal, .gt, .lt], s = r ∨ s = k ∨ s = k' := by
  unfold thirdRelation at h
  split at h
  swap
  · cases h
  rename_i r' hfilter
  cases h
  intro s hs
  by_cases hkk : s = k ∨ s = k'
  · exact .inr hkk
  have hmem : s ∈ [Kind.equal, .gt, .lt].filter fun r => decide (r ≠ k ∧ r ≠ k') :=
    List.mem_filter.2 ⟨hs, by simpa [not_or] using hkk⟩
  rw [hfilter] at hmem
  exact .inl (List.mem_singleton.1 hmem)

lemma arithTrichotomy_sound {children : List Node}
    (h : checkArithTrichotomy children = some C) (hC : C.typeOf Γ = some .bool)
    (hty : ∀ F ∈ children, F.typeOf Γ = some .bool) (hF : ∀ F ∈ children, Holds I F) :
    Holds I C := by
  unfold checkArithTrichotomy at h
  split at h
  swap
  · cases h
  rename_i F G rest
  obtain ⟨a, ha, h⟩ := bind_inv h
  obtain ⟨b, hb, h⟩ := bind_inv h
  split at h
  swap
  · cases h
  rename_i k a0 a1 as k' b0 b1 bs _
  split at h
  swap
  · cases h
  rename_i hsame
  obtain ⟨rfl, rfl⟩ := hsame
  obtain ⟨r, hr, rfl⟩ := map_inv h
  obtain ⟨haty, hna⟩ := negateProofLiteral_spec ha (hty F (by simp)) (hF F (by simp))
  obtain ⟨hbty, hnb⟩ := negateProofLiteral_spec hb (hty G (by simp)) (hF G (by simp))
  have hthird := thirdRelation_spec hr
  have hnum : IsNum Γ a0 ∧ IsNum Γ a1 := by
    rcases hthird .lt (by simp) with rfl | rfl | rfl
    · exact ⟨isNum_of_order rfl hC a0 (by simp), isNum_of_order rfl hC a1 (by simp)⟩
    · exact ⟨isNum_of_order rfl haty a0 (by simp), isNum_of_order rfl haty a1 (by simp)⟩
    · exact ⟨isNum_of_order rfl hbty a0 (by simp), isNum_of_order rfl hbty a1 (by simp)⟩
  obtain ⟨x, hx⟩ := hnum.1.numVal (I := I)
  obtain ⟨y, hy⟩ := hnum.2.numVal (I := I)
  -- the relation that holds of the two numbers is neither of the refuted ones
  have hcase : ∀ s ∈ [Kind.equal, .gt, .lt], relProp s x y → Holds I (.app r [a0, a1]) := by
    intro s hs hxy
    have hrel : isMultRel s = true ∧ s ≠ .distinct := by
      simp only [mem_cons, List.not_mem_nil, or_false] at hs
      rcases hs with rfl | rfl | rfl <;> simp [isMultRel]
    rcases hthird s hs with rfl | rfl | rfl
    · exact (holds_rel hrel.1 hC hx hy).2 hxy
    · obtain rfl := typeOf_rel_rest hrel.1 hrel.2 haty
      exact absurd ((holds_rel hrel.1 haty hx hy).2 hxy) hna
    · obtain rfl := typeOf_rel_rest hrel.1 hrel.2 hbty
      exact absurd ((holds_rel hrel.1 hbty hx hy).2 hxy) hnb
  rcases lt_trichotomy x y with hlt | heq | hgt
  · exact hcase .lt (by simp) hlt
  · exact hcase .equal (by simp) heq
  · exact hcase .gt (by simp) hgt

/-! ## Polynomial normalization -/

lemma arithPolyNorm_sound (hle : IsOrder le)
    (h : checkArithPolyNorm Γ le children args = some C) (hC : C.typeOf Γ = some .bool) :
    Holds I C := by
  unfold checkArithPolyNorm at h
  split at h
  swap
  · cases h
  rename_i a b rest
  obtain ⟨T, hT, h⟩ := bind_inv h
  split at h
  swap
  · cases h
  rename_i harith
  obtain ⟨same, hsame, h⟩ := bind_inv h
  split at h
  swap
  · cases h
  rename_i hs
  cases h
  subst hs
  obtain rfl := typeOf_rel_rest (k := .equal) rfl (by simp) hC
  obtain ⟨A, hA, hB⟩ := exists_type_of_equal (.inl rfl) hC
  cases hA.symm.trans hT
  obtain ⟨x, hx⟩ := IsNum.numVal (I := I) ⟨_, hA, harith⟩
  obtain ⟨y, hy⟩ := IsNum.numVal (I := I) ⟨_, hB, harith⟩
  exact (holds_rel rfl hC hx hy).2 (numVal_eq_of_isArithPolyNorm hle hA hB harith hsame hx hy)

lemma numVal_stripToReal {x : ℝ} (h : NumVal I n x) : NumVal I (stripToReal n) x := by
  unfold stripToReal
  split
  swap
  · exact h
  rename_i m cs
  obtain ⟨v, hv, hx⟩ := h
  obtain ⟨vs, hvs, hk⟩ := eval_app_inv hv
  cases hvs with
  | cons hm hvs =>
    cases hvs with
    | nil => exact numVal_toReal_inv ⟨v, hv, hx⟩
    | cons _ _ => simp [kindVal, vToReal] at hk

lemma relProp_sub {k : Kind} (hk : isPolyNormRel k = true) (x y : ℝ) :
    relProp k x y ↔ relProp k (x - y) 0 := by
  cases k with
  | lt => exact sub_neg.symm
  | leq => exact sub_nonpos.symm
  | gt => exact sub_pos.symm
  | geq => exact sub_nonneg.symm
  | equal => exact sub_eq_zero.symm
  | _ => contradiction

/-- Scaling by a number that is not zero and, for an order, positive. -/
lemma relProp_scale {k : Kind} (hk : isPolyNormRel k = true) {c d x y : ℝ} (hc : c ≠ 0)
    (hd : d ≠ 0) (hsign : k = .equal ∨ SignType.sign c = SignType.sign d)
    (h : c * x = d * y) : relProp k x 0 ↔ relProp k y 0 := by
  have hprod : SignType.sign c * SignType.sign x = SignType.sign d * SignType.sign y := by
    rw [← sign_mul, ← sign_mul, h]
  have hx0 : x = 0 ↔ y = 0 := by
    constructor
    · intro hx
      rw [hx, mul_zero] at h
      exact (mul_eq_zero.1 h.symm).resolve_left hd
    intro hy
    rw [hy, mul_zero] at h
    exact (mul_eq_zero.1 h).resolve_left hc
  rcases hsign with rfl | hsign
  · exact hx0
  have hsxy : SignType.sign x = SignType.sign y := by
    rw [hsign] at hprod
    exact mul_left_cancel₀ (sign_ne_zero.2 hd) hprod
  have hlt : x < 0 ↔ y < 0 := by rw [← sign_eq_neg_one_iff, hsxy, sign_eq_neg_one_iff]
  have hgt : 0 < x ↔ 0 < y := by rw [← sign_eq_one_iff, hsxy, sign_eq_one_iff]
  cases k with
  | lt => exact hlt
  | leq =>
    show x ≤ 0 ↔ y ≤ 0
    rw [← not_lt, ← not_lt, hgt]
  | gt => exact hgt
  | geq =>
    show 0 ≤ x ↔ 0 ≤ y
    rw [← not_lt, ← not_lt, hlt]
  | equal => exact hx0
  | _ => contradiction

lemma sign_cast_eq {c d : Rat} (h : SignType.sign c = SignType.sign d) :
    SignType.sign (c : ℝ) = SignType.sign (d : ℝ) := by
  rcases lt_trichotomy c 0 with hc | rfl | hc
  · have hd : d < 0 := sign_eq_neg_one_iff.1 (h ▸ sign_neg hc)
    rw [sign_neg (by exact_mod_cast hc), sign_neg (by exact_mod_cast hd)]
  · have hd : d = 0 := sign_eq_zero_iff.1 (h ▸ sign_zero)
    rw [hd]
  · have hd : 0 < d := sign_eq_one_iff.1 (h ▸ sign_pos hc)
    rw [sign_pos (by exact_mod_cast hc), sign_pos (by exact_mod_cast hd)]

lemma typeOf_polyNormRel {k : Kind} {T : Ty} (hk : isPolyNormRel k = true) {a b : Node}
    (h : (Node.app k [a, b]).typeOf Γ = some T) : T = .bool := by
  obtain ⟨A, B, _, _, hkind⟩ := typeOf_two_inv h
  unfold kindTy at hkind
  split at hkind
  all_goals simp_all [isPolyNormRel]

lemma numVal_sub_cons_inv {a b : Node} {cs : List Node} {r : ℝ}
    (h : NumVal I (.app .sub (a :: b :: cs)) r) :
    ∃ x y, NumVal I a x ∧ NumVal I b y ∧ r = x - y := by
  cases cs with
  | nil => exact numVal_sub_inv h
  | cons c cs =>
    obtain ⟨v, hv, _⟩ := h
    obtain ⟨vs, hvs, hk⟩ := eval_app_inv hv
    cases hvs with
    | cons _ hvs =>
      cases hvs with
      | cons _ hvs =>
        cases hvs with
        | cons _ _ => simp [kindVal] at hk

lemma polyNormRel_sound
    (h : checkArithPolyNormRel children args = some C) (hC : C.typeOf Γ = some .bool)
    (hok : ∀ F ∈ children, ∃ cx x cy y, F = .app .equal [.app .mult [cx, x], .app .mult [cy, y]] ∧
      cx.rational?.isSome = true ∧ cy.rational?.isSome = true)
    (hty : ∀ F ∈ children, F.typeOf Γ = some .bool) (hF : ∀ F ∈ children, Holds I F) :
    Holds I C := by
  unfold checkArithPolyNormRel at h
  split at h
  swap
  · cases h
  rename_i cx x xs cy y ys es k as rest
  obtain ⟨cx', x', cy', y', heq, hcx, hcy⟩ := hok _ (.head _)
  cases heq
  obtain ⟨c, hc⟩ := Option.isSome_iff_exists.1 hcx
  obtain ⟨d, hd⟩ := Option.isSome_iff_exists.1 hcy
  split at h
  swap
  · cases h
  rename_i hk
  split at h
  swap
  · cases h
  rename_i x1 x2 xs y1 y2 ys hsx hsy
  split at h
  swap
  · cases h
  rename_i hfac
  simp only at h
  split at h
  swap
  · cases h
  cases h
  obtain ⟨A, B, hA, hB, hkind⟩ := typeOf_two_inv hC
  obtain rfl := typeOf_polyNormRel hk hA
  obtain rfl := typeOf_polyNormRel hk hB
  -- the premise equates the scaled differences
  have hprem := hF _ (.head _)
  have hpty := hty _ (.head _)
  obtain ⟨T, hl, hr⟩ := exists_type_of_equal (.inl rfl) hpty
  have hTl := isNum_children (k := .mult) rfl hl
  have hTr := isNum_children (k := .mult) rfl hr
  obtain ⟨u, hu⟩ := (hTl x (by simp)).numVal (I := I)
  obtain ⟨w, hw⟩ := (hTr y (by simp)).numVal (I := I)
  have hprod : c * u = d * w := by
    refine (holds_rel (k := .equal) rfl hpty ?_ ?_).1 hprem
    · exact numVal_mult_two (.inl rfl) (numVal_rational hc) hu
    · exact numVal_mult_two (.inl rfl) (numVal_rational hd) hw
  obtain ⟨p1, p2, hp1, hp2, rfl⟩ := numVal_sub_cons_inv (hsx ▸ numVal_stripToReal hu)
  obtain ⟨q1, q2, hq1, hq2, rfl⟩ := numVal_sub_cons_inv (hsy ▸ numVal_stripToReal hw)
  have hk' : isMultRel k = true := by cases k <;> first | rfl | contradiction
  obtain ⟨hne, hsign⟩ : (c ≠ 0 ∧ d ≠ 0) ∧ (k = .equal ∨ SignType.sign c = SignType.sign d) := by
    simpa [factorsOk, hc, hd, not_or] using hfac
  have hiff : Holds I (.app k [x1, x2]) ↔ Holds I (.app k [y1, y2]) := by
    rw [holds_rel hk' hA hp1 hp2, holds_rel hk' hB hq1 hq2, relProp_sub hk p1, relProp_sub hk q1]
    exact relProp_scale hk (by exact_mod_cast hne.1) (by exact_mod_cast hne.2)
      (hsign.imp_right sign_cast_eq) hprod
  exact (holds_equal_bool hA hB).2 hiff

/-! ## `ARITH_MULT_TANGENT` -/

/-- The sign of a product of two differences. -/
lemma mul_nonpos_iff_cases (p q : ℝ) : p * q ≤ 0 ↔ (p ≤ 0 ∧ 0 ≤ q) ∨ (0 ≤ p ∧ q ≤ 0) := by
  rw [mul_nonpos_iff, or_comm]

lemma mul_nonneg_iff_cases (p q : ℝ) : 0 ≤ p * q ↔ (p ≤ 0 ∧ q ≤ 0) ∨ (0 ≤ p ∧ 0 ≤ q) := by
  rw [mul_nonneg_iff, or_comm]

lemma isRealOrInt_iff : isRealOrInt Γ n = true ↔ IsNum Γ n := by
  unfold isRealOrInt IsNum
  cases n.typeOf Γ <;> simp

lemma arithMultTangent_sound
    (h : checkArithMultTangent Γ children args = some C) (hC : C.typeOf Γ = some .bool) :
    Holds I C := by
  unfold checkArithMultTangent at h
  split at h
  swap
  · cases h
  rename_i x y a b sgn
  split at h
  swap
  · cases h
  rename_i hnum
  cases h
  simp only [Bool.and_eq_true, isRealOrInt_iff] at hnum
  obtain ⟨⟨⟨hx, hy⟩, ha⟩, hb⟩ := hnum
  obtain ⟨u, hu⟩ := hx.numVal (I := I)
  obtain ⟨v, hv⟩ := hy.numVal (I := I)
  obtain ⟨s, hs⟩ := ha.numVal (I := I)
  obtain ⟨t, ht⟩ := hb.numVal (I := I)
  have hmul : ∀ {p q : Node} {m n : ℝ}, NumVal I p m → NumVal I q n →
      NumVal I (.app .mult [p, q]) (m * n) := fun hp hq => numVal_mult_two (.inl rfl) hp hq
  have hplane := numVal_sub (numVal_add_two (hmul ht hu) (hmul hs hv)) (hmul hs ht)
  have hprod := numVal_mult_two (k := .nonlinearMult) (.inr rfl) hu hv
  obtain ⟨A, B, hA, hB, hkind⟩ := typeOf_two_inv hC
  have hbool : A = .bool := typeOf_polyNormRel (by cases sgn <;> rfl) hA
  subst hbool
  have hB' : B = .bool := by
    obtain ⟨A', hA', hB''⟩ := exists_type_of_equal (.inl rfl) hC
    exact some.inj (hB.symm.trans (hB''.trans (hA'.symm.trans hA)))
  subst hB'
  have hors := typeOf_and_inv (.inr hB)
  have hl := typeOf_and_inv (.inl (hors _ (.head _)))
  have hr := typeOf_and_inv (.inl (hors _ (.tail _ (.head _))))
  have hrel : ∀ {k : Kind} {p q : Node} {m n : ℝ}, isOrderKind k = true → NumVal I p m →
      NumVal I q n → (Holds I (.app k [p, q]) ↔ relProp k m n) := fun hk hp hq =>
    (truthVal_rel (kindVal_isOrderKind hk) hp hq).holds
  rw [holds_equal_bool hA hB, holds_or hors]
  simp only [mem_cons, List.not_mem_nil, or_false, exists_eq_or_imp, exists_eq_left]
  rw [holds_and hl, holds_and hr]
  simp only [mem_cons, List.not_mem_nil, or_false, forall_eq_or_imp, forall_eq]
  cases sgn with
  | false =>
    simp only [Bool.false_eq_true, if_false]
    rw [hrel rfl hprod hplane, hrel rfl hu hs, hrel rfl hv ht, hrel rfl hu hs, hrel rfl hv ht]
    have hsign := mul_nonpos_iff_cases (u - s) (v - t)
    simp only [sub_nonpos, sub_nonneg] at hsign
    simp only [relProp]
    rw [ge_iff_le, ge_iff_le, ← hsign]
    constructor <;> intro hle <;> linarith
  | true =>
    simp only [if_true]
    rw [hrel rfl hprod hplane, hrel rfl hu hs, hrel rfl hv ht, hrel rfl hu hs, hrel rfl hv ht]
    have hsign := mul_nonneg_iff_cases (u - s) (v - t)
    simp only [sub_nonpos, sub_nonneg] at hsign
    simp only [relProp]
    rw [ge_iff_le, ge_iff_le, ge_iff_le, ← hsign]
    constructor <;> intro hle <;> linarith

/-! ## `ARITH_MULT_SIGN` -/

section MultSign

/-- What a premise about a variable says of its number. -/
def SignOf (s : Int) (x : ℝ) : Prop := (s = 0 ∧ x ≠ 0) ∨ (s = -1 ∧ x < 0) ∨ (s = 1 ∧ 0 < x)

lemma numVal_isZeroConst {n : Node} (h : isZeroConst n = true) : NumVal I n 0 := by
  have hq := numVal_rational (I := I) (of_decide_eq_true h)
  rwa [Rat.cast_zero] at hq

lemma premiseSign_spec {F v : Node} {s : Int} (h : premiseSign F = some (v, s))
    (hty : F.typeOf Γ = some .bool) (hF : Holds I F) : SignOf s (leafNum I v) := by
  unfold premiseSign at h
  split at h
  · rename_i w z
    split at h
    swap
    · cases h
    rename_i hz
    cases h
    have heq : (Node.app .equal [v, z]).typeOf Γ = some .bool := by
      obtain ⟨Ts, hTs, hk⟩ := typeOf_app_inv hty
      cases hTs with
      | @cons _ S _ _ hn hTs =>
        cases hTs
        cases S <;> first | exact hn | contradiction
    obtain ⟨A, hA, hB⟩ := exists_type_of_equal (.inl rfl) heq
    have hnum : IsNum Γ v := by
      refine ⟨A, hA, ?_⟩
      have hzc := of_decide_eq_true hz
      cases z <;> first | (cases hB; rfl) | contradiction
    obtain ⟨x, hx⟩ := hnum.numVal (I := I)
    refine .inl ⟨rfl, fun hzero => (holds_not heq).1 hF ?_⟩
    rw [leafNum_eq hx] at hzero
    exact (holds_rel rfl heq hx (numVal_isZeroConst hz)).2 hzero
  · rename_i w z
    split at h
    swap
    · cases h
    rename_i hz
    cases h
    obtain ⟨x, hx⟩ := (isNum_of_order rfl hty v (by simp)).numVal (I := I)
    have hlt := (holds_rel rfl hty hx (numVal_isZeroConst hz)).1 hF
    rw [leafNum_eq hx]
    exact .inr (.inl ⟨rfl, hlt⟩)
  · rename_i w z
    split at h
    swap
    · cases h
    rename_i hz
    cases h
    obtain ⟨x, hx⟩ := (isNum_of_order rfl hty v (by simp)).numVal (I := I)
    have hgt := (holds_rel rfl hty hx (numVal_isZeroConst hz)).1 hF
    rw [leafNum_eq hx]
    exact .inr (.inr ⟨rfl, hgt⟩)
  · cases h

variable {signs : List (Node × Int)}

lemma premiseSigns_spec {vars premise : List Node} (h : premiseSigns vars premise = some signs) :
    signs.map Prod.fst = vars ∧ vars.Nodup ∧
      ∀ s ∈ signs, ∃ F ∈ premise, premiseSign F = some s := by
  induction vars generalizing premise signs with
  | nil =>
    cases premise with
    | nil =>
      cases h
      simp
    | cons F premise => contradiction
  | cons v vars ih =>
    cases premise with
    | nil => contradiction
    | cons F premise =>
      rw [premiseSigns] at h
      obtain ⟨s, hs, h⟩ := bind_inv h
      split at h
      swap
      · cases h
      rename_i hv
      obtain ⟨signs', hsigns', rfl⟩ := map_inv h
      obtain ⟨hfst, hnodup, hall⟩ := ih hsigns'
      refine ⟨by rw [map_cons, hfst, hv.1], List.nodup_cons.2 ⟨hv.2, hnodup⟩, ?_⟩
      intro t ht
      rcases mem_cons.1 ht with rfl | ht
      · exact ⟨F, by simp, hs⟩
      · obtain ⟨G, hG, ht⟩ := hall t ht
        exact ⟨G, .tail _ hG, ht⟩

lemma mem_uniqueVars (vs : List Node) (v : Node) : v ∈ uniqueVars vs ↔ v ∈ vs := by
  induction vs using uniqueVars.induct with
  | case1 => rfl
  | case2 w => rfl
  | case3 w vs ih =>
    rw [uniqueVars, if_pos rfl, ih]
    simp
  | case4 w w' vs hne ih => rw [uniqueVars, if_neg hne, mem_cons, ih, mem_cons (a := v) (b := w)]

lemma monomialSign_spec {mon : List Node} {f : Node → ℝ} {sign : Int}
    (hs : ∀ s ∈ signs, SignOf s.2 (f s.1)) (h : monomialSign mon signs = some sign) :
    (sign = 1 ∧ 0 < (signs.map fun s => f s.1 ^ mon.count s.1).prod) ∨
      (sign = -1 ∧ (signs.map fun s => f s.1 ^ mon.count s.1).prod < 0) := by
  induction signs generalizing sign with
  | nil =>
    cases h
    exact .inl ⟨rfl, by simp⟩
  | cons s signs ih =>
    obtain ⟨hsv, hsigns⟩ := forall_mem_cons.1 hs
    rw [map_cons, prod_cons]
    rw [monomialSign] at h
    split at h
    · rename_i heven
      split at h
      swap
      · cases h
      rename_i hzero
      have hne : f s.1 ≠ 0 := by
        rcases hsv with ⟨-, hne⟩ | ⟨hneg, -⟩ | ⟨hpos, -⟩
        · exact hne
        · omega
        · omega
      have hpow := (Nat.even_iff.2 heven).pow_pos hne
      rcases ih hsigns h with ⟨rfl, hpos⟩ | ⟨rfl, hneg⟩
      · exact .inl ⟨rfl, mul_pos hpow hpos⟩
      · exact .inr ⟨rfl, mul_neg_of_pos_of_neg hpow hneg⟩
    rename_i hodd
    have hodd' : Odd (mon.count s.1) := Nat.odd_iff.2 (by omega)
    split at h
    swap
    · cases h
    rename_i hne
    obtain ⟨sign', hsign', rfl⟩ := map_inv h
    rcases hsv with ⟨hzero, -⟩ | ⟨hs1, hlt⟩ | ⟨hs1, hgt⟩
    · exact absurd hzero hne
    · have hpow := hodd'.pow_neg hlt
      rcases ih hsigns hsign' with ⟨rfl, hpos⟩ | ⟨rfl, hneg⟩
      · exact .inr ⟨by rw [hs1]; rfl, mul_neg_of_neg_of_pos hpow hpos⟩
      · exact .inl ⟨by rw [hs1]; rfl, mul_pos_of_neg_of_neg hpow hneg⟩
    have hpow := pow_pos hgt (mon.count s.1)
    rcases ih hsigns hsign' with ⟨rfl, hpos⟩ | ⟨rfl, hneg⟩
    · exact .inl ⟨by rw [hs1]; rfl, mul_pos hpow hpos⟩
    · exact .inr ⟨by rw [hs1]; rfl, mul_neg_of_pos_of_neg hpow hneg⟩

lemma prod_eq_prod_signs {vs : List Node} (f : Node → ℝ)
    (hfst : signs.map Prod.fst = uniqueVars vs) (hnodup : (uniqueVars vs).Nodup) :
    (vs.map f).prod = (signs.map fun s => f s.1 ^ vs.count s.1).prod := by
  have hset : (uniqueVars vs).toFinset = vs.toFinset := by
    ext v
    rw [List.mem_toFinset, List.mem_toFinset, mem_uniqueVars]
  have hmap : signs.map (fun s => f s.1 ^ vs.count s.1) =
      (uniqueVars vs).map fun v => f v ^ vs.count v := by
    rw [← hfst, List.map_map]
    rfl
  rw [hmap, Finset.prod_list_map_count, ← hset, List.prod_toFinset _ hnodup]

lemma arithMultSign_sound {children args : List Node} {C : Node}
    (h : checkArithMultSign Γ children args = some C) (hC : C.typeOf Γ = some .bool) :
    Holds I C := by
  unfold checkArithMultSign at h
  split at h
  swap
  · cases h
  rename_i F k vs
  split at h
  swap
  · cases h
  rename_i hk
  obtain ⟨signs, hsigns, h⟩ := bind_inv h
  obtain ⟨sign, hsign, h⟩ := bind_inv h
  obtain ⟨T, _, h⟩ := bind_inv h
  obtain ⟨zero, hzero, rfl⟩ := map_inv h
  obtain ⟨hA, hB⟩ := typeOf_implies_inv hC
  rw [holds_implies hA hB, holds_mkAnd (typeOf_mkAnd_inv hA)]
  intro hprem
  obtain ⟨hfst, hnodup, hall⟩ := premiseSigns_spec hsigns
  have hsignOf : ∀ s ∈ signs, SignOf s.2 (leafNum I s.1) := by
    intro s hs
    obtain ⟨G, hG, hGs⟩ := hall s hs
    exact premiseSign_spec hGs (typeOf_mkAnd_inv hA G hG) (hprem G hG)
  obtain ⟨A, B, hmon, hz, _⟩ := typeOf_two_inv hB
  have hkind : isArithKind k = true := by
    rcases hk with rfl | rfl <;> rfl
  obtain ⟨xs, hxs⟩ := forall₂_numVal_of_isNum (I := I) (isNum_children hkind hmon)
  have hxs' : vs.map (leafNum I) = xs := by
    clear * - hxs
    induction hxs with
    | nil => rfl
    | cons hv _ ih => rw [map_cons, leafNum_eq hv, ih]
  have hprod := prod_eq_prod_signs (leafNum I) hfst hnodup
  have hnum := numVal_mult hk hxs
  rw [← hxs', hprod] at hnum
  have hz0 := numVal_mkConstRealOrInt (I := I) hzero
  rw [Int.cast_zero] at hz0
  rcases monomialSign_spec hsignOf hsign with ⟨rfl, hpos⟩ | ⟨rfl, hneg⟩
  · exact (holds_rel (k := .gt) rfl hB hnum hz0).2 hpos
  · exact (holds_rel (k := .lt) rfl hB hnum hz0).2 hneg

end MultSign

/-! ## `ARITH_MULT_ABS_COMPARISON` -/

section AbsComparison

/-- What a premise says of its two factors. -/
def AbsOf (k : Kind) (x y : ℝ) : Prop :=
  match k with
  | .equal => |x| = |y|
  | _ => |y| ≤ |x| ∧ x ≠ 0

lemma numVal_absFactor {t s l : Node} {x : ℝ} (h : absFactor Γ t s = some l)
    (hx : NumVal I t x) : NumVal I l x := by
  unfold absFactor at h
  split at h
  swap
  · cases h
    exact hx
  split at h
  swap
  · cases h
  rename_i hone
  obtain ⟨T, _, h⟩ := bind_inv h
  have hl := numVal_mkConstRealOrInt (I := I) h
  rw [(numVal_rational hone.1).unique hx]
  simpa using hl

lemma typeOf_abs_inv {t : Node} {ts : List Node} {T : Ty}
    (h : (Node.app .abs (t :: ts)).typeOf Γ = some T) : IsNum Γ t ∧ ts = [] := by
  refine ⟨isNum_children (k := .abs) rfl h t (by simp), ?_⟩
  obtain ⟨Ts, hTs, hk⟩ := typeOf_app_inv h
  cases hTs with
  | cons _ hTs =>
    cases hTs with
    | nil => rfl
    | cons _ _ => contradiction

lemma isDisequalZero_spec {G v : Node} {x : ℝ} (h : isDisequalZero G = some v)
    (hty : G.typeOf Γ = some .bool) (hG : Holds I G) (hx : NumVal I v x) : x ≠ 0 := by
  unfold isDisequalZero at h
  split at h
  swap
  · cases h
  rename_i w z zs rest
  split at h
  swap
  · cases h
  rename_i hz
  cases h
  obtain ⟨Ts, hTs, hk⟩ := typeOf_app_inv hty
  cases hTs with
  | @cons _ S _ _ hn hTs =>
    cases hTs with
    | cons _ _ => cases S <;> contradiction
    | nil =>
      have heq : (Node.app .equal (v :: z :: zs)).typeOf Γ = some .bool := by
        cases S <;> first | exact hn | contradiction
      obtain rfl := typeOf_rel_rest (k := .equal) rfl (by simp) heq
      intro hzero
      refine (holds_not heq).1 hG ?_
      exact (holds_rel rfl heq hx (numVal_isZeroConst hz)).2 hzero

/-- A premise is a comparison literal, and its guard a disequality with zero. -/
lemma splitGuard_spec {c lit : Node} {guard : Option Node} (h : splitGuard c = some (lit, guard))
    (hty : c.typeOf Γ = some .bool) (hc : Holds I c) :
    lit.typeOf Γ = some .bool ∧ Holds I lit ∧ ∀ v x, guard = some v → NumVal I v x → x ≠ 0 := by
  unfold splitGuard at h
  split at h
  swap
  · cases h
    exact ⟨hty, hc, by simp⟩
  rename_i cs
  split at h
  swap
  · cases h
  rename_i lit' G
  obtain ⟨v, hv, heq⟩ := map_inv h
  cases heq
  have hmem := typeOf_and_inv (.inl hty)
  have hall := (holds_and hmem).1 hc
  refine ⟨hmem lit (by simp), hall lit (by simp), ?_⟩
  rintro w x hw hx
  cases hw
  exact isDisequalZero_spec hv (hmem G (by simp)) (hall G (by simp)) hx

variable {k : Kind}

lemma absFactors_spec {c l r : Node} (h : absFactors Γ k c = some (l, r))
    (hty : c.typeOf Γ = some .bool) (hc : Holds I c) :
    (k = .equal ∨ k = .gt) ∧ ∃ x y, NumVal I l x ∧ NumVal I r y ∧ AbsOf k x y ∧
      (k = .gt → c.kind? = some .gt → |y| < |x|) := by
  unfold absFactors at h
  obtain ⟨⟨lit, guard⟩, hsplit, h⟩ := bind_inv h
  obtain ⟨hlty, hlit, hguard⟩ := splitGuard_spec hsplit hty hc
  split at h
  swap
  · cases h
  rename_i hok
  split at h
  swap
  · cases h
  rename_i ck t ts s ss rest hlit'
  simp only at hlit' hok
  subst hlit'
  obtain ⟨l', hl, h⟩ := bind_inv h
  obtain ⟨r', hr, heq⟩ := map_inv h
  cases heq
  have hck : (k = .equal ∧ ck = .equal) ∨ (k = .gt ∧ ck = .gt) ∨
      (k = .gt ∧ ck = .equal ∧ guard = some t) := by
    unfold comparisonOk at hok
    split at hok <;> simp_all
  have hrel : isMultRel ck = true := by
    rcases hck with ⟨-, rfl⟩ | ⟨-, rfl⟩ | ⟨-, rfl, -⟩ <;> rfl
  obtain ⟨A, B, hA, hB⟩ : ∃ A B, (Node.app .abs (t :: ts)).typeOf Γ = some A ∧
      (Node.app .abs (s :: ss)).typeOf Γ = some B := by
    obtain ⟨A, hA⟩ := exists_typeOf_of_mem hlty (.head _)
    obtain ⟨B, hB⟩ := exists_typeOf_of_mem hlty (.tail _ (.head _))
    exact ⟨A, B, hA, hB⟩
  obtain ⟨ht, rfl⟩ := typeOf_abs_inv hA
  obtain ⟨hs, rfl⟩ := typeOf_abs_inv hB
  obtain ⟨x, hx⟩ := ht.numVal (I := I)
  obtain ⟨y, hy⟩ := hs.numVal (I := I)
  have hxy := relProp_of_holds hrel hlty hlit (numVal_abs hx) (numVal_abs hy)
  have hl' := numVal_absFactor hl hx
  have hr' := numVal_absFactor hr hy
  rcases hck with ⟨rfl, rfl⟩ | ⟨rfl, rfl⟩ | ⟨rfl, rfl, hg⟩
  · exact ⟨.inl rfl, x, y, hl', hr', hxy, by simp⟩
  · have hlt : |y| < |x| := hxy
    exact ⟨.inr rfl, x, y, hl', hr', ⟨hlt.le, abs_pos.1 ((abs_nonneg y).trans_lt hlt)⟩,
      fun _ _ => hlt⟩
  have heq : |x| = |y| := hxy
  refine ⟨.inr rfl, x, y, hl', hr', ⟨heq.ge, hguard t x hg hx⟩, fun _ hkind => ?_⟩
  -- an unguarded premise of this kind would be the literal itself
  unfold splitGuard at hsplit
  split at hsplit
  · cases hkind
  · cases hsplit
    cases hkind

lemma absOf_mul {x y u v : ℝ} (h : AbsOf k x y) (h' : AbsOf k u v) : AbsOf k (x * u) (y * v) := by
  have hmul : |y| ≤ |x| ∧ x ≠ 0 → |v| ≤ |u| ∧ u ≠ 0 → |y * v| ≤ |x * u| ∧ x * u ≠ 0 := by
    rintro ⟨hyx, hx⟩ ⟨hvu, hu⟩
    rw [abs_mul, abs_mul]
    exact ⟨mul_le_mul hyx hvu (abs_nonneg v) (abs_nonneg x), mul_ne_zero hx hu⟩
  cases k with
  | equal =>
    have hxy : |x| = |y| := h
    have huv : |u| = |v| := h'
    show |x * u| = |y * v|
    rw [abs_mul, abs_mul, hxy, huv]
  | _ => exact hmul h h'

lemma absOf_one (k : Kind) : AbsOf k 1 1 := by
  unfold AbsOf
  split <;> simp

lemma mapM_absFactors_spec {cs : List Node} {factors : List (Node × Node)}
    (h : cs.mapM (absFactors Γ k) = some factors) (hty : ∀ F ∈ cs, F.typeOf Γ = some .bool)
    (hF : ∀ F ∈ cs, Holds I F) :
    ∃ xs ys, Forall₂ (NumVal I) (factors.map Prod.fst) xs ∧
      Forall₂ (NumVal I) (factors.map Prod.snd) ys ∧ AbsOf k xs.prod ys.prod := by
  induction cs generalizing factors with
  | nil =>
    cases h
    exact ⟨[], [], .nil, .nil, by simpa using absOf_one k⟩
  | cons c cs ih =>
    rw [List.mapM_cons] at h
    obtain ⟨⟨l, r⟩, hlr, h⟩ := bind_inv h
    obtain ⟨factors', hfactors', h⟩ := bind_inv h
    cases h
    obtain ⟨hcty, hcsty⟩ := forall_mem_cons.1 hty
    obtain ⟨hc, hcs⟩ := forall_mem_cons.1 hF
    obtain ⟨_, x, y, hx, hy, hxy, _⟩ := absFactors_spec hlr hcty hc
    obtain ⟨xs, ys, hxs, hys, hprod⟩ := ih hfactors' hcsty hcs
    refine ⟨x :: xs, y :: ys, .cons hx hxs, .cons hy hys, ?_⟩
    rw [prod_cons, prod_cons]
    exact absOf_mul hxy hprod

lemma numVal_mkProduct {ns : List Node} {xs : List ℝ} (h : Forall₂ (NumVal I) ns xs) :
    NumVal I (mkProduct ns) xs.prod := by
  unfold mkProduct
  split
  swap
  · exact numVal_mult (Or.inr rfl) h
  cases h with
  | cons hn h =>
    cases h
    simpa using hn

lemma arithMultAbsComparison_sound {children args : List Node} {C : Node}
    (h : checkArithMultAbsComparison Γ children args = some C) (hC : C.typeOf Γ = some .bool)
    (hty : ∀ F ∈ children, F.typeOf Γ = some .bool) (hF : ∀ F ∈ children, Holds I F) :
    Holds I C := by
  unfold checkArithMultAbsComparison at h
  split at h
  swap
  · cases h
  rename_i k cs rest
  obtain ⟨factors, hfactors, h⟩ := bind_inv h
  rw [List.mapM_cons] at hfactors
  obtain ⟨⟨l, r⟩, hlr, hfactors⟩ := bind_inv hfactors
  obtain ⟨factors', hfactors', hcons⟩ := bind_inv hfactors
  cases hcons
  obtain ⟨hfty, hrty⟩ := forall_mem_cons.1 hty
  obtain ⟨hf, hr⟩ := forall_mem_cons.1 hF
  obtain ⟨hk, x, y, hx, hy, hxy, hstrict⟩ := absFactors_spec hlr hfty hf
  obtain ⟨xs, ys, hxs, hys, hprod⟩ := mapM_absFactors_spec hfactors' hrty hr
  unfold mkLit at h
  split at h
  swap
  · cases h
  cases h
  have hl := numVal_abs (numVal_mkProduct (Forall₂.cons hx hxs))
  have hr' := numVal_abs (numVal_mkProduct (Forall₂.cons hy hys))
  have hrel : isMultRel k = true := by
    rcases hk with rfl | rfl <;> rfl
  refine (holds_rel hrel hC hl hr').2 ?_
  rw [prod_cons, prod_cons]
  rcases hk with rfl | rfl
  · exact absOf_mul hxy hprod
  -- the first premise is strict, and the other factors are not zero
  have hlt : |y| < |x| := hstrict rfl rfl
  have hle : |ys.prod| ≤ |xs.prod| ∧ xs.prod ≠ 0 := hprod
  show |y * ys.prod| < |x * xs.prod|
  rw [abs_mul, abs_mul]
  calc |y| * |ys.prod| ≤ |y| * |xs.prod| :=
        mul_le_mul_of_nonneg_left hle.1 (abs_nonneg y)
    _ < |x| * |xs.prod| := mul_lt_mul_of_pos_right hlt (abs_pos.2 hle.2)

end AbsComparison

/-! ## All rules -/

variable (Γ) in
/-- The formula holds wherever the premises do. -/
def Entails (premises : List Node) (C : Node) : Prop :=
  ∀ I : Interp Γ, (∀ F ∈ premises, Holds I F) → Holds I C

/-- The premises that the checks of a rule are meant for: scaled premises are
relations, a tightened bound is strict or not integral, and the factors of
`ARITH_POLY_NORM_REL` are two constants. -/
def IsIntended (rule : ArithRule) (children : List Node) : Prop :=
  match rule with
  | .macroArithScaleSumUb => ∀ F ∈ children, ∀ k cs, F = .app k cs → isScaledRel k = true
  | .intTightLb => ∀ F ∈ children, F.kind? = some .gt ∨
      ∀ c q, F.child? 1 = some c → c.rational? = some q → q.den ≠ 1
  | .intTightUb => ∀ F ∈ children, F.kind? = some .lt ∨
      ∀ c q, F.child? 1 = some c → c.rational? = some q → q.den ≠ 1
  | .arithPolyNormRel => ∀ F ∈ children, ∃ cx x cy y,
      F = .app .equal [.app .mult [cx, x], .app .mult [cy, y]] ∧
        cx.rational?.isSome = true ∧ cy.rational?.isSome = true
  | _ => True

/-- A formula that a checker returns follows from intended premises. -/
theorem checkArith_sound (hle : IsOrder le) (rule : ArithRule) (children args : List Node)
    (C : Node) (h : checkArith Γ le rule children args = some C) (hC : C.typeOf Γ = some .bool)
    (hty : ∀ F ∈ children, F.typeOf Γ = some .bool) (hok : IsIntended rule children) :
    Entails Γ children C := by
  intro I hF
  cases rule with
  | arithMultPos => exact arithMultPos_sound h hC
  | arithMultNeg => exact arithMultNeg_sound h hC
  | arithSumUb => exact arithSumUb_sound h hC hty hF
  | macroArithScaleSumUb => exact macroArithScaleSumUb_sound h hC hok hty hF
  | intTightLb => exact intTightLb_sound h hC hok hty hF
  | intTightUb => exact intTightUb_sound h hC hok hty hF
  | arithTrichotomy => exact arithTrichotomy_sound h hC hty hF
  | arithPolyNorm => exact arithPolyNorm_sound hle h hC
  | arithPolyNormRel => exact polyNormRel_sound h hC hok hty hF
  | arithMultSign => exact arithMultSign_sound h hC
  | arithMultTangent => exact arithMultTangent_sound h hC
  | arithMultAbsComparison => exact arithMultAbsComparison_sound h hC hty hF

open Classical in
noncomputable def nodeOrder (a b : Node) : Bool := decide (a = b ∨ WellOrderingRel a b)

lemma isOrder_nodeOrder : IsOrder nodeOrder := isOrder_someOrder

/-- From `2 > 1` for integers follows `2 ≥ 2`. -/
theorem checkArith_sound_intTightLb :
    Entails (fun _ => .int) [.app .gt [.constInteger 2, .constInteger 1]]
      (.app .geq [.constInteger 2, .constInteger 2]) :=
  checkArith_sound isOrder_nodeOrder .intTightLb [.app .gt [.constInteger 2, .constInteger 1]] []
    (.app .geq [.constInteger 2, .constInteger 2]) (by rfl) (by decide +kernel)
    (by decide +kernel) (by intro F hF; exact .inl (by simp_all [Node.kind?]))

/-! ## Where the checks are not complete -/

section Unsound

lemma numVal_int (z : Int) : NumVal I (.constInteger z) z := by
  simpa using numVal_rational (I := I) (c := .constInteger z) (q := z) rfl

/-- A predicate of two integers. -/
def predSig : Nat → Ty := fun _ => .fn .int (.fn .int .bool)

/-- A predicate is scaled like a relation, a non-strict integral bound is
tightened, and a premise with factors zero is used. -/
theorem checkArith_unsound : (checkArith predSig nodeOrder .macroArithScaleSumUb
        [.app (.applyUf 0) [.constInteger 1, .constInteger 0],
          .app .leq [.constInteger 0, .constInteger 0]]
        [.constInteger 1, .constInteger 1] =
      some (.app .leq [.app .add [.constInteger 1, .constInteger 0],
        .app .add [.constInteger 0, .constInteger 0]]) ∧
      ¬ Entails predSig [.app (.applyUf 0) [.constInteger 1, .constInteger 0],
          .app .leq [.constInteger 0, .constInteger 0]]
        (.app .leq [.app .add [.constInteger 1, .constInteger 0],
          .app .add [.constInteger 0, .constInteger 0]])) ∧
    (checkArith predSig nodeOrder .intTightLb [.app .geq [.constInteger 0, .constInteger 0]] [] =
      some (.app .geq [.constInteger 0, .constInteger 1]) ∧
      ¬ Entails predSig [.app .geq [.constInteger 0, .constInteger 0]]
        (.app .geq [.constInteger 0, .constInteger 1])) ∧
    (checkArith predSig nodeOrder .arithPolyNormRel [.app .equal
          [.app .mult [.app .add [.constInteger 0, .constInteger 0],
              .app .sub [.constInteger 1, .constInteger 0]],
            .app .mult [.app .add [.constInteger 0, .constInteger 0],
              .app .sub [.constInteger 0, .constInteger 1]]]]
        [.app .equal [.app .geq [.constInteger 1, .constInteger 0],
          .app .geq [.constInteger 0, .constInteger 1]]] =
      some (.app .equal [.app .geq [.constInteger 1, .constInteger 0],
        .app .geq [.constInteger 0, .constInteger 1]]) ∧
      ¬ Entails predSig [.app .equal [.app .mult [.app .add [.constInteger 0, .constInteger 0],
              .app .sub [.constInteger 1, .constInteger 0]],
            .app .mult [.app .add [.constInteger 0, .constInteger 0],
              .app .sub [.constInteger 0, .constInteger 1]]]]
        (.app .equal [.app .geq [.constInteger 1, .constInteger 0],
          .app .geq [.constInteger 0, .constInteger 1]])) := by
  have hrel : ∀ {k : Kind} {a b : Node} {x y : ℝ}, isOrderKind k = true →
      NumVal (badInterp predSig) a x → NumVal (badInterp predSig) b y →
      (Holds (badInterp predSig) (.app k [a, b]) ↔ relProp k x y) := fun hk ha hb =>
    (truthVal_rel (kindVal_isOrderKind hk) ha hb).holds
  have hadd : ∀ m n : Int, NumVal (badInterp predSig)
      (.app .add [.constInteger m, .constInteger n]) ((m : ℝ) + n) := fun m n =>
    numVal_add_two (numVal_int m) (numVal_int n)
  refine ⟨⟨by decide +kernel, fun h => ?_⟩, ⟨by decide +kernel, fun h => ?_⟩,
    ⟨by decide +kernel, fun h => ?_⟩⟩
  · have hC := h (badInterp predSig) (by
      intro F hF
      rcases List.mem_pair.1 hF with rfl | rfl
      · show eval _ _ = _
        rw [eval_app_two (v := .int 1) (w := .int 0) (by rw [eval]) (by rw [eval])]
        have hval : kindVal (badInterp predSig) (.applyUf 0) [.int 1, .int 0] =
            some (.bool (truth ((1 : Int) = 1))) := rfl
        rw [hval, truth_of rfl]
      · refine (hrel rfl (numVal_int 0) (numVal_int 0)).2 ?_
        exact le_refl _)
    have hle := (hrel rfl (hadd 1 0) (hadd 0 0)).1 hC
    simp only [relProp] at hle
    norm_num at hle
  · have hC := h (badInterp predSig) (by
      intro F hF
      rw [List.mem_singleton.1 hF]
      exact (hrel rfl (numVal_int 0) (numVal_int 0)).2 (le_refl _))
    have hle := (hrel rfl (numVal_int 0) (numVal_int 1)).1 hC
    simp only [relProp] at hle
    norm_num at hle
  have hC := h (badInterp predSig) (by
    intro F hF
    rw [List.mem_singleton.1 hF]
    refine (holds_rel (k := .equal) rfl (by decide +kernel)
      (numVal_mult_two (.inl rfl) (hadd 0 0) (numVal_sub (numVal_int 1) (numVal_int 0)))
      (numVal_mult_two (.inl rfl) (hadd 0 0) (numVal_sub (numVal_int 0) (numVal_int 1)))).2 ?_
    simp [relProp])
  have hiff := (holds_equal_bool (by decide +kernel) (by decide +kernel)).1 hC
  rw [hrel rfl (numVal_int 1) (numVal_int 0), hrel rfl (numVal_int 0) (numVal_int 1)] at hiff
  simp only [relProp] at hiff
  norm_num at hiff

end Unsound

end EthosCpc.Cvc5
