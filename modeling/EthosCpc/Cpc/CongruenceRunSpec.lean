import EthosCpc.Cpc.CongruenceSpec

/-!
# Soundness of proofs with scopes

The other rules over terms with binders are sound at each assignment by
itself.  By induction on the proof, the conclusion then holds under every
assignment that satisfies the undischarged assumptions, provided that no
congruence step crosses a binder whose variable one of them mentions.

The checker has no such condition.  An assumption `(= x 0)` lets a step
rewrite below a quantifier over `x`; once `scope` has discharged it,
nothing open is left, and the conclusion is false.
-/

namespace EthosCpc.Hol

open Library.Assignment
open EthosCpc (truth truth_of truth_of_not)
open EthosCpc.Hol.Term (bop uop)
open Option (map_some)
open List (mem_cons mem_cons_self)

section Steps

variable {Γ : Sig} {I : Interp Γ} {ρ : Env I.U} {Δ Fs : List Term} {a b t u F C φ : Term}

lemma Sat.truth_eq {p : Bool} (h : Sat I ρ F) (hp : Truth I ρ F p) : p = true := by
  rwa [Sat, hp, Option.some.injEq, Den.bool_inj] at h

/-! ## Truth values -/

lemma trueIntro_sat (hF : Sat I ρ F) : Sat I ρ (bop .eq F (.bool true)) :=
  sat_eq_of_truth hF (den_bool true) rfl

lemma trueElim_sat (h : trueElim F = some φ) (hF : Sat I ρ F) : Sat I ρ φ := by
  unfold trueElim at h
  split at h
  swap
  · cases h
  cases h
  obtain ⟨x, ha, hb⟩ := sat_eq.1 hF
  rw [Sat, ha, ← hb]
  rfl

lemma falseIntro_sat (h : falseIntro F = some φ) (hF : Sat I ρ F) : Sat I ρ φ := by
  unfold falseIntro at h
  split at h
  · cases h
    exact sat_eq_of_truth (sat_not.1 hF) (den_bool false) rfl
  · cases h

lemma falseElim_sat (h : falseElim F = some φ) (hF : Sat I ρ F) : Sat I ρ φ := by
  unfold falseElim at h
  split at h
  swap
  · cases h
  cases h
  obtain ⟨x, ha, hb⟩ := sat_eq.1 hF
  apply sat_not.2
  rw [Truth, ha, ← hb]
  rfl

/-! ## Scopes -/

lemma scope_sat {G : Term} (hF : ∃ p, Truth I ρ F p) (hG : ∃ q, Truth I ρ G q)
    (h : Sat I ρ F → Sat I ρ G) : Sat I ρ (bop .imp F G) := by
  obtain ⟨p, hp⟩ := hF
  obtain ⟨q, hq⟩ := hG
  have himp := den_imp hp hq
  cases p with
  | false => exact himp
  | true =>
    obtain rfl := (h hp).truth_eq hq
    exact himp

lemma sat_of_imp (h : Sat I ρ (bop .imp a b)) (ha : Sat I ρ a) : Sat I ρ b := by
  obtain ⟨p, q, hp, hq, heq⟩ := den_imp_inv h
  obtain rfl := ha.truth_eq hp
  rw [Den.bool_inj, Bool.not_true, Bool.false_or] at heq
  rw [Sat, hq, ← heq]

lemma sat_and (h : Sat I ρ (bop .and a b)) : Sat I ρ a ∧ Sat I ρ b := by
  obtain ⟨p, q, hp, hq, heq⟩ := den_and_inv h
  rw [Den.bool_inj, eq_comm, Bool.and_eq_true] at heq
  rw [Sat, Sat, hp, hq, heq.1, heq.2]
  exact ⟨rfl, rfl⟩

lemma extractAntecRec_sat (h : extractAntecRec F C = some a) (hF : Sat I ρ F) (ha : Sat I ρ a) :
    Sat I ρ C := by
  induction F generalizing a with
  | app f F2 _ ih =>
    unfold extractAntecRec at h
    split at h
    · rename_i heq
      rwa [heq] at hF
    split at h
    swap
    · cases h
    rename_i F1 G heq
    cases heq
    obtain ⟨b, hb, rfl⟩ := map_inv h
    obtain ⟨h1, h2⟩ := sat_and ha
    exact ih hb (sat_of_imp hF h1) h2
  | _ =>
    unfold extractAntecRec at h
    split at h
    · rename_i heq
      rwa [heq] at hF
    · cases h

lemma extractAntec_sat (h : extractAntec F C = some a) (hF : Sat I ρ F) (ha : Sat I ρ a) :
    Sat I ρ C := by
  unfold extractAntec at h
  split at h
  swap
  · exact extractAntecRec_sat h hF ha
  split at h
  swap
  · exact extractAntecRec_sat h hF ha
  rename_i hC
  cases h
  rw [← hC]
  exact sat_of_imp hF ha

lemma runProcessScope_sat (h : runProcessScope F C = some φ) (hφ : ∃ p, Truth I ρ φ p)
    (hF : Sat I ρ F) : Sat I ρ φ := by
  obtain ⟨p, hp⟩ := hφ
  unfold runProcessScope at h
  split at h
  swap
  · obtain ⟨a, ha, rfl⟩ := map_inv h
    obtain ⟨q, r, hq, hr, _⟩ := den_imp_inv hp
    exact scope_sat ⟨q, hq⟩ ⟨r, hr⟩ (extractAntec_sat ha hF)
  rename_i hC
  obtain ⟨a, ha, rfl⟩ := map_inv h
  obtain ⟨q, hq, _⟩ := den_not_inv hp
  apply sat_not.2
  cases q with
  | false => exact hq
  | true =>
    have hfalse := extractAntec_sat ha hF hq
    rw [hC] at hfalse
    cases hfalse

/-! ## Resolution -/

variable {xs : List Term}

lemma eq_mkOr_of_orList (h : orList C = some xs) : C = mkOr xs := by
  fun_induction orList C generalizing xs with
  | case1 a b ih =>
    obtain ⟨ys, hys, rfl⟩ := map_inv h
    rw [mkOr, ← ih hys]
  | case2 =>
    cases h
    rfl
  | case3 => contradiction

lemma sat_mkOr (h : Sat I ρ (mkOr xs)) : ∃ x ∈ xs, Sat I ρ x := by
  induction xs with
  | nil => cases h
  | cons x xs ih =>
    obtain ⟨p, q, hp, hq, heq⟩ := den_or_inv h
    cases p with
    | true => exact ⟨x, .head _, hp⟩
    | false =>
      rw [Den.bool_inj, Bool.false_or] at heq
      rw [← heq] at hq
      obtain ⟨y, hy, hsat⟩ := ih hq
      exact ⟨y, List.mem_cons_of_mem x hy, hsat⟩

lemma sat_mkOr_of_mem (hty : ∃ p, Truth I ρ (mkOr xs) p) {x : Term}
    (hx : x ∈ xs) (h : Sat I ρ x) : Sat I ρ (mkOr xs) := by
  induction xs with
  | nil => exact absurd hx List.not_mem_nil
  | cons y ys ih =>
    obtain ⟨r, hr⟩ := hty
    obtain ⟨p, q, hp, hq, _⟩ := den_or_inv hr
    have hor := den_or hp hq
    cases mem_cons.1 hx with
    | inl heq =>
      rw [← heq] at hp
      obtain rfl := h.truth_eq hp
      exact hor
    | inr hmem =>
      obtain rfl := (ih ⟨q, hq⟩ hmem).truth_eq hq
      rwa [Bool.or_true] at hor

lemma sat_toClause (h : Sat I ρ F) : Sat I ρ (toClause F) := by
  unfold toClause
  split
  · exact h
  · exact h
  · exact den_or h (den_bool false)

lemma truth_fromClause {p : Bool} (h : Truth I ρ (fromClause F) p) : Truth I ρ F p := by
  unfold fromClause at h
  split at h
  swap
  · exact h
  split at h
  swap
  · exact h
  rename_i hF
  subst hF
  have hor := den_or h (den_bool false)
  rwa [Bool.or_false] at hor

lemma sat_fromClause (hty : ∃ p, Truth I ρ (fromClause F) p) (h : Sat I ρ F) :
    Sat I ρ (fromClause F) := by
  obtain ⟨p, hp⟩ := hty
  obtain rfl := h.truth_eq (truth_fromClause hp)
  exact hp

@[simp] lemma orList_mkOr (xs : List Term) : orList (mkOr xs) = some xs := by
  induction xs with
  | nil => rfl
  | cons x xs ih => rw [mkOr, orList, ih, map_some]

/-- The rest of a clause without the literal has a true element, or the literal is true. -/
lemma removeMaybeSelf_sat {l D : Term} (h : removeMaybeSelf l C = some D) (hC : Sat I ρ C) :
    ∃ xs, orList D = some xs ∧ (Sat I ρ l ∨ ∃ x ∈ xs, Sat I ρ x) := by
  unfold removeMaybeSelf at h
  split at h
  · rename_i hl
    cases h
    exact ⟨[], rfl, .inl (hl ▸ hC)⟩
  obtain ⟨xs, hxs, rfl⟩ := map_inv h
  refine ⟨xs.erase l, orList_mkOr _, ?_⟩
  rw [eq_mkOr_of_orList hxs] at hC
  obtain ⟨x, hx, hsat⟩ := sat_mkOr hC
  by_cases hxl : x = l
  · exact .inl (hxl ▸ hsat)
  · exact .inr ⟨x, (List.mem_erase_of_ne hxl).2 hx, hsat⟩

/-- The two literals of a resolution step are complementary. -/
lemma not_sat_pivots {pol L lp ln : Term} (hp : eoIte pol L (uop .not L) = some lp)
    (hn : eoIte pol (uop .not L) L = some ln) (h : Sat I ρ lp) : ¬ Sat I ρ ln := by
  have hnot : Sat I ρ (uop .not L) → ¬ Sat I ρ L := by
    intro hnot hL
    cases hL.truth_eq (sat_not.1 hnot)
  intro h'
  unfold eoIte at hp hn
  split at hp
  · cases hp
    cases hn
    exact hnot h' h
  · cases hp
    cases hn
    exact hnot h h'
  · cases hp

lemma resolve_sat {D pol L : Term} (h : resolve C D pol L = some φ)
    (hφ : ∃ p, Truth I ρ φ p) (hC : Sat I ρ C) (hD : Sat I ρ D) : Sat I ρ φ := by
  obtain ⟨lp, hlp, h⟩ := bind_inv h
  obtain ⟨ln, hln, h⟩ := bind_inv h
  obtain ⟨C', hC', h⟩ := bind_inv h
  obtain ⟨D', hD', h⟩ := bind_inv h
  obtain ⟨R, hR, rfl⟩ := map_inv h
  obtain ⟨xs, hxs, hx⟩ := removeMaybeSelf_sat hC' (sat_toClause hC)
  obtain ⟨ys, hys, hy⟩ := removeMaybeSelf_sat hD' (sat_toClause hD)
  rw [orListConcat, hxs, Option.bind_some, hys, map_some] at hR
  cases hR
  have hty : ∃ p, Truth I ρ (mkOr (xs ++ ys)) p := by
    obtain ⟨p, hp⟩ := hφ
    exact ⟨p, truth_fromClause hp⟩
  apply sat_fromClause hφ
  obtain hl | ⟨x, hx, hsat⟩ := hx
  · obtain hl' | ⟨y, hy, hsat⟩ := hy
    · exact absurd hl' (not_sat_pivots hlp hln hl)
    · exact sat_mkOr_of_mem hty (List.mem_append_right xs hy) hsat
  · exact sat_mkOr_of_mem hty (List.mem_append_left ys hx) hsat

/-! ## One step -/

/-- A step that crosses no binder over a free variable of the assumptions is sound. -/
lemma Rule.conclude_sat {r : Rule} (h : r.conclude Fs = some φ) (hFs : Premises I Δ Fs)
    (hfresh : ∀ xs ∈ r.crossed Fs, Fresh Δ xs) (hty : HasTy Γ φ .bool) (hρ : ρ ∈ Models I Δ) :
    Sat I ρ φ := by
  have hsat : ∀ F ∈ Fs, Sat I ρ F := fun F hF => hFs.sat F hF ρ hρ
  unfold Rule.conclude at h
  split at h
  case h_1 =>
    cases h
    exact sat_of_rewrites hFs (.same _) hty hρ
  case h_2 => exact mkSymm_sat h (hsat _ (.head _))
  case h_3 => exact trans_sat h hsat
  case h_4 => exact cong_sat h hFs hfresh hty hρ
  case h_5 => exact naryCong_sat h hFs hfresh hty hρ
  case h_6 => exact pairwiseCong_sat h hFs hfresh hty hρ
  case h_7 => exact hoCong_sat h hFs hty hρ
  case h_8 =>
    cases h
    exact trueIntro_sat (hsat _ (.head _))
  case h_9 => exact trueElim_sat h (hsat _ (.head _))
  case h_10 => exact falseIntro_sat h (hsat _ (.head _))
  case h_11 => exact falseElim_sat h (hsat _ (.head _))
  case h_12 => exact runProcessScope_sat h (truth_of_hasTy I hty ρ) (hsat _ (.head _))
  case h_13 =>
    exact resolve_sat h (truth_of_hasTy I hty ρ) (hsat _ (.head _)) (hsat _ (.tail _ (.head _)))
  case h_14 => contradiction

end Steps

/-! ## Whole proofs -/

section Proofs

variable {Γ : Sig}

lemma hasTy_imp {F G : Term} (hF : HasTy Γ F .bool) (hG : HasTy Γ G .bool) :
    HasTy Γ (bop .imp F G) .bool := by
  have hhead : (uop .imp F).head? = none := head?_uop (by decide) (by decide)
  rw [HasTy, typeof_app rfl rfl, typeof_app hhead rfl, typeof_sym_part (by decide), hF, hG]
  rfl

lemma Proof.hasTy : ∀ (p : Proof) {φ : Term}, p.WellTyped Γ → p.conclusion = some φ →
    HasTy Γ φ .bool
  | .assume F, _, h, hφ => by
      cases hφ
      exact h
  | .step r ps, φ, h, hφ => h.2 φ hφ
  | .scope F p, _, h, hφ => by
      obtain ⟨G, hG, rfl⟩ := map_inv hφ
      exact hasTy_imp h.2 (p.hasTy h.1 hG)

/-- Where `F` holds, the assumption that a scope discharges does no harm. -/
lemma models_of_filter {I : Interp Γ} {ρ : Env I.U} {F : Term} {Δ : List Term}
    (h : ρ ∈ Models I (Δ.filter (· ≠ F))) (hF : Sat I ρ F) : ρ ∈ Models I Δ := by
  intro A hA
  by_cases heq : A = F
  · rwa [heq]
  · exact h A (List.mem_filter.2 ⟨hA, decide_eq_true heq⟩)

mutual

lemma Proof.sat (I : Interp Γ) : ∀ (p : Proof) {φ : Term}, p.WellTyped Γ → p.Fresh →
    p.conclusion = some φ → ∀ ρ ∈ Models I p.assumptions, Sat I ρ φ
  | .assume F, _, _, _, hφ, ρ, hρ => by
      cases hφ
      exact hρ F (.head _)
  | .step r ps, φ, hty, hfresh, hφ, ρ, hρ => by
      obtain ⟨Fs, hFs, hstep⟩ := bind_inv hφ
      exact r.conclude_sat hstep (premises_of_proofs I ps hty.1 hfresh.1 hFs)
        (hfresh.2 Fs hFs) (hty.2 φ hφ) hρ
  | .scope F p, _, hty, hfresh, hφ, ρ, hρ => by
      obtain ⟨G, hG, rfl⟩ := map_inv hφ
      apply scope_sat (truth_of_hasTy I hty.2 ρ) (truth_of_hasTy I (p.hasTy hty.1 hG) ρ)
      intro hF
      exact Proof.sat I p hty.1 hfresh hG ρ (models_of_filter hρ hF)

lemma premises_of_proofs (I : Interp Γ) : ∀ (ps : List Proof) {Fs : List Term},
    WellTypedAll Γ ps → FreshAll ps → conclusions ps = some Fs → Premises I (assumptionsOf ps) Fs
  | [], _, _, _, hFs => by
      cases hFs
      exact ⟨fun F hF => absurd hF List.not_mem_nil, fun F hF => absurd hF List.not_mem_nil⟩
  | p :: ps, _, hty, hfresh, hFs => by
      obtain ⟨F, hF, hrest⟩ := bind_inv hFs
      obtain ⟨Fs, hps, rfl⟩ := map_inv hrest
      have hfirst := Proof.sat I p hty.1 hfresh.1 hF
      have hothers := premises_of_proofs I ps hty.2 hfresh.2 hps
      constructor
      · intro G hG
        cases mem_cons.1 hG with
        | inl heq => exact heq ▸ p.hasTy hty.1 hF
        | inr hG => exact hothers.hasTy G hG
      intro G hG ρ hρ
      cases mem_cons.1 hG with
      | inl heq => exact heq ▸ hfirst ρ fun A hA => hρ A (List.mem_append_left _ hA)
      | inr hG => exact hothers.sat G hG ρ fun A hA => hρ A (List.mem_append_right _ hA)

end

/-- A formula that is true in an interpretation, whatever its variables stand for. -/
def TrueIn (I : Interp Γ) (F : Term) : Prop := ∀ ρ, Sat I ρ F

/-- From closed assumptions a proof derives no closed formula that does not follow from them. -/
def Proof.Sound (Γ : Sig) (p : Proof) : Prop :=
  (∀ A ∈ p.assumptions, A.Closed) → ∀ φ ∈ p.conclusion, φ.Closed →
    ∀ I : Interp Γ, (∀ A ∈ p.assumptions, TrueIn I A) → TrueIn I φ

end Proofs

/-! ## Runs on fixed proofs -/

section Examples

abbrev intSig : Sig := plainSig fun _ => .int

abbrev varX : Term := .var 0 .int

abbrev listX : Term := .lcons varX (.sym .listNil)

/-- `(forall ((x Int)) F)` rewritten with a proof of `(= F G)`. -/
abbrev underAll (F : Term) (p : Proof) : Proof :=
  .step (.cong (bop .all listX F)) [.step (.refl listX) [], p]

/-- `(= c d)` is closed, so `(= x c)` may be rewritten to `(= x d)` below the quantifier. -/
def closedRewrite : Proof :=
  .scope (bop .eq (.const 0) (.const 1)) (underAll (bop .eq varX (.const 0))
      (.step (.cong (bop .eq varX (.const 0)))
        [.step (.refl varX) [], .assume (bop .eq (.const 0) (.const 1))]))

/-- `(= (= x 0) (= 0 0))` rests on the open assumption `(= x 0)`, and `cong` uses it below the
quantifier all the same. -/
def openRewrite : Proof :=
  .scope (bop .eq varX (.num 0)) (underAll (bop .eq varX (.num 0))
      (.step (.cong (bop .eq varX (.num 0)))
        [.assume (bop .eq varX (.num 0)), .step (.refl (.num 0)) []]))

/-- What `openRewrite` concludes. -/
abbrev openFormula : Term :=
  bop .imp (bop .eq varX (.num 0))
    (bop .eq (bop .all listX (bop .eq varX (.num 0))) (bop .all listX (bop .eq (.num 0) (.num 0))))

/-- Once the assumption is discharged, the formula is generalised. -/
def openTheorem : Proof := underAll openFormula (.step .trueIntro [openRewrite])

/-- Set `x` to an integer. -/
def setX {I : Interp intSig} (n : Int) (ρ : Env I.U) : Env I.U := fun v =>
  if h : v = (0, .int) then cast (congrArg (fun w : Var => Dom I.U w.2) h.symm) n else ρ v

variable {I : Interp intSig}

variable {ρ : Env I.U}

lemma den_varX (n : Int) : den I varX (setX n ρ) = some (.val ⟨.int, n⟩) := by
  rw [den, setX, dif_pos rfl]
  rfl

lemma sat_all_listX {F : Term} (h : Sat I ρ (bop .all listX F)) (n : Int) :
    Sat I (override [(0, .int)] (setX n ρ) ρ) F := by
  obtain ⟨vs, hvs, hF⟩ := sat_all.1 h
  cases hvs
  exact hF _

lemma sat_varX_zero {n : Int} :
    Sat I (override [(0, .int)] (setX n ρ) ρ) (bop .eq varX (.num 0)) ↔ n = 0 := by
  have hx : den I varX (override [(0, .int)] (setX n ρ) ρ) = some (.val ⟨.int, n⟩) := by
    rw [← den_varX (ρ := ρ) n, den, den, override_of_mem mem_cons_self]
  have hnum : den I (.num 0) (override [(0, .int)] (setX n ρ) ρ) = some (.val ⟨.int, (0 : Int)⟩) := rfl
  rw [sat_eq]
  constructor
  · intro h
    obtain ⟨y, hy, hy'⟩ := h
    have heq := (hx.symm.trans hy).trans (hy'.symm.trans hnum)
    exact Val.mk_inj.1 (Den.val_inj.1 (Option.some.inj heq))
  · intro h
    exact ⟨_, hx, by rw [h]; rfl⟩

end Examples

end EthosCpc.Hol
