import EthosCpc.Cpc.ArithBvConvSpec
import EthosCpc.Cpc.Sets
import EthosCpc.Cpc.DistinctValuesSpec

/-!
# Soundness of the evaluation of sets

A union of singletons denotes the values of its list of elements.  The
programs for intersection and difference keep or drop an element by what is
known about its value, so that the list they return has the right values.
The right values are missed only where two elements are reported as distinct
and are not.
-/

namespace EthosCpc.Hol

open EthosCpc.Hol.Term (bop uop)
open List (mem_cons mem_cons_of_mem mem_cons_self)

variable {Γ : Sig} {I : Interp Γ} {ρ : Env I.U} {T : Ty} {s t : Term} {as bs l : List Term}

/-! ## The values of a list of elements -/

def elemVals (I : Interp Γ) (ρ : Env I.U) (T : Ty) (l : List Term) : Set (Dom I.U T) :=
  { x | ∃ e ∈ l, TermVal I ρ T e x }

lemma elemVals_congr (h : ∀ e, e ∈ as ↔ e ∈ bs) : elemVals I ρ T as = elemVals I ρ T bs := by
  ext x
  simp only [elemVals, Set.mem_ofPred_eq, h]

lemma elemVals_nil : elemVals I ρ T [] = ∅ := by
  ext x
  simp [elemVals]

variable {x : Dom I.U T} {a : Term}

lemma elemVals_cons (ha : TermVal I ρ T a x) :
    elemVals I ρ T (a :: l) = insert x (elemVals I ρ T l) := by
  ext y
  constructor
  · intro hy
    obtain ⟨e, he, hy⟩ := hy
    rcases mem_cons.1 he with rfl | he
    · exact .inl (hy.unique ha)
    · exact .inr ⟨e, he, hy⟩
  · intro hy
    rcases hy with rfl | ⟨e, he, hy⟩
    · exact ⟨a, mem_cons_self, ha⟩
    · exact ⟨e, mem_cons_of_mem a he, hy⟩

lemma elemVals_append : elemVals I ρ T (as ++ bs) = elemVals I ρ T as ∪ elemVals I ρ T bs := by
  ext x
  simp only [elemVals, List.mem_append, Set.mem_ofPred_eq, Set.mem_union, or_and_right, exists_or]

/-- Every term of the list has a value of type `T`. -/
def HasVals (I : Interp Γ) (ρ : Env I.U) (T : Ty) (l : List Term) : Prop :=
  ∀ e ∈ l, ∃ x, TermVal I ρ T e x

lemma HasVals.cons (ha : TermVal I ρ T a x) (hl : HasVals I ρ T l) : HasVals I ρ T (a :: l) := by
  intro e he
  rcases mem_cons.1 he with rfl | he
  · exact ⟨x, ha⟩
  · exact hl e he

variable {A : Dom I.U (.set T)}

lemma setUnionToList_spec (hs : TermVal I ρ (.set T) s A)
    (h : setUnionToList s = some l) : A.elems = elemVals I ρ T l ∧ HasVals I ρ T l := by
  have hnil : HasVals I ρ T [] := fun e he => absurd he List.not_mem_nil
  induction s using setUnionToList.induct generalizing A l with
  | case1 e t ih =>
    obtain ⟨l', hl', rfl⟩ := map_inv h
    obtain ⟨B, C, hB, hC, hA⟩ := den_setUnion_inv hs
    obtain ⟨x, hx, hBx⟩ := den_setSingleton_inv hB
    obtain ⟨hC', hvals⟩ := ih hC hl'
    refine ⟨?_, hvals.cons hx⟩
    rw [hA, hBx, hC', elemVals_cons hx, Set.insert_eq]
  | case2 S =>
    cases h
    exact ⟨(den_setEmpty_inv hs).trans elemVals_nil.symm, hnil⟩
  | case3 e =>
    cases h
    obtain ⟨x, hx, hA⟩ := den_setSingleton_inv hs
    refine ⟨?_, hnil.cons hx⟩
    rw [hA, elemVals_cons hx, elemVals_nil, insert_empty_eq]
  | case4 t h1 h2 h3 =>
    rw [setUnionToList.eq_def] at h
    split at h <;> simp_all

/-! ## Intersection and difference -/

lemma notMem_of_isApart {k : Nat} (ha : TermVal I ρ T a x)
    (h : isApart Γ k a bs = true) (hruns : ∀ T ∈ termTy Γ a, ∀ b ∈ bs, TypeRuns Γ k a b T) :
    x ∉ elemVals I ρ T bs := by
  obtain ⟨S, hS, h⟩ := bind_inv (of_decide_eq_true h)
  obtain rfl := type_of_termTy hS ha
  rintro ⟨b, hb, hx⟩
  exact areDistinctTermsListRec_sound ha h (hruns T hS) b hb x hx rfl

lemma mem_elemVals (ha : TermVal I ρ T a x) (hmem : a ∈ bs) : x ∈ elemVals I ρ T bs := ⟨a, hmem, ha⟩

lemma evalSetsInter_spec {k : Nat} (has : HasVals I ρ T as)
    (h : evalSetsInter Γ k as bs = some l) (hruns : EvalRuns Γ k as bs) :
    elemVals I ρ T l = elemVals I ρ T as ∩ elemVals I ρ T bs := by
  induction as generalizing l with
  | nil =>
    cases h
    rw [elemVals_nil, Set.empty_inter]
  | cons a as ih =>
    obtain ⟨x, hx⟩ := has a (.head _)
    have ih' {l : List Term} := ih (l := l) (fun e he => has e (mem_cons_of_mem a he))
    have hruns' : EvalRuns Γ k as bs := fun e he => hruns e (mem_cons_of_mem a he)
    rw [elemVals_cons hx]
    rw [evalSetsInter] at h
    by_cases hmem : a ∈ bs
    · rw [if_pos hmem] at h
      obtain ⟨l', hl', rfl⟩ := map_inv h
      rw [elemVals_cons hx, ih' hl' hruns', Set.insert_inter_of_mem (mem_elemVals hx hmem)]
    rw [if_neg hmem] at h
    by_cases hap : isApart Γ k a bs = true
    · rw [if_pos hap] at h
      have hx' := notMem_of_isApart hx hap (hruns a (.head _) hmem)
      rw [ih' h hruns', Set.insert_inter_of_notMem hx']
    · rw [if_neg hap] at h
      contradiction

lemma evalSetsMinus_spec {k : Nat} (has : HasVals I ρ T as)
    (h : evalSetsMinus Γ k as bs = some l) (hruns : EvalRuns Γ k as bs) :
    elemVals I ρ T l = elemVals I ρ T as \ elemVals I ρ T bs := by
  induction as generalizing l with
  | nil =>
    cases h
    rw [elemVals_nil, Set.empty_sdiff]
  | cons a as ih =>
    obtain ⟨x, hx⟩ := has a (.head _)
    have ih' {l : List Term} := ih (l := l) (fun e he => has e (mem_cons_of_mem a he))
    have hruns' : EvalRuns Γ k as bs := fun e he => hruns e (mem_cons_of_mem a he)
    rw [elemVals_cons hx]
    rw [evalSetsMinus] at h
    by_cases hmem : a ∈ bs
    · rw [if_pos hmem] at h
      rw [ih' h hruns', Set.insert_sdiff_of_mem _ (mem_elemVals hx hmem)]
    rw [if_neg hmem] at h
    by_cases hap : isApart Γ k a bs = true
    · rw [if_pos hap] at h
      obtain ⟨l', hl', rfl⟩ := map_inv h
      have hx' := notMem_of_isApart hx hap (hruns a (.head _) hmem)
      rw [elemVals_cons hx, ih' hl' hruns', Set.insert_sdiff_of_notMem _ hx']
    · rw [if_neg hap] at h
      contradiction

/-! ## The rules -/

section Operations

variable {k : Nat} {op : Sym} {f : ∀ T, Set (Dom I.U T) → Set (Dom I.U T) → Set (Dom I.U T)}

/-- What an operation on two unions of singletons denotes. -/
lemma set2_of_setLists {A : Dom I.U (.set T)} {l : List Term × List Term} (hs : op.arity = 2)
    (hb : op.isBinder = false) (hi : op ≠ .is) (ht : op ≠ .tupleSelect)
    (hval : ∀ as, headVal I (.sym op) as = vSet2 f as)
    (hA : TermVal I ρ (.set T) (bop op s t) A) (hl : setLists s t = some l) :
    HasVals I ρ T l.1 ∧ A.elems = f T (elemVals I ρ T l.1) (elemVals I ρ T l.2) := by
  obtain ⟨as, has, hl⟩ := bind_inv hl
  obtain ⟨bs, hbs, rfl⟩ := map_inv hl
  obtain ⟨B, C, hB, hC, hA⟩ := den_set2_inv hs hb hi ht hval hA
  obtain ⟨hB, hvals⟩ := setUnionToList_spec hB has
  obtain ⟨hC, _⟩ := setUnionToList_spec hC hbs
  exact ⟨hvals, by rw [hA, hB, hC]⟩

end Operations

lemma evalSetsOp_spec {k : Nat} {a b : Term}
    (hA : TermVal I ρ (.set T) a A) (h : evalSetsOp Γ k a = some l)
    (hruns : EvalOpRuns Γ k (bop .eq a b)) : A.elems = elemVals I ρ T l := by
  unfold evalSetsOp at h
  split at h
  · obtain ⟨p, hp, rfl⟩ := map_inv h
    obtain ⟨_, hA⟩ := set2_of_setLists rfl rfl (by decide) (by decide) headVal_setUnion hA hp
    rw [hA, elemVals_append]
  · obtain ⟨p, hp, h⟩ := bind_inv h
    obtain ⟨hvals, hA⟩ := set2_of_setLists rfl rfl (by decide) (by decide) headVal_setInter hA hp
    rw [hA, evalSetsInter_spec hvals h (hruns p hp)]
  · obtain ⟨p, hp, h⟩ := bind_inv h
    obtain ⟨hvals, hA⟩ := set2_of_setLists rfl rfl (by decide) (by decide) headVal_setMinus hA hp
    rw [hA, evalSetsMinus_spec hvals h (hruns p hp)]
  · cases h

lemma set_of_setUnionToList {x : Arg I.U} (h : setUnionToList s = some l)
    (hs : den I s ρ = some (.arg x)) : ∃ T A, x = .one ⟨.set T, A⟩ := by
  unfold setUnionToList at h
  split at h
  · obtain ⟨y, z, r, _, _, hr, heq⟩ := den_bop_inv rfl rfl (by decide) (by decide) hs
    obtain ⟨T, A, B, -, rfl⟩ := vSet2_inv ((headVal_setUnion _).symm.trans hr)
    cases heq
    exact ⟨T, _, rfl⟩
  · cases hs
    exact ⟨_, _, rfl⟩
  · obtain ⟨y, r, _, hr, heq⟩ := den_uop_inv rfl (by decide) (by decide) hs
    cases y with
    | many vs => contradiction
    | one v =>
      cases hr
      cases heq
      exact ⟨_, _, rfl⟩
  · cases h

lemma setsEvalOp_sat {k : Nat} {F c : Term} (h : setsEvalOp Γ k F = some c)
    (hruns : EvalOpRuns Γ k F) (hty : HasTy Γ F .bool) : Sat I ρ c := by
  unfold setsEvalOp at h
  split at h
  swap
  · cases h
  rename_i a b
  obtain ⟨as, has, h⟩ := bind_inv h
  obtain ⟨bs, hbs, h⟩ := bind_inv h
  split at h
  swap
  · cases h
  rename_i hperm
  cases h
  obtain ⟨d, hd⟩ := den_of_hasTy I hty ρ
  obtain ⟨x, y, hx, hy, hxy, _⟩ := den_eq_inv hd
  obtain ⟨T, B, rfl⟩ := set_of_setUnionToList hbs hy
  cases x with
  | many vs => contradiction
  | one v =>
    obtain ⟨S, A⟩ := v
    obtain rfl : Ty.set T = S := ArgTy.one.inj hxy
    have hA := evalSetsOp_spec (b := b) hx has hruns
    obtain ⟨hB, _⟩ := setUnionToList_spec hy hbs
    have hsame : elemVals I ρ T as = elemVals I ρ T bs := by
      apply elemVals_congr
      intro e
      rw [← hperm.mem_iff, List.mem_eraseDups]
    have hAB : A = B := hA.trans (hsame.trans hB.symm)
    rw [← hAB] at hy
    exact sat_eq.2 ⟨_, hx, hy⟩

lemma den_setUnion {a b : Term} {A B : Dom I.U (.set T)} (ha : TermVal I ρ (.set T) a A)
    (hb : TermVal I ρ (.set T) b B) :
    TermVal I ρ (.set T) (bop .setUnion a b) (A.elems ∪ B.elems : Set (Dom I.U T)) := by
  unfold TermVal
  rw [den_bop rfl rfl (by decide) (by decide), show den I a ρ = _ from ha,
    show den I b ρ = _ from hb]
  show Option.map Den.arg (headVal I (.sym .setUnion) [.one ⟨.set T, A⟩, .one ⟨.set T, B⟩]) = _
  rw [headVal_setUnion, vSet2, dif_pos rfl]
  rfl

lemma setEvalInsert_spec {es : Term} {vs : List (Val I.U)}
    (hes : den I es ρ = some (.arg (.many vs))) (hvs : ∀ v ∈ vs, v.1 = T)
    (hs : TermVal I ρ (.set T) s A) (h : setEvalInsert es s = some t) :
    ∃ B, TermVal I ρ (.set T) t B ∧ B.elems = { x | x ∈ A.elems ∨ (⟨T, x⟩ : Val I.U) ∈ vs } := by
  induction es, s using setEvalInsert.induct generalizing t vs with
  | case1 x xs s ih =>
    obtain ⟨u, hu, rfl⟩ := map_inv h
    obtain ⟨y, z, r, hx, hxs, hr, heq⟩ := den_bop_inv rfl rfl (by decide) (by decide) hes
    cases y with
    | many ws => contradiction
    | one v =>
      cases z with
      | one w => contradiction
      | many ws =>
        cases hr
        cases heq
        obtain ⟨S, v⟩ := v
        obtain rfl : S = T := hvs _ (.head _)
        obtain ⟨B, hB, hBelems⟩ := ih hxs (fun w hw => hvs w (.tail _ hw)) hs hu
        refine ⟨_, den_setUnion (den_setSingleton hx) hB, ?_⟩
        ext y
        show y ∈ ({v} : Set _) ∪ B.elems ↔ y ∈ A.elems ∨ (⟨S, y⟩ : Val I.U) ∈ ⟨S, v⟩ :: ws
        rw [hBelems, mem_cons, Val.mk_inj, Set.mem_union, Set.mem_singleton_iff]
        exact or_left_comm
  | case2 s =>
    cases h
    cases hes
    refine ⟨A, hs, ?_⟩
    ext y
    simp
  | case3 es s h1 h2 =>
    rw [setEvalInsert.eq_def] at h
    split at h <;> simp_all

lemma setsInsertElim_sat {F c : Term} (h : setsInsertElim F = some c) (hty : HasTy Γ F .bool) :
    Sat I ρ c := by
  unfold setsInsertElim at h
  split at h
  swap
  · cases h
  rename_i es s t
  split at h
  swap
  · cases h
  rename_i ht
  cases h
  obtain ⟨d, hd⟩ := den_of_hasTy I hty ρ
  obtain ⟨x, y, hx, hy, _, _⟩ := den_eq_inv hd
  obtain ⟨z, w, r, hz, hw, hr, heq⟩ := den_bop_inv rfl rfl (by decide) (by decide) hx
  cases z with
  | one v => contradiction
  | many vs =>
    cases w with
    | many ws => contradiction
    | one v =>
      obtain ⟨T, A⟩ := v
      cases T <;> try contradiction
      unfold headVal at hr
      dsimp only at hr
      split at hr
      swap
      · cases hr
      rename_i hvs
      cases hr
      cases heq
      obtain ⟨B, hB, hBelems⟩ := setEvalInsert_spec hz hvs hw ht
      refine sat_eq.2 ⟨_, hx, ?_⟩
      rw [← hBelems]
      exact hB

def interIsEmpty (S : Ty) (a b : Term) : Term :=
  bop .eq (bop .setInter (uop .setSingleton a) (uop .setSingleton b)) (.sym (.setEmpty S))

end EthosCpc.Hol
