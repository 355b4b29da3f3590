import EthosCpc.Cpc.ReEval
import EthosCpc.Cpc.AciNormSpec
import EthosCpc.Cpc.ArithLinearSpec
import EthosCpc.Semantics.StrVal

/-!
# Soundness of evaluation by derivatives

A derivative denotes the left quotient of the language it is taken of, and
nullability decides the membership of the empty word.  Both hold as long as
the two answers that the programs give by default are right: `$re_nullable`
answers `false` for every operator it does not know, and `$derivative`
answers `re.none` for a `str.to_re` of a string that is not a literal.
`RunReads` says so of a run on a literal; everything else follows from it by
induction over the literal.
-/

namespace EthosCpc

open Term (bop uop)
open Library Computability
open Option (some.inj)
open Language (notMem_zero)

variable {Γ : Nat → Ty} {I : Interp Γ} {a b d r : Term} {A B L : RegLan} {c : CodePoint}

/-! ## Lists of regular expressions -/

lemma naryView_reNil (f : Sym) : naryView (.sym f) (reNil f) = ([], reNil f) := by
  unfold reNil
  split <;> rfl

section Merge

variable {f : Sym} (M : ListModel I f .reglan (reNil f)) (hcomm : Std.Commutative M.op)
  (hidem : Std.IdempotentOp M.op) {m n : M.M}

include hcomm hidem

lemma read_reAcInsert (ha : M.read a = some m) (hb : M.read b = some n)
    (h : reAcInsert f a b = some d) : M.read d = some (M.op m n) := by
  obtain ⟨i, hi, rfl⟩ := map_inv h
  obtain ⟨xs, hxs, hneg⟩ := eoListFind_spec hi
  have hba : M.read (bop f b a) = some (M.op n m) :=
    ListModel.read_bop.2 ⟨n, m, hb, ha, rfl⟩
  by_cases hlt : i < 0
  · rw [if_pos hlt, hcomm.comm m n]
    exact hba
  -- the element is there already
  have hmem : b ∈ xs := by
    by_contra hnot
    exact hlt (hneg.2 hnot)
  have hlist : a = prependNAryChildren (.sym f) (reNil f) xs := eq_of_getNAryChildren hxs
  have hcons : bop f b a = prependNAryChildren (.sym f) (reNil f) (b :: xs) :=
    congrArg (bop f b) hlist
  have := M.assoc
  rw [hcons, ListModel.read_prepend, foldRead_cons_of_mem hmem, ← ListModel.read_prepend,
    ← hlist, ha] at hba
  rw [if_neg hlt, hcomm.comm m n, ha, hba]

/-- The two lists are joined without the common elements of the first. -/
lemma read_reListUnion {e : Term} (ha : M.read a = some m) (hb : M.read b = some n)
    (he : reListDiff f a b = some e) (h : reListConcat f e b = some d) :
    M.read d = some (M.op m n) := by
  obtain ⟨xs, ys, zs, hxs, hys, rfl, hsub, hcover⟩ := eoListDiff_spec he
  obtain ⟨zs', ys', hzs', hys', rfl⟩ := eoListConcat_spec h
  cases hys.symm.trans hys'
  rw [getNAryChildren_prepend (naryView_reNil f)] at hzs'
  obtain rfl : zs = zs' := some.inj hzs'
  rw [eq_of_getNAryChildren hxs, ListModel.read_prepend] at ha
  rw [eq_of_getNAryChildren hys, ListModel.read_prepend] at hb
  have := M.assoc
  have := M.ident
  have hjoin := foldRead_append ha hb
  rw [ListModel.read_prepend, ← hjoin]
  apply foldRead_of_subset
  · intro x hx
    rcases List.mem_append.1 hx with hx | hx
    · exact List.mem_append_left _ (hsub hx)
    · exact List.mem_append_right _ hx
  intro x hx
  rcases List.mem_append.1 hx with hx | hx
  · rcases hcover x hx with hz | hy
    · exact List.mem_append_left _ hz
    · exact List.mem_append_right _ hy
  · exact List.mem_append_right _ hx

lemma read_reAcMerge
    (hunion : f = .reUnion → ∀ {m n}, M.read (.sym .reNone) = some m → M.op m n = n)
    (hinter : f = .reInter → ∀ {m n}, M.read (.sym .reNone) = some m → M.op m n = m)
    (ha : M.read a = some m) (hb : M.read b = some n) (h : reAcMerge f a b = some d) :
    M.read d = some (M.op m n) := by
  unfold reAcMerge at h
  split at h
  · rename_i hnone
    cases h
    rw [hnone.2] at ha
    rw [hunion hnone.1 ha]
    exact hb
  split at h
  · rename_i hnone
    cases h
    rw [hnone.2] at ha
    rw [hinter hnone.1 ha]
    exact ha
  split at h
  · rename_i hab
    cases h
    subst hab
    cases ha.symm.trans hb
    rw [hidem.idempotent m]
    exact ha
  split at h
  · obtain ⟨e, he, h⟩ := bind_inv h
    exact read_reListUnion M hcomm hidem ha hb he h
  split at h
  · exact read_reAcInsert M hcomm hidem ha hb h
  split at h
  · rw [hcomm.comm m n]
    exact read_reAcInsert M hcomm hidem hb ha h
  cases h
  have := M.ident
  have hnil : M.op n M.e = n := Std.LawfulRightIdentity.right_id n
  exact ListModel.read_bop.2
    ⟨m, n, ha, ListModel.read_bop.2 ⟨n, M.e, hb, ListModel.read_nil, hnil.symm⟩, rfl⟩

end Merge

lemma reVal_reAcMerge_union (ha : ReVal I a A) (hb : ReVal I b B)
    (h : reAcMerge .reUnion a b = some d) : ReVal I d (A + B) := by
  refine ListModel.read_eq_some.1 (read_reAcMerge (reUnionModel I) ⟨fun x y => ?_⟩ ⟨fun x => ?_⟩
    ?_ (fun hf => by contradiction) (ListModel.read_eq_some.2 ha)
    (ListModel.read_eq_some.2 hb) h)
  · exact add_comm (G := RegLan) x y
  · exact Language.add_self (α := CodePoint) x
  intro _ m n hm
  obtain rfl : m = (0 : RegLan) := reVal_none.1 (ListModel.read_eq_some.1 hm)
  exact zero_add (M := RegLan) n

lemma reVal_reAcMerge_inter (ha : ReVal I a A) (hb : ReVal I b B)
    (h : reAcMerge .reInter a b = some d) : ReVal I d (A ∩ B : Set Str) := by
  refine ListModel.read_eq_some.1 (read_reAcMerge (reInterModel I) ⟨fun x y => ?_⟩ ⟨fun x => ?_⟩
    (fun hf => by contradiction) ?_ (ListModel.read_eq_some.2 ha)
    (ListModel.read_eq_some.2 hb) h)
  · exact Set.inter_comm (α := Str) x y
  · exact Set.inter_self (α := Str) x
  intro _ m n hm
  obtain rfl : m = (0 : RegLan) := reVal_none.1 (ListModel.read_eq_some.1 hm)
  exact Set.empty_inter (α := Str) n

lemma reVal_reConcatMerge (ha : ReVal I a A) (hb : ReVal I b B)
    (h : reConcatMerge a b = some d) : ReVal I d (A * B) := by
  have hab : ReVal I (bop .reConcat a b) (A * B) := reVal_concat.2 ⟨A, B, ha, hb, rfl⟩
  unfold reConcatMerge at h
  split at h
  · exact ListModel.read_eq_some.1 (ListModel.read_eoListConcat (L := reConcatModel I)
      (ListModel.read_eq_some.2 ha) (ListModel.read_eq_some.2 hb) h)
  split at h
  · rename_i hnone
    cases h
    rw [hnone] at ha
    rw [reVal_none.1 ha, zero_mul]
    exact reVal_none.2 rfl
  split at h
  · cases h
    exact hab
  split at h
  · rename_i hempty
    cases h
    rw [hempty] at ha
    rw [reVal_empty.1 ha, one_mul]
    exact hb
  split at h
  swap
  · cases h
    exact reVal_concat.2
      ⟨A, B, ha, reVal_concat.2 ⟨B, 1, hb, reVal_empty.2 rfl, (mul_one B).symm⟩, rfl⟩
  rename_i hempty
  cases h
  rw [hempty] at hb
  rw [reVal_empty.1 hb, mul_one]
  exact ha

variable {s : Str}

lemma str_of_eoToZ {t : Term} {z : Int} (hz : eoToZ t = some z)
    (ht : StrVal I t s) : ∃ p : CodePoint, s = [p] ∧ z = p.val := by
  unfold eoToZ at hz
  split at hz
  · exact absurd (congrArg Sigma.fst (some.inj ht)) (by simp)
  · exact absurd (congrArg Sigma.fst (some.inj ht)) (by simp)
  · exact absurd (congrArg Sigma.fst (some.inj ht)) (by simp)
  · rename_i p
    cases hz
    exact ⟨p, strVal_str.1 ht, rfl⟩
  · cases hz

/-! ## Nullability -/

/-- The subterms for which `$re_nullable` answers by default. -/
def nullableDefaults : Term → List Term
  | .sym .reAll => []
  | .app (.sym .strToRe) (.str []) => []
  | .app (.sym .reStar) _ => []
  | .app (.app (.sym .reUnion) r) rr => nullableDefaults r ++ nullableDefaults rr
  | .app (.app (.sym .reInter) r) rr => nullableDefaults r ++ nullableDefaults rr
  | .app (.app (.sym .reConcat) r) rr => nullableDefaults r ++ nullableDefaults rr
  | .app (.sym .reComp) r => nullableDefaults r
  | r => [r]

/-- The default answers of `$re_nullable` are right. -/
def DefaultsRefute (I : Interp Γ) (r : Term) : Prop :=
  ∀ t ∈ nullableDefaults r, ∀ L, ReVal I t L → [] ∉ L

lemma defaultsRefute_append (h : ∀ t ∈ nullableDefaults a ++ nullableDefaults b,
    ∀ L, ReVal I t L → [] ∉ L) : DefaultsRefute I a ∧ DefaultsRefute I b :=
  ⟨fun t ht => h t (List.mem_append_left _ ht), fun t ht => h t (List.mem_append_right _ ht)⟩

lemma nil_mem_mul : ([] : Str) ∈ A * B ↔ [] ∈ A ∧ [] ∈ B := by
  constructor
  · rintro ⟨u, hu, v, hv, huv⟩
    obtain ⟨rfl, rfl⟩ := List.append_eq_nil_iff.1 huv
    exact ⟨hu, hv⟩
  · rintro ⟨hA, hB⟩
    exact ⟨[], hA, [], hB, rfl⟩

lemma reNullable_iff (hd : DefaultsRefute I r) (hr : ReVal I r L) :
    reNullable r = true ↔ [] ∈ L := by
  unfold DefaultsRefute at hd
  induction r using reNullable.induct generalizing L with
  | case1 =>
    rw [reVal_all.1 hr]
    exact iff_of_true rfl trivial
  | case2 =>
    rw [reVal_empty.1 hr]
    exact iff_of_true rfl rfl
  | case3 r =>
    obtain ⟨A, -, rfl⟩ := reVal_star.1 hr
    exact iff_of_true rfl (Language.nil_mem_kstar A)
  | case4 a b iha ihb =>
    obtain ⟨A, B, hA, hB, rfl⟩ := reVal_union.1 hr
    obtain ⟨hda, hdb⟩ := defaultsRefute_append hd
    rw [reNullable, Bool.or_eq_true, iha hda hA, ihb hdb hB, Language.mem_add]
  | case5 a b iha ihb =>
    obtain ⟨A, B, hA, hB, rfl⟩ := reVal_inter.1 hr
    obtain ⟨hda, hdb⟩ := defaultsRefute_append hd
    rw [reNullable, Bool.and_eq_true, iha hda hA, ihb hdb hB]
    exact Iff.rfl
  | case6 a b iha ihb =>
    obtain ⟨A, B, hA, hB, rfl⟩ := reVal_concat.1 hr
    obtain ⟨hda, hdb⟩ := defaultsRefute_append hd
    rw [reNullable, Bool.and_eq_true, iha hda hA, ihb hdb hB, nil_mem_mul]
  | case7 a iha =>
    obtain ⟨A, hA, rfl⟩ := reVal_comp.1 hr
    rw [reNullable, Bool.not_eq_true', ← Bool.not_eq_true, iha hd hA]
    exact Iff.rfl
  | case8 r h1 h2 h3 h4 h5 h6 h7 =>
    rw [reNullable]
    · rw [nullableDefaults] at hd
      · exact iff_of_false Bool.false_ne_true (hd r (List.mem_singleton_self r) L hr)
      all_goals assumption
    all_goals assumption

/-! ## Derivatives -/

/-- The default answers that a derivative for `c` relies on are right. -/
def DerivativeReads (I : Interp Γ) (c : CodePoint) : Term → Prop
  | .app (.app (.sym .reUnion) r) rr => DerivativeReads I c r ∧ DerivativeReads I c rr
  | .app (.app (.sym .reConcat) r) rr =>
    DefaultsRefute I r ∧ DerivativeReads I c r ∧ (reNullable r = true → DerivativeReads I c rr)
  | .app (.app (.sym .reInter) r) rr => DerivativeReads I c r ∧ DerivativeReads I c rr
  | .app (.sym .reComp) r => DerivativeReads I c r
  | .app (.sym .reStar) r => DerivativeReads I c r
  | .app (.sym .strToRe) s => isStr s = true ∨ ∀ w, StrVal I s w → ∀ v, w ≠ c :: v
  | _ => True

lemma leftQuotient_word_cons (c d : CodePoint) (s : Str) :
    Language.leftQuotient ({d :: s} : Set Str) [c] =
      if d = c then ({s} : Set Str) else (∅ : Set Str) := by
  ext w
  show c :: w = d :: s ↔ _
  by_cases hdc : d = c
  · rw [if_pos hdc, hdc, List.cons.injEq]
    simp
    exact Iff.rfl
  · rw [if_neg hdc, List.cons.injEq]
    exact iff_of_false (fun h => hdc h.1.symm) (notMem_zero w)

lemma reVal_derivativeToRe {s : Term} (hs : isStr s = true ∨ ∀ w, StrVal I s w → ∀ v, w ≠ c :: v)
    (hr : ReVal I (uop .strToRe s) L) : ReVal I (derivativeToRe c s) (L.leftQuotient [c]) := by
  obtain ⟨w, hw, rfl⟩ := reVal_strToRe.1 hr
  unfold derivativeToRe
  split
  · rename_i d s
    rw [strVal_str.1 hw, leftQuotient_word_cons]
    split
    · exact reVal_strToRe.2 ⟨s, rfl, rfl⟩
    · exact reVal_none.2 rfl
  rename_i hlit
  rw [reVal_none]
  ext v
  refine iff_of_false (fun hv => ?_) (notMem_zero v)
  have hcv : c :: v = w := hv
  rcases hs with hs | hs
  · -- a literal that does not start with a character is empty
    cases s with
    | str l =>
      rw [strVal_str.1 hw] at hcv
      exact hlit c v (by rw [hcv])
    | _ => contradiction
  · exact hs w hw v hcv.symm

lemma reVal_derivativeRange {x y : Term} {z z' : Int} (hx : eoToZ x = some z)
    (hy : eoToZ y = some z') (hr : ReVal I (bop .reRange x y) L) :
    ReVal I (if compareGeq c.val z && compareGeq z' c.val then reEmpty else .sym .reNone)
      (L.leftQuotient [c]) := by
  obtain ⟨s, t, hs, ht, rfl⟩ := reVal_range.1 hr
  obtain ⟨p, rfl, rfl⟩ := str_of_eoToZ hx hs
  obtain ⟨q, rfl, rfl⟩ := str_of_eoToZ hy ht
  have hmem : ∀ w : Str, c :: w ∈ reRange [p] [q] ↔ w = [] ∧ p ≤ c ∧ c ≤ q := by
    intro w
    show (∃ e, c :: w = [e] ∧ p ≤ e ∧ e ≤ q) ↔ _
    constructor
    · rintro ⟨e, he, hle⟩
      obtain ⟨rfl, rfl⟩ := List.cons.inj he
      exact ⟨rfl, hle⟩
    · rintro ⟨rfl, hle⟩
      exact ⟨c, rfl, hle⟩
  have hcmp : (compareGeq c.val p.val && compareGeq q.val c.val) = true ↔ p ≤ c ∧ c ≤ q := by
    simp only [compareGeq, Bool.and_eq_true, Bool.or_eq_true, decide_eq_true_eq, Fin.le_def]
    omega
  by_cases hle : p ≤ c ∧ c ≤ q
  swap
  · rw [if_neg (mt hcmp.1 hle), reVal_none]
    ext w
    exact iff_of_false (fun hw => hle ((hmem w).1 hw).2) (notMem_zero w)
  rw [if_pos (hcmp.2 hle), reVal_empty]
  ext w
  show c :: w ∈ reRange [p] [q] ↔ w = []
  rw [hmem]
  exact and_iff_left hle

lemma reVal_derivative (hok : DerivativeReads I c r) (hr : ReVal I r L)
    (h : derivative c r = some d) : ReVal I d (L.leftQuotient [c]) := by
  induction r using derivative.induct generalizing L d with
  | case1 a b iha ihb =>
    obtain ⟨A, B, hA, hB, rfl⟩ := reVal_union.1 hr
    obtain ⟨da, hda, h⟩ := bind_inv h
    obtain ⟨db, hdb, h⟩ := bind_inv h
    exact reVal_reAcMerge_union (iha hok.1 hA hda) (ihb hok.2 hB hdb) h
  | case2 a b hnull ihb iha =>
    obtain ⟨A, B, hA, hB, rfl⟩ := reVal_concat.1 hr
    rw [derivative, if_pos hnull] at h
    obtain ⟨db, hdb, h⟩ := bind_inv h
    obtain ⟨da, hda, h⟩ := bind_inv h
    obtain ⟨m, hm, h⟩ := bind_inv h
    rw [leftQuotient_mul_of_nil_mem A B c ((reNullable_iff hok.1 hA).1 hnull)]
    exact reVal_reAcMerge_union (ihb (hok.2.2 hnull) hB hdb)
      (reVal_reConcatMerge (iha hok.2.1 hA hda) hB hm) h
  | case3 a b hnull iha =>
    obtain ⟨A, B, hA, hB, rfl⟩ := reVal_concat.1 hr
    rw [derivative, if_neg hnull] at h
    obtain ⟨da, hda, h⟩ := bind_inv h
    rw [leftQuotient_mul_of_nil_notMem A B c (mt (reNullable_iff hok.1 hA).2 hnull)]
    exact reVal_reConcatMerge (iha hok.2.1 hA hda) hB h
  | case4 a b iha ihb =>
    obtain ⟨A, B, hA, hB, rfl⟩ := reVal_inter.1 hr
    obtain ⟨da, hda, h⟩ := bind_inv h
    obtain ⟨db, hdb, h⟩ := bind_inv h
    exact reVal_reAcMerge_inter (iha hok.1 hA hda) (ihb hok.2 hB hdb) h
  | case5 a iha =>
    obtain ⟨A, hA, rfl⟩ := reVal_comp.1 hr
    obtain ⟨da, hda, rfl⟩ := map_inv h
    exact reVal_comp.2 ⟨_, iha hok hA hda, leftQuotient_compl A c⟩
  | case6 a iha =>
    obtain ⟨A, hA, rfl⟩ := reVal_star.1 hr
    obtain ⟨da, hda, h⟩ := bind_inv h
    rw [leftQuotient_kstar]
    exact reVal_reConcatMerge (iha hok hA hda) hr h
  | case7 =>
    rw [derivative, if_pos rfl] at h
    cases h
    rw [reVal_empty.1 hr, reVal_none]
    ext w
    exact iff_of_false (fun hw => List.cons_ne_nil c w hw) (notMem_zero w)
  | case8 s hs =>
    rw [derivative, if_neg hs] at h
    cases h
    exact reVal_derivativeToRe hok hr
  | case9 x y =>
    obtain ⟨z, hz, h⟩ := bind_inv h
    obtain ⟨z', hz', rfl⟩ := map_inv h
    exact reVal_derivativeRange hz hz' hr
  | case10 =>
    cases h
    rw [reVal_none.1 hr]
    exact reVal_none.2 (leftQuotient_zero c)
  | case11 =>
    cases h
    rw [reVal_all.1 hr]
    exact reVal_all.2 rfl
  | case12 =>
    cases h
    rw [reVal_allchar.1 hr, reVal_empty]
    ext w
    show (c :: w).length = 1 ↔ w = []
    simp
  | case13 r h1 h2 h3 h4 h5 h6 h7 h8 h9 h10 =>
    rw [derivative] at h
    · contradiction
    all_goals assumption

/-! ## Membership -/

/-- The default answers in a run on a literal are right. -/
def RunReads (I : Interp Γ) : Str → Term → Prop
  | [], r => DefaultsRefute I r
  | c :: s, r =>
    r = .sym .reNone ∨ DerivativeReads I c r ∧ ∀ d, derivative c r = some d → RunReads I s d

lemma strEvalStrInReLit_iff {v : Bool} (hok : RunReads I s r) (hr : ReVal I r L)
    (h : strEvalStrInReLit s r = some v) : v = true ↔ s ∈ L := by
  induction s generalizing r L with
  | nil =>
    cases h
    exact reNullable_iff hok hr
  | cons c s ih =>
    rw [strEvalStrInReLit] at h
    split at h
    · rename_i hnone
      cases h
      rw [hnone] at hr
      rw [reVal_none.1 hr]
      exact iff_of_false Bool.false_ne_true (notMem_zero _)
    rename_i hnone
    obtain ⟨d, hd, h⟩ := bind_inv h
    obtain ⟨hder, hrun⟩ := hok.resolve_left hnone
    exact ih (hrun d hd) (reVal_derivative hder hr hd) h

/-! ## The core operators

No default answer of a run is wrong for the expressions that are built from
literals, ranges and constants with the Boolean and Kleene operators. -/

def IsReList (f : Sym) : Prop := f = .reConcat ∨ f = .reUnion ∨ f = .reInter

/-- Regular expressions over the core operators. -/
inductive CoreRe : Term → Prop
  | none : CoreRe (.sym .reNone)
  | all : CoreRe (.sym .reAll)
  | allchar : CoreRe (.sym .reAllchar)
  | toRe (s : Str) : CoreRe (uop .strToRe (.str s))
  | range (s t : Term) : CoreRe (bop .reRange s t)
  | star {r : Term} : CoreRe r → CoreRe (uop .reStar r)
  | comp {r : Term} : CoreRe r → CoreRe (uop .reComp r)
  | list {f : Sym} {a b : Term} : IsReList f → CoreRe a → CoreRe b → CoreRe (bop f a b)

lemma coreRe_reNil (f : Sym) : CoreRe (reNil f) := by
  unfold reNil
  split
  · exact .none
  · exact .all
  · exact .toRe []

lemma coreRe_prepend {f : Sym} (hf : IsReList f) {xs : List Term} :
    CoreRe (prependNAryChildren (.sym f) (reNil f) xs) ↔ ∀ x ∈ xs, CoreRe x := by
  induction xs with
  | nil => simp [coreRe_reNil]
  | cons x xs ih =>
    rw [prependNAryChildren_cons, List.forall_mem_cons, ← ih]
    constructor
    · intro h
      cases h with
      | range => rcases hf with hf | hf | hf <;> contradiction
      | list _ hx hxs => exact ⟨hx, hxs⟩
    · rintro ⟨hx, hxs⟩
      exact .list hf hx hxs

section Core

variable {f : Sym} (hf : IsReList f) (ha : CoreRe a)

include hf ha

lemma coreRe_reListConcat (hb : CoreRe b) (h : reListConcat f a b = some d) : CoreRe d := by
  obtain ⟨xs, ys, hxs, hys, rfl⟩ := eoListConcat_spec h
  rw [eq_of_getNAryChildren hxs, coreRe_prepend hf] at ha
  rw [eq_of_getNAryChildren hys, coreRe_prepend hf] at hb
  rw [coreRe_prepend hf]
  intro x hx
  rcases List.mem_append.1 hx with hx | hx
  · exact ha x hx
  · exact hb x hx

lemma coreRe_reListDiff (h : reListDiff f a b = some d) : CoreRe d := by
  obtain ⟨xs, ys, zs, hxs, hys, rfl, hsub, -⟩ := eoListDiff_spec h
  rw [eq_of_getNAryChildren hxs, coreRe_prepend hf] at ha
  rw [coreRe_prepend hf]
  exact fun x hx => ha x (hsub hx)

lemma coreRe_reAcInsert (hb : CoreRe b) (h : reAcInsert f a b = some d) : CoreRe d := by
  obtain ⟨i, -, rfl⟩ := map_inv h
  split
  · exact .list hf hb ha
  · exact ha

lemma coreRe_reAcMerge (hb : CoreRe b) (h : reAcMerge f a b = some d) : CoreRe d := by
  unfold reAcMerge at h
  split at h
  · cases h
    exact hb
  split at h
  · cases h
    exact .none
  split at h
  · cases h
    exact ha
  split at h
  · obtain ⟨e, he, h⟩ := bind_inv h
    exact coreRe_reListConcat hf (coreRe_reListDiff hf ha he) hb h
  split at h
  · exact coreRe_reAcInsert hf ha hb h
  split at h
  · exact coreRe_reAcInsert hf hb ha h
  · cases h
    exact .list hf ha (.list hf hb (coreRe_reNil f))

end Core

lemma coreRe_reConcatMerge (ha : CoreRe a) (hb : CoreRe b) (h : reConcatMerge a b = some d) :
    CoreRe d := by
  have hf : IsReList .reConcat := .inl rfl
  unfold reConcatMerge at h
  split at h
  · exact coreRe_reListConcat hf ha hb h
  split at h
  · cases h
    exact .none
  split at h
  · cases h
    exact .list hf ha hb
  split at h
  · cases h
    exact hb
  split at h
  · cases h
    exact ha
  · cases h
    exact .list hf ha (.list hf hb (.toRe []))

lemma coreRe_derivative (hr : CoreRe r) (h : derivative c r = some d) : CoreRe d := by
  induction hr generalizing d with
  | none =>
    cases h
    exact .none
  | all =>
    cases h
    exact .all
  | allchar =>
    cases h
    exact .toRe []
  | toRe s =>
    rw [derivative] at h
    split at h
    · cases h
      exact .none
    cases h
    unfold derivativeToRe
    split
    · split
      · exact .toRe _
      · exact .none
    · exact .none
  | range s t =>
    obtain ⟨z, _, h⟩ := bind_inv h
    obtain ⟨z', -, rfl⟩ := map_inv h
    split
    · exact .toRe []
    · exact .none
  | star hr ih =>
    obtain ⟨e, he, h⟩ := bind_inv h
    exact coreRe_reConcatMerge (ih he) (.star hr) h
  | comp hr ih =>
    obtain ⟨e, he, rfl⟩ := map_inv h
    exact .comp (ih he)
  | list hf ha hb iha ihb =>
    rcases hf with rfl | rfl | rfl
    · rw [derivative] at h
      split at h
      · obtain ⟨e, he, h⟩ := bind_inv h
        obtain ⟨e', he', h⟩ := bind_inv h
        obtain ⟨m, hm, h⟩ := bind_inv h
        exact coreRe_reAcMerge (.inr (.inl rfl)) (ihb he) (coreRe_reConcatMerge (iha he') hb hm) h
      · obtain ⟨e, he, h⟩ := bind_inv h
        exact coreRe_reConcatMerge (iha he) hb h
    · obtain ⟨e, he, h⟩ := bind_inv h
      obtain ⟨e', he', h⟩ := bind_inv h
      exact coreRe_reAcMerge (.inr (.inl rfl)) (iha he) (ihb he') h
    · obtain ⟨e, he, h⟩ := bind_inv h
      obtain ⟨e', he', h⟩ := bind_inv h
      exact coreRe_reAcMerge (.inr (.inr rfl)) (iha he) (ihb he') h

lemma defaultsRefute_of_core (hr : CoreRe r) : DefaultsRefute I r := by
  unfold DefaultsRefute
  induction hr with
  | none =>
    intro t ht L hL
    obtain rfl := List.mem_singleton.1 ht
    rw [reVal_none.1 hL]
    exact notMem_zero _
  | all =>
    intro t ht
    contradiction
  | allchar =>
    intro t ht L hL
    obtain rfl := List.mem_singleton.1 ht
    rw [reVal_allchar.1 hL]
    exact Nat.zero_ne_one
  | toRe s =>
    cases s with
    | nil =>
      intro t ht
      contradiction
    | cons c s =>
      intro t ht L hL hmem
      obtain rfl := List.mem_singleton.1 ht
      obtain ⟨w, hw, rfl⟩ := reVal_strToRe.1 hL
      rw [strVal_str.1 hw] at hmem
      exact List.cons_ne_nil c s hmem.symm
  | range x y =>
    intro t ht L hL hmem
    obtain rfl := List.mem_singleton.1 ht
    obtain ⟨p, q, -, -, rfl⟩ := reVal_range.1 hL
    exact nil_notMem_reRange p q hmem
  | star =>
    intro t ht
    contradiction
  | comp _ ih => exact ih
  | list hf _ _ iha ihb =>
    rcases hf with rfl | rfl | rfl
    · exact List.forall_mem_append.2 ⟨iha, ihb⟩
    · exact List.forall_mem_append.2 ⟨iha, ihb⟩
    · exact List.forall_mem_append.2 ⟨iha, ihb⟩

lemma derivativeReads_of_core (hr : CoreRe r) : DerivativeReads I c r := by
  induction hr with
  | toRe s => exact .inl rfl
  | none | all | allchar | range => trivial
  | star _ ih => exact ih
  | comp _ ih => exact ih
  | list hf ha _ iha ihb =>
    rcases hf with rfl | rfl | rfl
    · exact ⟨defaultsRefute_of_core ha, iha, fun _ => ihb⟩
    · exact ⟨iha, ihb⟩
    · exact ⟨iha, ihb⟩

lemma runReads_of_core (hr : CoreRe r) : RunReads I s r := by
  induction s generalizing r with
  | nil => exact defaultsRefute_of_core hr
  | cons c s ih => exact .inr ⟨derivativeReads_of_core hr, fun d hd => ih (coreRe_derivative hr hd)⟩

/-! ## The first match -/

/-- The default answers are right in the runs on the prefixes that are tried. -/
def SmallestReads (I : Interp Γ) (s : Str) (r : Term) : Nat → Nat → Prop
  | 0, m => RunReads I (s.take m) r
  | k + 1, m =>
    RunReads I (s.take m) r ∧
      (strEvalStrInReLit (s.take m) r = some false → SmallestReads I s r k (m + 1))

/-- The default answers are right in the runs of the search for a match. -/
def SearchReads (I : Interp Γ) (r rs : Term) : Str → Prop
  | [] =>
    RunReads I [] rs ∧ (strEvalStrInReLit [] rs = some true → SmallestReads I [] r 0 0)
  | c :: s =>
    RunReads I (c :: s) rs ∧ (strEvalStrInReLit (c :: s) rs = some true →
        SmallestReads I (c :: s) r (c :: s).length 0) ∧
      (strEvalStrInReLit (c :: s) rs = some false → SearchReads I r rs s)

/-- The default answers are right in a search for the first match. -/
def FirstMatchReads (I : Interp Γ) (s : Str) (r : Term) : Prop :=
  SearchReads I r (bop .reConcat r (bop .reConcat (.sym .reAll) reEmpty)) s

lemma shortestPrefix_of_smallest {k m i : Nat} (hok : SmallestReads I s r k m)
    (hr : ReVal I r L) (hlen : m + k = s.length) (hmin : ∀ j < m, s.take j ∉ L)
    (h : strFirstMatchRecSmallest s r k m = some i) : shortestPrefix L s = some i := by
  have found : RunReads I (s.take m) r → strEvalStrInReLit (s.take m) r = some true →
      shortestPrefix L s = some m := by
    intro hrun hv
    exact shortestPrefix_eq_some.2 ⟨by omega, (strEvalStrInReLit_iff hrun hr hv).1 rfl, hmin⟩
  induction k generalizing m with
  | zero =>
    obtain ⟨v, hv, h⟩ := bind_inv h
    split at h
    · rename_i hvt
      cases h
      exact found hok (hvt ▸ hv)
    · cases h
  | succ k ih =>
    obtain ⟨v, hv, h⟩ := bind_inv h
    split at h
    · rename_i hvt
      cases h
      exact found hok.1 (hvt ▸ hv)
    rename_i hvf
    obtain rfl : v = false := Bool.eq_false_iff.2 hvf
    have hnot : s.take m ∉ L :=
      mt (strEvalStrInReLit_iff hok.1 hr hv).2 Bool.false_ne_true
    have hmin' : ∀ j < m + 1, s.take j ∉ L := by
      intro j hj
      rcases Nat.lt_succ_iff_lt_or_eq.1 hj with hj | rfl
      · exact hmin j hj
      · exact hnot
    refine ih (hok.2 hv) (by omega) hmin' h fun hrun hv => ?_
    exact shortestPrefix_eq_some.2 ⟨by omega, (strEvalStrInReLit_iff hrun hr hv).1 rfl, hmin'⟩

/-- A word starts with a match if it belongs to the language followed by anything. -/
lemma mem_mul_top : s ∈ L * (⊤ : RegLan) ↔ shortestPrefix L s ≠ none := by
  rw [Ne, shortestPrefix_eq_none]
  constructor
  · rintro ⟨u, hu, v, -, rfl⟩ hall
    exact hall u (List.prefix_append u v) hu
  intro hex
  push Not at hex
  obtain ⟨p, ⟨v, rfl⟩, hp⟩ := hex
  exact ⟨p, hp, v, trivial, rfl⟩

variable {o : Option (Nat × Nat)}

lemma strFirstMatchRec_eq {rs : Term} {n : Nat}
    (hok : SearchReads I r rs s) (hr : ReVal I r L) (hrs : ReVal I rs (L * (⊤ : RegLan)))
    (h : strFirstMatchRec r rs s n = some o) :
    o = (firstMatch L s).map fun p => (n + p.1, n + p.2) := by
  induction s generalizing n o with
  | nil =>
    obtain ⟨v, hv, h⟩ := bind_inv h
    have hiff := (strEvalStrInReLit_iff hok.1 hrs hv).trans mem_mul_top
    split at h
    · rename_i hvt
      subst hvt
      obtain ⟨m, hm, rfl⟩ := map_inv h
      have hshort := shortestPrefix_of_smallest (hok.2 hv) hr rfl
        (fun j hj => absurd hj (Nat.not_lt_zero j)) hm
      rw [firstMatch, hshort]
      rfl
    rename_i hvf
    cases h
    rw [firstMatch, not_not.1 (mt hiff.2 hvf)]
    rfl
  | cons c s ih =>
    obtain ⟨v, hv, h⟩ := bind_inv h
    have hiff := (strEvalStrInReLit_iff hok.1 hrs hv).trans mem_mul_top
    rw [firstMatch]
    split at h
    · rename_i hvt
      subst hvt
      obtain ⟨m, hm, rfl⟩ := map_inv h
      have hshort := shortestPrefix_of_smallest (hok.2.1 hv) hr (Nat.zero_add _)
        (fun j hj => absurd hj (Nat.not_lt_zero j)) hm
      rw [hshort]
      rfl
    rename_i hvf
    obtain rfl : v = false := Bool.eq_false_iff.2 hvf
    rw [not_not.1 (mt hiff.2 hvf), ih (hok.2.2 hv) h]
    show _ = ((firstMatch L s).map _).map _
    rw [Option.map_map]
    refine congrArg (fun g => (firstMatch L s).map g) (funext fun p => ?_)
    show (n + 1 + p.1, n + 1 + p.2) = (n + (p.1 + 1), n + (p.2 + 1))
    rw [Nat.add_right_comm n 1 p.1, Nat.add_right_comm n 1 p.2]
    rfl

lemma strFirstMatch_eq (hok : FirstMatchReads I s r)
    (hr : ReVal I r L) (h : strFirstMatch s r = some o) : o = firstMatch L s := by
  have hrs : ReVal I (bop .reConcat r (bop .reConcat (.sym .reAll) reEmpty))
      (L * (⊤ : RegLan)) := by
    refine reVal_concat.2 ⟨L, (⊤ : RegLan), hr, ?_, rfl⟩
    exact reVal_concat.2
      ⟨(⊤ : RegLan), 1, reVal_all.2 rfl, reVal_empty.2 rfl, (mul_one (M := RegLan) _).symm⟩
  rw [strFirstMatchRec_eq hok hr hrs h]
  simp

/-! ## The rules -/

/-- The default answers are right in a run of rule `str-in-re-eval`. -/
def InReReads (I : Interp Γ) : Term → Term → Prop
  | .str s, r => RunReads I s r
  | _, _ => True

/-- The default answers are right in a run of rule `str-indexof-re-eval`. -/
def IndexofReads (I : Interp Γ) : Term → Term → Term → Prop
  | .str s, r, .num n => 0 ≤ n ∧ n ≤ s.length → FirstMatchReads I (s.drop n.toNat) r
  | _, _, _ => True

/-- The default answers are right in a run of rule `str-replace-re-eval`. -/
def ReplaceReads (I : Interp Γ) : Term → Term → Prop
  | .str s, r => FirstMatchReads I s r
  | _, _ => True

/-- The default answers are right in `k` searches, each behind the match before. -/
def AllMatchesRead (I : Interp Γ) (r : Term) : Nat → Str → Prop
  | 0, _ => True
  | k + 1, s =>
    FirstMatchReads I s r ∧
      ∀ p, strFirstMatch s r = some (some p) → AllMatchesRead I r k (s.drop p.2)

/-- The default answers are right in a run of rule `str-replace-re-all-eval`. -/
def ReplaceAllReads (I : Interp Γ) : Term → Term → Prop
  | .str s, r => AllMatchesRead I (reNonEmpty r) (s.length + 1) s
  | _, _ => True

lemma inReReads_of_core {s : Term} (hr : CoreRe r) : InReReads I s r := by
  cases s with
  | str s => exact runReads_of_core hr
  | _ => trivial

lemma sat_strInReEval {s G : Term} {w : Str} (hok : InReReads I s r) (hs : StrVal I s w)
    (hr : ReVal I r L) (h : strInReEval s r = some G) : Sat I G := by
  obtain ⟨v, hv, rfl⟩ := map_inv h
  have hiff : w ∈ L ↔ v = true := by
    unfold strEvalStrInRe at hv
    split at hv
    · rename_i s
      rw [strVal_str.1 hs]
      exact (strEvalStrInReLit_iff hok hr hv).symm
    split at hv
    swap
    · cases hv
    rename_i hnone
    cases hv
    rw [hnone] at hr
    rw [reVal_none.1 hr]
    exact iff_of_false (notMem_zero w) Bool.false_ne_true
  exact (boolVal_eq (boolVal_inRe hs hr) (boolVal_bool v)).sat.2 hiff

lemma sat_strIndexofReEval {s n G : Term} (hok : IndexofReads I s r n) (hr : ReVal I r L)
    (h : strIndexofReEval s r n = some G) : Sat I G := by
  cases s with
  | str s =>
    cases n with
    | num n =>
      obtain ⟨m, hm, rfl⟩ := map_inv h
      have hval : m = indexofRe s L n := by
        unfold strEvalIndexofRe at hm
        unfold indexofRe
        split at hm
        · rename_i hout
          cases hm
          rw [if_neg (by omega)]
        rename_i hin
        have hin : 0 ≤ n ∧ n ≤ s.length := by omega
        obtain ⟨o, ho, rfl⟩ := map_inv hm
        cases o <;> simp only [if_pos hin, ← strFirstMatch_eq (hok hin) hr ho]
      exact sat_eq.2 ⟨_, intVal_indexofRe rfl hr rfl, hval ▸ rfl⟩
    | _ => contradiction
  | _ => contradiction

lemma sat_strReplaceReEval {s t G : Term} {u : Str} (hok : ReplaceReads I s r)
    (hr : ReVal I r L) (ht : StrVal I t u) (h : strReplaceReEval s r t = some G) : Sat I G := by
  cases s with
  | str s =>
    obtain ⟨o, ho, rfl⟩ := map_inv h
    have hval : StrVal I (strEvalReplaceRe s t o) (replaceRe s L u) := by
      unfold replaceRe
      rw [← strFirstMatch_eq hok hr ho]
      cases o with
      | none => exact strVal_str.2 rfl
      | some p =>
        refine strVal_concat.2 ⟨_, _, strVal_str.2 rfl, ?_, rfl⟩
        refine strVal_concat.2 ⟨_, _, ht, ?_, rfl⟩
        exact strVal_concat.2 ⟨_, _, strVal_str.2 rfl, strVal_str.2 rfl, (List.append_nil _).symm⟩
    exact sat_eq.2 ⟨_, strVal_replaceRe rfl hr ht, hval⟩
  | _ => contradiction

lemma length_drop_lt_of_firstMatch {p : Nat × Nat} (hL : [] ∉ L)
    (h : firstMatch L s = some p) : (s.drop p.2).length < s.length := by
  have hmatch := isFirstMatch_of_firstMatch h
  have hpos : 0 < p.2 - p.1 := by
    by_contra hzero
    apply hL
    have hmem := hmatch.mem
    rw [Nat.eq_zero_of_not_pos hzero] at hmem
    exact hmem
  have hle := hmatch.le_length
  rw [List.length_drop]
  omega

lemma strVal_replaceReAllRec {t u : Term} {w s : Str} {k k' m : Nat}
    (hok : AllMatchesRead I r m s) (hm : s.length < m)
    (hk' : s.length ≤ k') (hr : ReVal I r L) (hL : [] ∉ L) (ht : StrVal I t w)
    (ho : strFirstMatch s r = some o) (h : strEvalReplaceReAllRec r t k s o = some u) :
    StrVal I u (replaceReAllFrom L w k' s) := by
  induction k generalizing s k' m o u with
  | zero =>
    obtain ⟨m, rfl⟩ : ∃ j, m = j + 1 := ⟨m - 1, by omega⟩
    cases o with
    | some p => cases s <;> contradiction
    | none => exact none_case hok.1 hr ho h
  | succ k ih =>
    obtain ⟨m, rfl⟩ : ∃ j, m = j + 1 := ⟨m - 1, by omega⟩
    cases o with
    | none => exact none_case hok.1 hr ho h
    | some p =>
      have hfirst := (strFirstMatch_eq hok.1 hr ho).symm
      have hlt := length_drop_lt_of_firstMatch hL hfirst
      obtain ⟨k', rfl⟩ : ∃ j, k' = j + 1 := ⟨k' - 1, by omega⟩
      rw [strEvalReplaceReAllRec] at h
      obtain ⟨q, hq, h⟩ := bind_inv h
      obtain ⟨v, hv, rfl⟩ := map_inv h
      have hrest := ih (hok.2 p ho) (by omega) (by omega : _ ≤ k') hq hv
      rw [replaceReAllFrom, hfirst]
      refine strVal_concat.2 ⟨_, _, strVal_str.2 rfl, ?_, rfl⟩
      exact strVal_concat.2 ⟨_, _, ht, hrest, rfl⟩
where
  /-- Without a match the word stays as it is. -/
  none_case {t u : Term} {w s : Str} {k k' : Nat} (hok : FirstMatchReads I s r)
      (hr : ReVal I r L) (ho : strFirstMatch s r = some none)
      (h : strEvalReplaceReAllRec r t k s none = some u) :
      StrVal I u (replaceReAllFrom L w k' s) := by
    have hfirst := (strFirstMatch_eq hok hr ho).symm
    have hsame : replaceReAllFrom L w k' s = s := by
      cases k' with
      | zero => rfl
      | succ k' => rw [replaceReAllFrom, hfirst]
    rw [hsame]
    cases s with
    | nil =>
      obtain rfl : Term.str [] = u := by
        cases k <;> exact some.inj h
      exact strVal_str.2 rfl
    | cons c s =>
      obtain rfl : bop .strConcat (.str (c :: s)) (.str []) = u := by
        cases k <;> exact some.inj h
      exact strVal_concat.2 ⟨_, _, strVal_str.2 rfl, strVal_str.2 rfl, (List.append_nil _).symm⟩

lemma sat_strReplaceReAllEval {s t G : Term} {w : Str} (hok : ReplaceAllReads I s r)
    (hr : ReVal I r L) (ht : StrVal I t w) (h : strReplaceReAllEval s r t = some G) :
    Sat I G := by
  cases s with
  | str s =>
    obtain ⟨u, hu, rfl⟩ := map_inv h
    obtain ⟨o, ho, hu⟩ := bind_inv hu
    obtain ⟨v, hv, hu⟩ := bind_inv hu
    have hne : ReVal I (reNonEmpty r) (L \ {[]} : Set Str) := by
      refine reVal_inter.2 ⟨L, (1 : RegLan)ᶜ, hr, ?_, rfl⟩
      refine reVal_inter.2 ⟨(1 : RegLan)ᶜ, (⊤ : RegLan), ?_, reVal_all.2 rfl, ?_⟩
      · exact reVal_comp.2 ⟨1, reVal_empty.2 rfl, rfl⟩
      · exact (Set.inter_univ (α := Str) _).symm
    have hnil : [] ∉ (L \ {[]} : Set Str) := fun hmem => hmem.2 rfl
    have hval : StrVal I v (replaceReAll s L w) :=
      strVal_replaceReAllRec hok (Nat.lt_succ_self _) (le_refl _) hne hnil ht ho hv
    have hmodel := ListModel.read_eoListSingletonElim
      (L := (seqModel I rfl rfl : ListModel I .strConcat (.seq .char) (.str [])))
      (ListModel.read_eq_some.2 hval) hu
    exact sat_eq.2 ⟨_, strVal_replaceReAll rfl hr ht, ListModel.read_eq_some.1 hmodel⟩
  | _ => contradiction

/-! ## Soundness -/

/-- What the programs compute on typed arguments, in an interpretation in which the default
answers of the run are right: the truth value of a membership, the first match, and the sides
of the equalities that the rules conclude. -/
theorem reEval_sound (Γ : Nat → Ty) (I : Interp Γ) {s r t : Term}
    (hs : typeof Γ s = some (.seq .char)) (hr : typeof Γ r = some .reglan)
    (ht : typeof Γ t = some (.seq .char)) :
    (∀ v, InReReads I s r → strEvalStrInRe s r = some v →
      Sat I (bop .eq (bop .strInRe s r) (.bool v))) ∧
    (∀ l o L, FirstMatchReads I l r → strFirstMatch l r = some o → ReVal I r L →
      (∀ p, o = some p → IsFirstMatch L l p.1 p.2) ∧ (o = none → ∀ k p, p <+: l.drop k → p ∉ L)) ∧
    (∀ G, InReReads I s r → strInReEval s r = some G → Sat I G) ∧
    (∀ n G, IndexofReads I s r n → strIndexofReEval s r n = some G → Sat I G) ∧
    (∀ G, ReplaceReads I s r → strReplaceReEval s r t = some G → Sat I G) ∧
    (∀ G, ReplaceAllReads I s r → strReplaceReAllEval s r t = some G → Sat I G) := by
  obtain ⟨x, hx⟩ := strVal_of_typeof (I := I) hs
  obtain ⟨A, hA⟩ := reVal_of_typeof (I := I) hr
  obtain ⟨u, hu⟩ := strVal_of_typeof (I := I) ht
  refine ⟨?_, ?_, ?_, ?_, ?_, ?_⟩
  · intro v hok h
    exact sat_strInReEval hok hx hA (congrArg (Option.map _) h)
  · intro l o L hok h hL
    have ho := strFirstMatch_eq hok hL h
    constructor
    · intro p hp
      exact isFirstMatch_of_firstMatch (ho.symm.trans hp)
    · intro hnone k
      exact no_match_of_firstMatch (ho.symm.trans hnone) k
  · intro G hok h
    exact sat_strInReEval hok hx hA h
  · intro n G hok h
    exact sat_strIndexofReEval hok hA h
  · intro G hok h
    exact sat_strReplaceReEval hok hA hu h
  · intro G hok h
    exact sat_strReplaceReAllEval hok hA hu h

/-- The membership of `ab` in `(re.* (re.range "a" "b"))`. -/
theorem reEval_sound_range :
    Sat (badInterp fun _ => .bool) (bop .eq (bop .strInRe (.str [97, 98]) (uop .reStar (bop .reRange (.str [97])
      (.str [98])))) (.bool true)) :=
  (reEval_sound _ (badInterp _) (s := .str [97, 98]) (t := .str [])
    (r := uop .reStar (bop .reRange (.str [97]) (.str [98]))) rfl rfl rfl).1 true
    (runReads_of_core (.star (.range _ _))) rfl

/-- The empty word belongs to `(re.opt (str.to_re "a"))`, and the program denies it. -/
theorem strInReEval_opt_unsound : strInReEval (.str []) (uop .reOpt (uop .strToRe (.str [97]))) =
      some (bop .eq (bop .strInRe (.str []) (uop .reOpt (uop .strToRe (.str [97]))))
        (.bool false)) ∧
    ∀ I : Interp fun _ => .bool, ¬ Sat I (bop .eq (bop .strInRe (.str [])
      (uop .reOpt (uop .strToRe (.str [97])))) (.bool false)) := by
  refine ⟨rfl, fun I hsat => ?_⟩
  have hto : ReVal I (uop .strToRe (.str [97])) ({[97]} : Set Str) :=
    reVal_strToRe.2 ⟨[97], rfl, rfl⟩
  have hopt := (reVal_uop (s := .reOpt) rfl rfl).2 ⟨_, hto, rfl⟩
  have hiff := (boolVal_eq (boolVal_inRe (strVal_str.2 rfl) hopt) (boolVal_bool false)).sat.1 hsat
  exact Bool.false_ne_true (hiff.1 (.inl rfl))

end EthosCpc
