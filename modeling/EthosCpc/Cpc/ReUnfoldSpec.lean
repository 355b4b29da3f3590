import EthosCpc.Cpc.ReUnfold
import EthosCpc.Cpc.StringsSpec
import EthosCpc.Semantics.Extension

/-!
# Soundness of the unfolding of regular expressions

A negative membership is taken apart at every position, or at the one
position that a fixed length leaves.  A positive membership introduces
components, which are defined constants: `splitOf` chooses a decomposition
for every string and concatenation, and prefers one whose ends are not
empty, since the unfolding of a star asks for that.
-/

namespace EthosCpc

open Term (bop uop)
open Library Computability
open Option (some.inj)
open List (Forall₂ length_append take_append_drop)
open Language (mem_kstar nil_mem_kstar)

variable {Γ : Nat → Ty} {I : Interp Γ} {a b r r1 r2 s t u : Term} {A B L : RegLan}

/-! ## Fixed length -/

lemma length_of_strFixedLenRe {n : Int} (h : strFixedLenRe r = some n) (hr : ReVal I r L) :
    ∀ w ∈ L, (w.length : Int) = n := by
  induction r using strFixedLenRe.induct generalizing L n with
  | case1 a b iha ihb =>
    obtain ⟨i, hi, h⟩ := bind_inv h
    obtain ⟨j, hj, rfl⟩ := map_inv h
    obtain ⟨A, B, hA, hB, rfl⟩ := reVal_concat.1 hr
    rintro w ⟨x, hx, y, hy, rfl⟩
    have hxi := iha hi hA x hx
    have hyj := ihb hj hB y hy
    rw [length_append]
    omega
  | case2 =>
    cases h
    rw [reVal_allchar.1 hr]
    intro w hw
    exact congrArg Nat.cast hw
  | case3 x y =>
    cases h
    obtain ⟨p, q, -, -, rfl⟩ := reVal_range.1 hr
    intro w hw
    exact congrArg Nat.cast (length_of_mem_reRange p q hw)
  | case4 x =>
    obtain ⟨v, hv, rfl⟩ := reVal_strToRe.1 hr
    rintro w rfl
    rw [strFixedLenRe] at h
    unfold eoStrLen at h
    split at h
    · cases h
      rw [strVal_str.1 hv]
    · cases h
  | case5 a b iha ihb =>
    obtain ⟨i, hi, h⟩ := bind_inv h
    obtain ⟨A, B, hA, hB, rfl⟩ := reVal_union.1 hr
    rintro w (hw | hw)
    · split at h
      · cases h
        exact iha hi hA w hw
      · obtain ⟨j, hj, h⟩ := bind_inv h
        obtain ⟨_, h⟩ := eoRequires_eq_some.1 h
        cases h
        exact iha hi hA w hw
    split at h
    · rename_i hnone
      rw [hnone, reVal_none] at hB
      rw [hB] at hw
      exact absurd hw (Language.notMem_zero w)
    obtain ⟨j, hj, h⟩ := bind_inv h
    obtain ⟨hij, h⟩ := eoRequires_eq_some.1 h
    cases h
    rw [← of_decide_eq_true hij]
    exact ihb hj hB w hw
  | case6 a b iha ihb =>
    obtain ⟨i, hi, h⟩ := bind_inv h
    obtain ⟨A, B, hA, hB, rfl⟩ := reVal_inter.1 hr
    intro w hw
    have hwi := iha hi hA w hw.1
    split at h
    · cases h
      exact hwi
    obtain ⟨j, hj, h⟩ := bind_inv h
    obtain ⟨_, h⟩ := eoRequires_eq_some.1 h
    cases h
    exact hwi
  | case7 r h1 h2 h3 h4 h5 h6 =>
    rw [strFixedLenRe] at h
    · contradiction
    all_goals assumption

lemma strFixedLenRe_nonneg {n : Int} (h : strFixedLenRe r = some n) : 0 ≤ n := by
  induction r using strFixedLenRe.induct generalizing n with
  | case1 a b iha ihb =>
    obtain ⟨i, hi, h⟩ := bind_inv h
    obtain ⟨j, hj, rfl⟩ := map_inv h
    have := iha hi
    have := ihb hj
    omega
  | case2 | case3 =>
    cases h
    omega
  | case4 x =>
    rw [strFixedLenRe] at h
    unfold eoStrLen at h
    split at h
    · cases h
      omega
    · cases h
  | case5 a b iha _ | case6 a b iha _ =>
    obtain ⟨i, hi, h⟩ := bind_inv h
    have := iha hi
    split at h
    · cases h
      omega
    obtain ⟨j, _, h⟩ := bind_inv h
    obtain ⟨_, h⟩ := eoRequires_eq_some.1 h
    cases h
    omega
  | case7 r h1 h2 h3 h4 h5 h6 =>
    rw [strFixedLenRe] at h
    · contradiction
    all_goals assumption

/-! ## Negative memberships -/

lemma reVal_reSingletonElim (hr : ReVal I r L) (h : reSingletonElim r = some u) : ReVal I u L :=
  ListModel.read_eq_some.1 (ListModel.read_eoListSingletonElim (L := reConcatModel I)
    (ListModel.read_eq_some.2 hr) h)

variable {F : Term}

lemma boolVal_orNot {G : Term} {p q : Prop} (hF : BoolVal I F p) (hG : BoolVal I G q) :
    BoolVal I (orNot F G) (¬ p ∨ ¬ q) :=
  (boolVal_or (boolVal_not hF) (boolVal_or (boolVal_not hG) (boolVal_bool false))).congr (by simp)

lemma boolVal_orNots {G H K : Term} {p q p' q' : Prop} (hF : BoolVal I F p)
    (hG : BoolVal I G q) (hH : BoolVal I H p') (hK : BoolVal I K q') :
    BoolVal I (orNots F G H K) (p ∨ q ∨ ¬ p' ∨ ¬ q') :=
  boolVal_or hF (boolVal_or hG (boolVal_orNot hH hK))

section Parts

variable {x : Str} {n : Int}

lemma strVal_strPrefix (hs : StrVal I s x) (ht : IntVal I t n) :
    StrVal I (strPrefix s t) (x.take n.toNat) := by
  have h := strVal_substr (p := .num 0) (n := 0) hs rfl ht
  rw [Words.substr_zero] at h
  exact h

lemma strVal_strSuffixRem (hs : StrVal I s x) (ht : IntVal I t n) (hn : 0 ≤ n) :
    StrVal I (strSuffixRem s t) (x.drop n.toNat) := by
  have h := strVal_substr hs ht (intVal_minus (intVal_strLen_str hs) ht)
  rw [Words.substr_rest _ hn] at h
  exact h

lemma strVal_strSuffix (hs : StrVal I s x) (ht : IntVal I t n) : StrVal I (strSuffix s t)
      (if n ≤ x.length then x.drop (x.length - n).toNat else []) := by
  have h := strVal_substr hs (intVal_minus (intVal_strLen_str hs) ht) ht
  split
  swap
  · rename_i hgt
    rw [← Words.substr_of_neg x (n := (x.length : Int) - n) (by omega) n]
    exact h
  rename_i hle
  have hrest := Words.substr_rest x (n := (x.length : Int) - n) (by omega)
  rw [show (x.length : Int) - (x.length - n) = n by omega] at hrest
  rw [← hrest]
  exact h

end Parts

/-- What a decomposition at the fixed length of its first part comes to. -/
lemma notMem_fixed_front {x : Str} (n : Int) (hx : x ∉ A * B) : x.take n.toNat ∉ A ∨ x.drop n.toNat ∉ B := by
  by_contra hno
  rw [not_or, not_not, not_not] at hno
  exact hx ⟨_, hno.1, _, hno.2, take_append_drop n.toNat x⟩

lemma notMem_fixed_back {x : Str} {n : Int} (hA : ∀ w ∈ A, (w.length : Int) = n) (hx : x ∉ B * A) :
    (if n ≤ x.length then x.drop (x.length - n).toNat else []) ∉ A ∨
      x.take (x.length - n).toNat ∉ B := by
  by_contra hno
  rw [not_or, not_not, not_not] at hno
  obtain ⟨hmem, hpre⟩ := hno
  split at hmem
  · exact hx ⟨_, hpre, _, hmem, take_append_drop _ x⟩
  -- the string is too short for the last part
  have hlen := hA [] hmem
  rw [List.length_nil] at hlen
  omega

variable {G : Term}

/-- Rule `re_unfold_neg_concat_fixed`, in both directions. -/
lemma sat_reUnfoldNegConcatFixed {rev : Bool} (hprem : Sat I (uop .not (bop .strInRe s r)))
    (h : reUnfoldNegConcatFixed s r rev = some G) : Sat I G := by
  obtain ⟨x, L, hx, hL, hmem⟩ := sat_not_inRe.1 hprem
  obtain ⟨q, hq, h⟩ := bind_inv h
  have hlist : ReReads I false rev q L := by
    -- the list is reversed, and so is the order in which it is read
    cases rev with
    | false =>
      cases hq
      exact reReads_false.2 hL
    | true => exact reReads_eoListRev (reReads_false.2 hL) hq
  unfold mkReUnfoldNegConcatFixed at h
  split at h
  swap
  · cases h
  rename_i r1 r2
  obtain ⟨A, B, hA, hB, rfl⟩ := reReads_bop.1 hlist
  rw [reElem_false] at hA
  obtain ⟨n, hn, h⟩ := bind_inv h
  have hlen := length_of_strFixedLenRe hn hA
  have hpos := strFixedLenRe_nonneg hn
  have hnum : IntVal I (.num n) n := rfl
  cases rev with
  | false =>
    obtain ⟨p, hp, rfl⟩ := map_inv h
    have hB := reVal_reSingletonElim (reReads_false.1 hB) hp
    refine (boolVal_orNot (boolVal_inRe (strVal_strPrefix hx hnum) hA)
      (boolVal_inRe (strVal_strSuffixRem hx hnum hpos) hB)).sat.2 ?_
    exact notMem_fixed_front n hmem
  | true =>
    obtain ⟨p, hp, h⟩ := bind_inv h
    obtain ⟨p', hp', rfl⟩ := map_inv h
    have hB := reVal_reSingletonElim (reReads_false.1 (reReads_eoListRev hB hp)) hp'
    refine (boolVal_orNot (boolVal_inRe (strVal_strSuffix hx hnum) hA)
      (boolVal_inRe (strVal_strPrefix hx (intVal_minus (intVal_strLen_str hx) hnum)) hB)).sat.2 ?_
    exact notMem_fixed_back hlen hmem

/-- Truth of a formula with quantifiers: the numerals denote all integers. -/
def QForm.Holds (I : Interp Γ) : QForm → Prop
  | .ground F => Sat I F
  | .and F Q => Sat I F ∧ Q.Holds I
  | .forallInt body => ∀ z : Int, Sat I (body (.num z))

lemma holds_mkReUnfoldNeg {Q : QForm} (hprem : Sat I (uop .not (bop .strInRe s r)))
    (h : mkReUnfoldNeg s r = some Q) : Q.Holds I := by
  obtain ⟨x, L, hx, hL, hmem⟩ := sat_not_inRe.1 hprem
  have hlen := intVal_strLen_str hx
  have hnum : ∀ z : Int, IntVal I (.num z) z := fun z => rfl
  unfold mkReUnfoldNeg at h
  split at h
  · rename_i r1
    cases h
    obtain ⟨A, hA, rfl⟩ := reVal_star.1 hL
    constructor
    · refine (boolVal_not (boolVal_strEq hx (strVal_str.2 rfl))).sat.2 ?_
      rintro rfl
      exact hmem (nil_mem_kstar A)
    intro z
    by_cases hz : z ≤ 0
    · have hrem := strVal_substr hx (hnum z) (intVal_minus hlen (hnum z))
      exact (boolVal_orNots (boolVal_intLeq (hnum z) (hnum 0)) (boolVal_intLt hlen (hnum z))
        (boolVal_inRe (strVal_strPrefix hx (hnum z)) hA) (boolVal_inRe hrem hL)).sat.2
        (.inl hz)
    refine (boolVal_orNots (boolVal_intLeq (hnum z) (hnum 0)) (boolVal_intLt hlen (hnum z))
      (boolVal_inRe (strVal_strPrefix hx (hnum z)) hA)
      (boolVal_inRe (strVal_strSuffixRem hx (hnum z) (by omega)) hL)).sat.2 ?_
    refine .inr (.inr (notMem_fixed_front z fun hsplit => hmem ?_))
    exact (mul_kstar_le_kstar (a := A)) hsplit
  · rename_i r1 r2
    obtain ⟨q, hq, rfl⟩ := map_inv h
    obtain ⟨A, B, hA, hB, rfl⟩ := reVal_concat.1 hL
    have hB := reVal_reSingletonElim hB hq
    intro z
    by_cases hz : z < 0
    · have hrem := strVal_substr hx (hnum z) (intVal_minus hlen (hnum z))
      exact (boolVal_orNots (boolVal_intLt (hnum z) (hnum 0)) (boolVal_intLt hlen (hnum z))
        (boolVal_inRe (strVal_strPrefix hx (hnum z)) hA) (boolVal_inRe hrem hB)).sat.2
        (.inl hz)
    refine (boolVal_orNots (boolVal_intLt (hnum z) (hnum 0)) (boolVal_intLt hlen (hnum z))
      (boolVal_inRe (strVal_strPrefix hx (hnum z)) hA)
      (boolVal_inRe (strVal_strSuffixRem hx (hnum z) (by omega)) hB)).sat.2 ?_
    exact .inr (.inr (notMem_fixed_front z hmem))
  · cases h

/-! ## Rewrites -/

lemma reVal_strMkReLoopElimRec {n d j : Nat} (hr : ReVal I r A) (ht : ReVal I t (A ^ j))
    (h : strMkReLoopElimRec r n d t = some u) :
    ReVal I u { w | ∃ i : Nat, j + n ≤ i ∧ i ≤ j + n + d ∧ w ∈ A ^ i } := by
  induction n, d, t using strMkReLoopElimRec.induct r generalizing j u with
  | case1 t =>
    rw [strMkReLoopElimRec] at h
    obtain ⟨q, hq, rfl⟩ := map_inv h
    refine reVal_union.2 ⟨_, 0, reVal_reSingletonElim ht hq, reVal_none.2 rfl, ?_⟩
    rw [add_zero (A ^ j)]
    ext w
    constructor
    · rintro ⟨i, hlo, hhi, hw⟩
      obtain rfl : i = j := by omega
      exact hw
    · intro hw
      exact ⟨j, le_rfl, le_rfl, hw⟩
  | case2 d t ih =>
    rw [strMkReLoopElimRec] at h
    obtain ⟨q, hq, h⟩ := bind_inv h
    obtain ⟨v, hv, rfl⟩ := map_inv h
    have hnext : ReVal I (bop .reConcat r t) (A ^ (j + 1)) :=
      reVal_concat.2 ⟨A, A ^ j, hr, ht, pow_succ' A j⟩
    refine reVal_union.2 ⟨_, _, reVal_reSingletonElim ht hq, ih hnext hv, ?_⟩
    ext w
    constructor
    · rintro ⟨i, hlo, hhi, hw⟩
      by_cases hij : i = j
      · exact .inl (hij ▸ hw)
      · exact .inr ⟨i, by omega, by omega, hw⟩
    · rintro (hw | ⟨i, hlo, hhi, hw⟩)
      · exact ⟨j, by omega, by omega, hw⟩
      · exact ⟨i, by omega, by omega, hw⟩
  | case3 n d t ih =>
    rw [strMkReLoopElimRec] at h
    have hnext : ReVal I (bop .reConcat r t) (A ^ (j + 1)) :=
      reVal_concat.2 ⟨A, A ^ j, hr, ht, pow_succ' A j⟩
    have hrec := ih hnext h
    have hset : ({ w | ∃ i : Nat, j + 1 + n ≤ i ∧ i ≤ j + 1 + n + d ∧ w ∈ A ^ i } : Set Str) =
        { w | ∃ i : Nat, j + (n + 1) ≤ i ∧ i ≤ j + (n + 1) + d ∧ w ∈ A ^ i } := by
      rw [show j + 1 + n = j + (n + 1) by omega]
    exact hset ▸ hrec

lemma sat_reLoopElim (hr : ReVal I r A) (h : reLoopElim s t r = some G) : Sat I G := by
  unfold reLoopElim at h
  split at h
  swap
  · cases h
  rename_i l m
  obtain ⟨_, h⟩ := eoRequires_eq_some.1 h
  obtain ⟨q, hq, rfl⟩ := map_inv h
  unfold strMkReLoopElim at hq
  split at hq
  swap
  · cases hq
  rename_i hpos
  obtain ⟨p, hp, hq⟩ := bind_inv hq
  have hp := reVal_strMkReLoopElimRec (j := 0) hr (reVal_empty.2 (pow_zero A)) hp
  have hq := ListModel.read_eq_some.1 (ListModel.read_eoListSingletonElim
    (L := reUnionModel I) (ListModel.read_eq_some.2 hp) hq)
  have hloop : reLoop l m A = { w | ∃ i : Nat, 0 + l.toNat ≤ i ∧
      i ≤ 0 + l.toNat + (-l + m).toNat ∧ w ∈ A ^ i } := by
    ext w
    constructor
    · rintro ⟨i, hlo, hhi, hw⟩
      exact ⟨i, by omega, by omega, hw⟩
    · rintro ⟨i, hlo, hhi, hw⟩
      exact ⟨i, by omega, by omega, hw⟩
  exact sat_eq.2 ⟨_, reVal_loop (n := l) (m := m) rfl rfl hr, hloop ▸ hq⟩

/-- The words of a length, or of at least that length. -/
def lengthLang (n : Nat) (exact : Bool) : RegLan :=
  { w | if exact then w.length = n else n ≤ w.length }

lemma lengthLang_mul_allchar {n : Nat} {b : Bool} :
    lengthLang n b * (reAllchar * L) = lengthLang (n + 1) b * L := by
  rw [← mul_assoc]
  congr 1
  ext w
  constructor
  · rintro ⟨u, hu, v, hv, rfl⟩
    have hv : v.length = 1 := hv
    show if b then (u ++ v).length = n + 1 else n + 1 ≤ (u ++ v).length
    rw [length_append, hv]
    cases b with
    | true => exact congrArg (· + 1) hu
    | false => exact Nat.succ_le_succ hu
  intro hw
  have hw : if b then w.length = n + 1 else n + 1 ≤ w.length := hw
  have hpos : 1 ≤ w.length := by
    split at hw
    · omega
    · omega
  refine ⟨w.take (w.length - 1), ?_, w.drop (w.length - 1), ?_, take_append_drop _ w⟩
  · show if b then (w.take (w.length - 1)).length = n else n ≤ (w.take (w.length - 1)).length
    rw [List.length_take]
    cases b with
    | true =>
      have hw : w.length = n + 1 := hw
      show min (w.length - 1) w.length = n
      omega
    | false =>
      have hw : n + 1 ≤ w.length := hw
      show n ≤ min (w.length - 1) w.length
      omega
  · show (w.drop (w.length - 1)).length = 1
    rw [List.length_drop]
    omega

lemma lengthLang_mul_sigmaStar {n : Nat} {b : Bool} :
    lengthLang n b * (reAllchar∗ * L) = lengthLang n false * L := by
  rw [← mul_assoc]
  congr 1
  ext w
  constructor
  · rintro ⟨u, hu, v, -, rfl⟩
    have hu : if b then u.length = n else n ≤ u.length := hu
    show n ≤ (u ++ v).length
    rw [length_append]
    split at hu
    · omega
    · omega
  intro hw
  have hw : n ≤ w.length := hw
  refine ⟨w.take n, ?_, w.drop n, mem_sigmaStar _, take_append_drop n w⟩
  show if b then (w.take n).length = n else n ≤ (w.take n).length
  rw [List.length_take, Nat.min_eq_left hw]
  split
  · rfl
  · exact le_rfl

/-- The rest of the list is preceded by the `n` characters that were read. -/
lemma boolVal_strMkStrInReSigmaRec {x : Str} {n : Nat} {b : Bool}
    (hs : StrVal I s x) (hr : ReVal I r L) (h : strMkStrInReSigmaRec s r n b = some F) :
    BoolVal I F (x ∈ lengthLang n b * L) := by
  generalize hm : (n : Int) = m at h
  induction r, m, b using strMkStrInReSigmaRec.induct generalizing n L with
  | case1 r m b ih =>
    obtain ⟨A, B, hA, hB, rfl⟩ := reVal_concat.1 hr
    rw [reVal_allchar.1 hA, lengthLang_mul_allchar]
    exact ih hB (by omega) h
  | case2 r m b ih =>
    obtain ⟨A, B, hA, hB, rfl⟩ := reVal_concat.1 hr
    obtain ⟨C, hC, rfl⟩ := reVal_star.1 hA
    rw [reVal_allchar.1 hC, lengthLang_mul_sigmaStar]
    exact ih hB hm h
  | case3 m b =>
    cases h
    have hnum : IntVal I (.num m) m := rfl
    rw [reVal_empty.1 hr, mul_one]
    cases b with
    | true =>
      refine (boolVal_intEq (intVal_strLen_str hs) hnum).congr ?_
      show (x.length : Int) = m ↔ x.length = n
      omega
    | false =>
      refine (boolVal_intGeq (intVal_strLen_str hs) hnum).congr ?_
      show m ≤ (x.length : Int) ↔ n ≤ x.length
      omega
  | case4 r m b h1 h2 h3 =>
    rw [strMkStrInReSigmaRec] at h
    · contradiction
    all_goals assumption

lemma lengthLang_zero_true : lengthLang 0 true = 1 := by
  ext w
  exact List.length_eq_zero_iff

lemma sat_strInReSigma {x : Str} (hs : StrVal I s x) (hr : ReVal I r L)
    (h : strInReSigma s r = some G) : Sat I G := by
  obtain ⟨F, hF, rfl⟩ := map_inv h
  have hval := boolVal_strMkStrInReSigmaRec (n := 0) hs hr hF
  rw [lengthLang_zero_true, one_mul] at hval
  exact (boolVal_eq (boolVal_inRe hs hr) hval).sat.2 Iff.rfl

lemma strMkStrInReSigmaStarRec_spec {n : Nat} (hr : ReVal I r L)
    (h : strMkStrInReSigmaStarRec s r n = some F) :
    ∃ N : Nat, N ≠ 0 ∧ F = bop .eq (bop .mod (uop .strLen s) (.num N)) (.num 0) ∧
      lengthLang n true * L = lengthLang N true := by
  generalize hm : (n : Int) = m at h
  induction r, m using strMkStrInReSigmaStarRec.induct generalizing n L with
  | case1 r m ih =>
    obtain ⟨A, B, hA, hB, rfl⟩ := reVal_concat.1 hr
    rw [reVal_allchar.1 hA, lengthLang_mul_allchar]
    exact ih hB (by omega) h
  | case2 m =>
    obtain ⟨hne, h⟩ := eoRequires_eq_some.1 h
    cases h
    refine ⟨n, ?_, by rw [hm], ?_⟩
    · have := of_decide_eq_true hne
      omega
    · rw [reVal_empty.1 hr, mul_one]
  | case3 r m h1 h2 =>
    rw [strMkStrInReSigmaStarRec] at h
    · contradiction
    all_goals assumption

lemma intVal_mod {p q : Term} {n m : Int} (hp : IntVal I p n) (hq : IntVal I q m)
    (hm : m ≠ 0) : IntVal I (bop .mod p q) (n % m) := by
  unfold IntVal
  rw [value_bop I rfl, show value I p = _ from hp, show value I q = _ from hq]
  simp [symVal.eq_def, vInt2, hm]

lemma mem_kstar_lengthLang {N : Nat} {w : Str} : w ∈ (lengthLang N true)∗ ↔ N ∣ w.length := by
  constructor
  · intro hw
    obtain ⟨S, rfl, hS⟩ := mem_kstar.1 hw
    clear hw
    induction S with
    | nil => exact dvd_zero N
    | cons u S ih =>
      have hu : u.length = N := hS u (.head _)
      rw [List.flatten_cons, length_append, hu]
      exact (Nat.dvd_add_right (dvd_refl N)).2 (ih fun v hv => hS v (List.mem_cons_of_mem u hv))
  rintro ⟨k, hk⟩
  induction k generalizing w with
  | zero =>
    rw [Nat.mul_zero] at hk
    rw [List.length_eq_zero_iff.1 hk]
    exact nil_mem_kstar _
  | succ k ih =>
    rw [Nat.mul_succ] at hk
    refine mul_kstar_le_kstar (a := lengthLang N true) ?_
    refine ⟨w.take N, ?_, w.drop N, ih ?_, take_append_drop N w⟩
    · show (w.take N).length = N
      rw [List.length_take]
      omega
    · rw [List.length_drop]
      omega

lemma sat_strInReSigmaStar {x : Str} (hs : StrVal I s x) (hr : ReVal I r L)
    (h : strInReSigmaStar s r = some G) : Sat I G := by
  obtain ⟨F, hF, rfl⟩ := map_inv h
  obtain ⟨N, hN, rfl, hlang⟩ := strMkStrInReSigmaStarRec_spec (n := 0) hr hF
  rw [lengthLang_zero_true, one_mul] at hlang
  have hnum : ∀ z : Int, IntVal I (.num z) z := fun z => rfl
  have hmod := boolVal_intEq (intVal_mod (intVal_strLen_str hs) (hnum N) (by omega)) (hnum 0)
  have hstar : ReVal I (uop .reStar r) (lengthLang N true)∗ := reVal_star.2 ⟨L, hr, by rw [hlang]⟩
  refine (boolVal_eq (boolVal_inRe hs hstar) hmod).sat.2 ?_
  rw [mem_kstar_lengthLang, ← Int.natCast_dvd_natCast]
  exact Int.dvd_iff_emod_eq_zero

/-- A word of characters belongs to the star when its characters do. -/
lemma mem_kstar_chars (hA : ∀ w ∈ A, (w.length : Int) = 1) {w : Str} :
    w ∈ A∗ ↔ ∀ c ∈ w, [c] ∈ A := by
  constructor
  · intro hw
    obtain ⟨S, rfl, hS⟩ := mem_kstar.1 hw
    intro c hc
    obtain ⟨u, hu, hcu⟩ := List.mem_flatten.1 hc
    have hmem := hS u hu
    obtain ⟨d, rfl⟩ := List.length_eq_one_iff.1 (Int.ofNat.inj (hA u hmem))
    rw [List.mem_singleton.1 hcu]
    exact hmem
  · intro hall
    refine mem_kstar.2 ⟨w.map fun c => [c], (flatten_map_singleton w).symm, ?_⟩
    intro y hy
    obtain ⟨c, hc, rfl⟩ := List.mem_map.1 hy
    exact hall c hc

lemma boolVal_strMkStrInReConcatStarChar {x : Str}
    (hA : ∀ w ∈ A, (w.length : Int) = 1) (hr : ReVal I r A∗) (hs : StrVal I s x)
    (h : strMkStrInReConcatStarChar s r = some F) : BoolVal I F (x ∈ A∗) := by
  induction s, r using strMkStrInReConcatStarChar.induct generalizing x F with
  | case1 s1 s2 r ih =>
    obtain ⟨y, z, hy, hz, rfl⟩ := strVal_concat.1 hs
    obtain ⟨G, hG, rfl⟩ := map_inv h
    refine (boolVal_and (boolVal_inRe hy hr) (ih hr hz hG)).congr ?_
    rw [mem_kstar_chars hA, mem_kstar_chars hA, mem_kstar_chars hA, List.forall_mem_append]
  | case2 r =>
    cases h
    rw [strVal_str.1 hs]
    exact (boolVal_bool true).congr (iff_of_true rfl (nil_mem_kstar A))
  | case3 s r h1 h2 =>
    rw [strMkStrInReConcatStarChar] at h
    · contradiction
    all_goals assumption

lemma sat_strInReConcatStarChar {x : Str} (hs : StrVal I (bop .strConcat s t) x) (hr : ReVal I r A)
    (h : strInReConcatStarChar s t r = some G) : Sat I G := by
  obtain ⟨n, hn, h⟩ := bind_inv h
  obtain ⟨hone, h⟩ := eoRequires_eq_some.1 h
  obtain ⟨F, hF, rfl⟩ := map_inv h
  rw [of_decide_eq_true hone] at hn
  have hlen := length_of_strFixedLenRe hn hr
  have hstar : ReVal I (uop .reStar r) A∗ := reVal_star.2 ⟨A, hr, rfl⟩
  exact (boolVal_eq (boolVal_inRe hs hstar)
    (boolVal_strMkStrInReConcatStarChar hlen hstar hs hF)).sat.2 Iff.rfl

/-! ## Positive memberships -/

/-- The constants that are components of unfolded concatenations.  Each stands for one
component, and is newer than the constants of the terms it belongs to. -/
structure Components (Γ : Nat → Ty) where
  skolem : Nat → Option (Term × Term × Nat)
  type_eq : ∀ {n : Nat} {p : Term × Term × Nat}, skolem n = some p → Γ n = .seq .char
  older : ∀ {n : Nat} {t r : Term} {i : Nat}, skolem n = some (t, r, i) →
    (∀ m ∈ t.consts, m < n) ∧ ∀ m ∈ r.consts, m < n

def reElems (r : Term) : List Term := (naryView (.sym .reConcat) r).1

/-- A word belongs to an element. -/
def InElem (I : Interp Γ) (x : Term) (w : Str) : Prop := ∃ L, ReVal I x L ∧ w ∈ L

/-- A decomposition of a string along a concatenation. -/
structure IsSplit (I : Interp Γ) (t r : Term) (ws : List Str) : Prop where
  string : StrVal I t ws.flatten
  parts : Forall₂ (InElem I) (reElems r) ws

/-- The parts at the two ends are not empty. -/
def EndsNonempty (ws : List Str) : Prop := ws.head? ≠ some [] ∧ ws.getLast? ≠ some []

open Classical in
/-- The decomposition that the components denote. -/
noncomputable def splitOf (I : Interp Γ) (t r : Term) : List Str :=
  if h : ∃ ws, IsSplit I t r ws ∧ EndsNonempty ws then h.choose
  else if h : ∃ ws, IsSplit I t r ws then h.choose
  else []

lemma isSplit_splitOf {ws : List Str} (h : IsSplit I t r ws) : IsSplit I t r (splitOf I t r) := by
  unfold splitOf
  split
  · rename_i hends
    exact hends.choose_spec.1
  · rw [dif_pos ⟨ws, h⟩]
    exact (⟨ws, h⟩ : ∃ ws, IsSplit I t r ws).choose_spec

lemma endsNonempty_splitOf {ws : List Str} (h : IsSplit I t r ws) (hends : EndsNonempty ws) :
    EndsNonempty (splitOf I t r) := by
  unfold splitOf
  have hex : ∃ ws, IsSplit I t r ws ∧ EndsNonempty ws := ⟨ws, h, hends⟩
  rw [dif_pos hex]
  exact hex.choose_spec.2

lemma consts_of_mem_naryView {f r x : Term} (hx : x ∈ (naryView f r).1) :
    ∀ m ∈ x.consts, m ∈ r.consts := by
  induction r using naryView.induct f with
  | case1 a b ih =>
    rw [naryView, if_pos rfl] at hx
    intro m hm
    rcases List.mem_cons.1 hx with rfl | hx
    · exact List.mem_append_left _ (List.mem_append_right _ hm)
    · exact List.mem_append_right _ (ih hx m hm)
  | case2 g a b hg =>
    rw [naryView, if_neg hg] at hx
    exact absurd hx List.not_mem_nil
  | case3 r h =>
    rw [naryView] at hx
    · exact absurd hx List.not_mem_nil
    · exact h

section Components

variable {f g : ∀ n, Dom I.U (Γ n)}

lemma isSplit_withConst (ht : ∀ m ∈ t.consts, f m = g m) (hr : ∀ m ∈ r.consts, f m = g m)
    (ws : List Str) (h : IsSplit (I.withConst f) t r ws) : IsSplit (I.withConst g) t r ws := by
  refine ⟨(value_withConst ht).symm.trans h.string, ?_⟩
  refine (List.forall₂_iff_zip.1 h.parts).1 |> fun hlen => List.forall₂_iff_zip.2 ⟨hlen, ?_⟩
  intro x w hxw
  obtain ⟨L, hL, hw⟩ := (List.forall₂_iff_zip.1 h.parts).2 hxw
  refine ⟨L, ?_, hw⟩
  have hx := consts_of_mem_naryView (List.of_mem_zip hxw).1
  exact (value_withConst fun m hm => hr m (hx m hm)).symm.trans hL

lemma splitOf_withConst (ht : ∀ m ∈ t.consts, f m = g m) (hr : ∀ m ∈ r.consts, f m = g m) :
    splitOf (I.withConst f) t r = splitOf (I.withConst g) t r := by
  have hsame : IsSplit (I.withConst f) t r = IsSplit (I.withConst g) t r := by
    funext ws
    exact propext ⟨isSplit_withConst ht hr ws,
      isSplit_withConst (fun m hm => (ht m hm).symm) (fun m hm => (hr m hm).symm) ws⟩
  unfold splitOf
  rw [hsame]

end Components

lemma sigma_cast {U : Nat → Type} {S T : Ty} (h : S = T) (x : Dom U T) :
    (⟨S, cast (congrArg (Dom U) h.symm) x⟩ : Val U) = ⟨T, x⟩ := by
  subst h
  rfl

noncomputable def Components.constValue (S : Components Γ) (I : Interp Γ) (n : Nat)
    (f : ∀ m, Dom I.U (Γ m)) : Dom I.U (Γ n) :=
  match h : S.skolem n with
  | none => I.const n
  | some (t, r, i) =>
    cast (congrArg (Dom I.U) (S.type_eq h).symm) (((splitOf (I.withConst f) t r)[i]?).getD [] : Str)

lemma Components.exists_const (S : Components Γ) (I : Interp Γ) :
    ∃ f : ∀ n, Dom I.U (Γ n), (∀ n, S.skolem n = none → f n = I.const n) ∧
      ∀ n t r i, S.skolem n = some (t, r, i) →
        StrVal (I.withConst f) (.const n) (((splitOf (I.withConst f) t r)[i]?).getD []) := by
  have hcausal : Causal (S.constValue I) := by
    intro n f g hfg
    unfold Components.constValue
    split
    · rfl
    rename_i t r i h
    obtain ⟨ht, hr⟩ := S.older h
    rw [splitOf_withConst (fun m hm => hfg m (ht m hm)) fun m hm => hfg m (hr m hm)]
  obtain ⟨f, hf⟩ := hcausal.exists_solution I.const
  refine ⟨f, ?_, ?_⟩
  · intro n hn
    rw [hf n]
    unfold Components.constValue
    split
    · rfl
    rename_i h
    rw [hn] at h
    contradiction
  intro n t r i hn
  show some (⟨Γ n, f n⟩ : Val I.U) = some (Val.str _)
  rw [hf n]
  unfold Components.constValue
  split
  · rename_i h
    rw [hn] at h
    contradiction
  rename_i h
  have heq := some.inj (hn.symm.trans h)
  cases heq
  exact congrArg some (sigma_cast (S.type_eq h) _)

lemma reElems_cons : reElems (bop .reConcat a b) = a :: reElems b := by
  unfold reElems
  rw [naryView, if_pos rfl]

lemma exists_isSplit {x : Str} (ht : StrVal I t x) (hr : ReVal I r L) (hx : x ∈ L)
    (hend : (naryView (.sym .reConcat) r).2 = reEmpty) : ∃ ws, IsSplit I t r ws := by
  have hsplit : ∃ ws, ws.flatten = x ∧ Forall₂ (InElem I) (reElems r) ws := by
    clear ht
    induction r using listInduction .reConcat generalizing L x with
    | base r hb =>
      rw [naryView_of_not_isBop hb] at hend
      rw [hend, reVal_empty] at hr
      rw [hr] at hx
      have hnil : x = [] := hx
      refine ⟨[], hnil.symm, ?_⟩
      rw [hend]
      exact Forall₂.nil
    | step a b ih =>
      obtain ⟨A, B, hA, hB, rfl⟩ := reVal_concat.1 hr
      obtain ⟨y, hy, z, hz, rfl⟩ := hx
      obtain ⟨ws, rfl, hws⟩ := ih hB hz (by simpa [naryView] using hend)
      refine ⟨y :: ws, rfl, ?_⟩
      rw [reElems_cons]
      exact Forall₂.cons ⟨A, hA, hy⟩ hws
  obtain ⟨ws, rfl, hws⟩ := hsplit
  exact ⟨ws, ht, hws⟩

variable {k : Nat → Nat}

/-- What the unfolding of a concatenation returns: the parts of the string, and that they belong
to the elements.  An element `(str.to_re s)` is its own part. -/
lemma reUnfoldPosConcatRec_spec {i : Nat} {c M : Term}
    (hk : ∀ j < (reElems r).length, ∃ w, StrVal I (.const (k (i + j))) w)
    (hr : ∃ L, ReVal I r L) (h : reUnfoldPosConcatRec k r i = some (c, M)) :
    (naryView (.sym .reConcat) r).2 = reEmpty ∧
    ∃ cs vs, c = prependNAryChildren (.sym .strConcat) (.str []) cs ∧
      cs.length = (reElems r).length ∧ Forall₂ (StrVal I) cs vs ∧ BoolVal I M (Forall₂ (InElem I) (reElems r) vs) ∧
      ∀ ws, Forall₂ (InElem I) (reElems r) ws →
        (∀ j < (reElems r).length, StrVal I (.const (k (i + j))) ((ws[j]?).getD [])) → vs = ws := by
  induction r using listInduction .reConcat generalizing i c M with
  | base r hb =>
    have hrec : reUnfoldPosConcatRec k r i =
        if r = reEmpty then some (.str [], .bool true) else none := by
      unfold reUnfoldPosConcatRec
      split
      · contradiction
      · rfl
    rw [hrec] at h
    split at h
    swap
    · cases h
    rename_i hempty
    cases h
    subst hempty
    refine ⟨rfl, [], [], rfl, rfl, .nil, ?_, ?_⟩
    · exact (boolVal_bool true).congr (iff_of_true rfl .nil)
    · intro ws hws _
      exact (List.forall₂_nil_left_iff.1 hws).symm
  | step a b ih =>
    obtain ⟨L, hL⟩ := hr
    obtain ⟨A, B, hA, hB, _⟩ := reVal_concat.1 hL
    obtain ⟨⟨c', M'⟩, hres, h⟩ := map_inv h
    rw [reElems_cons] at hk ⊢
    have hk' : ∀ j < (reElems b).length, ∃ w, StrVal I (.const (k (i + 1 + j))) w := by
      intro j hj
      have hkj := hk (j + 1) (Nat.succ_lt_succ hj)
      rwa [show i + (j + 1) = i + 1 + j by omega] at hkj
    obtain ⟨hend, cs, vs, rfl, hlen, hcs, hM, huniq⟩ := ih hk' ⟨B, hB⟩ hres
    refine ⟨by simpa [naryView] using hend, ?_⟩
    have htail : ∀ ws : List Str, ∀ w : Str, (∀ j < (a :: reElems b).length,
          StrVal I (.const (k (i + j))) (((w :: ws)[j]?).getD [])) →
        ∀ j < (reElems b).length, StrVal I (.const (k (i + 1 + j))) ((ws[j]?).getD []) := by
      intro ws w hws j hj
      have hj' := hws (j + 1) (Nat.succ_lt_succ hj)
      rw [show i + (j + 1) = i + 1 + j by omega, List.getElem?_cons_succ] at hj'
      exact hj'
    split at h
    · rename_i s _
      cases h
      obtain ⟨v, hv, rfl⟩ := reVal_strToRe.1 hA
      refine ⟨s :: cs, v :: vs, rfl, congrArg (· + 1) hlen, .cons hv hcs, ?_, ?_⟩
      · refine hM.congr ?_
        rw [List.forall₂_cons]
        exact (and_iff_right ⟨_, hA, rfl⟩).symm
      intro ws hws hconst
      cases hws with
      | @cons _ w _ ws hw hrest =>
        obtain ⟨L', hL', hwL⟩ := hw
        obtain rfl := hA.unique hL'
        have hwv : w = v := hwL
        rw [hwv, huniq ws hrest (htail ws w hconst)]
    cases h
    obtain ⟨v, hv⟩ := hk 0 (Nat.succ_pos _)
    refine ⟨.const (k i) :: cs, v :: vs, rfl, congrArg (· + 1) hlen, .cons hv hcs, ?_, ?_⟩
    · refine (boolVal_and (boolVal_inRe hv hA) hM).congr ?_
      rw [List.forall₂_cons]
      refine and_congr_left' ⟨fun hmem => ⟨A, hA, hmem⟩, ?_⟩
      rintro ⟨L', hL', hmem⟩
      rwa [hA.unique hL']
    intro ws hws hconst
    cases hws with
    | @cons _ w _ ws hw hrest =>
      have hwv : v = w := hv.unique (hconst 0 (Nat.succ_pos _))
      rw [hwv, huniq ws hrest (htail ws w hconst)]

lemma strVal_prepend {cs : List Term} {vs : List Str} (h : Forall₂ (StrVal I) cs vs) :
    StrVal I (prependNAryChildren (.sym .strConcat) (.str []) cs) vs.flatten := by
  induction h with
  | nil => exact strVal_str.2 rfl
  | cons hc _ ih => exact strVal_concat.2 ⟨_, _, hc, ih, rfl⟩

/-- The components of `t` along `r` have the values that the decomposition gives them. -/
def ComponentsDenote (I : Interp Γ) (k : Nat → Nat) (t r : Term) : Prop :=
  ∀ j < (reElems r).length, StrVal I (.const (k j)) (((splitOf I t r)[j]?).getD [])

lemma reUnfoldPosConcat_spec {c M : Term} (hk : ComponentsDenote I k t r)
    (hr : ∃ L, ReVal I r L) (h : reUnfoldPosConcat k r = some (c, M)) :
    (naryView (.sym .reConcat) r).2 = reEmpty ∧
    ∃ cs vs, c = prependNAryChildren (.sym .strConcat) (.str []) cs ∧
      cs.length = (reElems r).length ∧ Forall₂ (StrVal I) cs vs ∧ BoolVal I M (Forall₂ (InElem I) (reElems r) vs) ∧
      ((∃ ws, IsSplit I t r ws) → vs = splitOf I t r) := by
  obtain ⟨hend, cs, vs, hc, hlen, hcs, hM, huniq⟩ := reUnfoldPosConcatRec_spec (i := 0)
    (fun j hj => ⟨_, by simpa using hk j hj⟩) hr h
  refine ⟨hend, cs, vs, hc, hlen, hcs, hM, ?_⟩
  rintro ⟨ws, hws⟩
  exact huniq _ (isSplit_splitOf hws).parts fun j hj => by simpa using hk j hj

lemma sat_mkReUnfoldPos_concat (hk : ComponentsDenote I k t (bop .reConcat a b))
    (hprem : Sat I (bop .strInRe t (bop .reConcat a b)))
    (h : mkReUnfoldPos k t (bop .reConcat a b) = some G) : Sat I G := by
  obtain ⟨x, L, hx, hL, hmem⟩ := sat_inRe.1 hprem
  obtain ⟨⟨c, M⟩, hres, h⟩ := map_inv h
  obtain ⟨hend, cs, vs, rfl, -, hcs, hM, hvs⟩ := reUnfoldPosConcat_spec hk ⟨L, hL⟩ hres
  obtain ⟨ws, hws⟩ := exists_isSplit hx hL hmem hend
  obtain rfl := hvs ⟨ws, hws⟩
  have hsplit := isSplit_splitOf hws
  have heq : Sat I (bop .eq t (prependNAryChildren (.sym .strConcat) (.str []) cs)) :=
    (boolVal_strEq hsplit.string (strVal_prepend hcs)).sat.2 rfl
  split at h
  · cases h
    exact heq
  · cases h
    exact sat_and.2 ⟨heq, hM.sat.2 hsplit.parts⟩

/-- A word of a star is empty, belongs to the body, or has a decomposition whose ends are not
empty. -/
lemma exists_isSplit_star {x : Str} (ht : StrVal I t x) (hr : ReVal I r A) (hx : x ∈ A∗)
    (hne : x ≠ []) (hnot : x ∉ A) :
    ∃ ws, IsSplit I t (unfoldedConcat (uop .reStar r)) ws ∧ EndsNonempty ws := by
  have hstar : ReVal I (uop .reStar r) A∗ := reVal_star.2 ⟨A, hr, rfl⟩
  obtain ⟨S, rfl, hS⟩ := Language.mem_kstar_iff_exists_nonempty.1 hx
  rcases S with _ | ⟨u, S⟩
  · contradiction
  rcases List.eq_nil_or_concat S with rfl | ⟨mid, v, rfl⟩
  · refine absurd ?_ hnot
    rw [List.flatten_singleton]
    exact (hS u (.head _)).1
  have hu := hS u (.head _)
  have hv := hS v (List.mem_cons_of_mem u (by simp))
  have hmid : mid.flatten ∈ A∗ := Language.join_mem_kstar fun y hy =>
    (hS y (List.mem_cons_of_mem u (by simp [hy]))).1
  refine ⟨[u, mid.flatten, v], ⟨?_, ?_⟩, ?_, ?_⟩
  · have hflat : (u :: (mid ++ [v])).flatten = [u, mid.flatten, v].flatten := by simp
    rw [List.concat_eq_append, hflat] at ht
    exact ht
  · exact .cons ⟨A, hr, hu.1⟩ (.cons ⟨A∗, hstar, hmid⟩ (.cons ⟨A, hr, hv.1⟩ .nil))
  · intro h
    exact hu.2 (some.inj h)
  · intro h
    exact hv.2 (some.inj h)

lemma sat_mkReUnfoldPos_star (hk : ComponentsDenote I k t (unfoldedConcat (uop .reStar r)))
    (hprem : Sat I (bop .strInRe t (uop .reStar r)))
    (h : mkReUnfoldPos k t (uop .reStar r) = some G) : Sat I G := by
  obtain ⟨x, L, hx, hL, hmem⟩ := sat_inRe.1 hprem
  obtain ⟨A, hA, rfl⟩ := reVal_star.1 hL
  have hval : ∃ L, ReVal I (unfoldedConcat (uop .reStar r)) L :=
    ⟨_, reVal_concat.2 ⟨A, _, hA, reVal_concat.2 ⟨_, _, hL,
      reVal_concat.2 ⟨A, 1, hA, reVal_empty.2 rfl, rfl⟩, rfl⟩, rfl⟩⟩
  have h : (reUnfoldPosConcat k (unfoldedConcat (uop .reStar r))).bind
      (mkReUnfoldPosStar t r) = some G := h
  obtain ⟨⟨c, M⟩, hres, h⟩ := bind_inv h
  obtain ⟨-, cs, vs, rfl, hlen, hcs, hM, hvs⟩ := reUnfoldPosConcat_spec hk hval hres
  obtain ⟨k1, k2, k3, rfl⟩ := List.length_eq_three.1 hlen
  rcases hcs with _ | @⟨_, v1, _, _, h1, _ | @⟨_, v2, _, _, h2, _ | @⟨_, v3, _, _, h3, hnil⟩⟩⟩
  cases hnil
  cases h
  have hempty : StrVal I (.str []) [] := strVal_str.2 rfl
  have hconcat := strVal_prepend (.cons h1 (.cons h2 (.cons h3 .nil)))
  have hthird := boolVal_and (boolVal_and (boolVal_strEq hx hconcat) hM)
    (boolVal_and (boolVal_not (boolVal_strEq h1 hempty))
      (boolVal_and (boolVal_not (boolVal_strEq h3 hempty)) (boolVal_bool true)))
  refine (boolVal_or (boolVal_strEq hx hempty) (boolVal_or (boolVal_inRe hx hA)
    (boolVal_or hthird (boolVal_bool false)))).sat.2 ?_
  by_cases hne : x = []
  · exact .inl hne
  by_cases hbody : x ∈ A
  · exact .inr (.inl hbody)
  obtain ⟨ws, hws, hends⟩ := exists_isSplit_star hx hA hmem hne hbody
  have hsplit := isSplit_splitOf hws
  obtain ⟨hfirst, hlast⟩ := endsNonempty_splitOf hws hends
  rw [← hvs ⟨ws, hws⟩] at hsplit hfirst hlast
  refine .inr (.inr (.inl ⟨⟨hx.unique hsplit.string, hsplit.parts⟩, ?_, ?_, rfl⟩))
  · exact fun hv => hfirst (congrArg some hv)
  · exact fun hv => hlast (congrArg some hv)

lemma sat_mkReUnfoldPos
    (hk : ComponentsDenote I k t (unfoldedConcat r)) (hprem : Sat I (bop .strInRe t r))
    (h : mkReUnfoldPos k t r = some G) : Sat I G := by
  unfold mkReUnfoldPos at h
  split at h
  · exact sat_mkReUnfoldPos_star hk hprem h
  · exact sat_mkReUnfoldPos_concat hk hprem h
  · cases h

/-! ## Soundness -/

/-- The constants `k 0`, `k 1`, … are the components of `t` along `r`. -/
def Components.Names (S : Components Γ) (k : Nat → Nat) (t r : Term) : Prop :=
  ∀ i < (reElems r).length, S.skolem (k i) = some (t, r, i)

/-- For every interpretation there is one of the components under which all conclusions of
`re_unfold_pos` follow from their premises.  The other rules need no choice: the negative
unfoldings follow from their premises in every interpretation, words have the computed fixed
length, and the rewrites conclude valid equalities. -/
theorem reUnfold_sound (Γ : Nat → Ty) (S : Components Γ) (I : Interp Γ) :
    (∃ f : ∀ n, Dom I.U (Γ n), (∀ n, S.skolem n = none → f n = I.const n) ∧
      ∀ k t r G, S.Names k t (unfoldedConcat r) → mkReUnfoldPos k t r = some G →
        Sat (I.withConst f) (bop .strInRe t r) → Sat (I.withConst f) G) ∧
    (∀ s r Q, mkReUnfoldNeg s r = some Q → Sat I (uop .not (bop .strInRe s r)) → Q.Holds I) ∧
    (∀ s r rev G, reUnfoldNegConcatFixed s r rev = some G →
      Sat I (uop .not (bop .strInRe s r)) → Sat I G) ∧
    (∀ r n L, strFixedLenRe r = some n → ReVal I r L → ∀ w ∈ L, (w.length : Int) = n) ∧
    (∀ l u r G, typeof Γ r = some .reglan → reLoopElim l u r = some G → Sat I G) ∧
    (∀ s r G, typeof Γ s = some (.seq .char) → typeof Γ r = some .reglan →
      strInReSigma s r = some G → Sat I G) ∧
    (∀ s r G, typeof Γ s = some (.seq .char) → typeof Γ r = some .reglan →
      strInReSigmaStar s r = some G → Sat I G) ∧
    (∀ s t r G, typeof Γ (bop .strConcat s t) = some (.seq .char) →
      typeof Γ r = some .reglan → strInReConcatStarChar s t r = some G → Sat I G) := by
  refine ⟨?_, ?_, ?_, ?_, ?_, ?_, ?_, ?_⟩
  · obtain ⟨f, hother, hcomp⟩ := S.exists_const I
    refine ⟨f, hother, fun k t r G hk h hprem => sat_mkReUnfoldPos ?_ hprem h⟩
    exact fun j hj => hcomp _ _ _ _ (hk j hj)
  · exact fun s r Q h hprem => holds_mkReUnfoldNeg hprem h
  · exact fun s r rev G h hprem => sat_reUnfoldNegConcatFixed hprem h
  · exact fun r n L h hr => length_of_strFixedLenRe h hr
  · intro l u r G hr h
    obtain ⟨L, hL⟩ := reVal_of_typeof (I := I) hr
    exact sat_reLoopElim hL h
  · intro s r G hs hr h
    obtain ⟨x, hx⟩ := strVal_of_typeof (I := I) hs
    obtain ⟨L, hL⟩ := reVal_of_typeof (I := I) hr
    exact sat_strInReSigma hx hL h
  · intro s r G hs hr h
    obtain ⟨x, hx⟩ := strVal_of_typeof (I := I) hs
    obtain ⟨L, hL⟩ := reVal_of_typeof (I := I) hr
    exact sat_strInReSigmaStar hx hL h
  intro s t r G hs hr h
  obtain ⟨x, hx⟩ := strVal_of_typeof (I := I) hs
  obtain ⟨L, hL⟩ := reVal_of_typeof (I := I) hr
  exact sat_strInReConcatStarChar hx hL h

/-- The three components of a string along an unfolded `(re.* re.allchar)`. -/
def sigmaComponents : Components fun _ => .seq .char where
  skolem := fun n =>
    if 1 ≤ n ∧ n ≤ 3 then some (.const 0, unfoldedConcat reSigmaStar, n - 1) else none
  type_eq := fun _ => rfl
  older := by
    intro n t r i h
    split at h
    · rename_i hn
      cases h
      constructor
      · intro m hm
        rw [List.mem_singleton.1 hm]
        exact hn.1
      · intro m hm
        exact absurd hm List.not_mem_nil
    · contradiction

/-- Unfolding the membership of a string constant in `(re.* re.allchar)`. -/
theorem reUnfold_sound_sigmaStar (I : Interp fun _ => .seq .char) :
    ∃ f : ∀ _, Dom I.U (.seq .char), f 0 = I.const 0 ∧
      ∀ G, mkReUnfoldPos (· + 1) (.const 0) reSigmaStar = some G →
        Sat (I.withConst f) (bop .strInRe (.const 0) reSigmaStar) → Sat (I.withConst f) G := by
  obtain ⟨f, hother, hpos⟩ := (reUnfold_sound _ sigmaComponents I).1
  refine ⟨f, hother 0 rfl, fun G h hprem => hpos _ _ _ G ?_ h hprem⟩
  intro i hi
  have hi : i < 3 := hi
  show (if 1 ≤ i + 1 ∧ i + 1 ≤ 3 then _ else none) = _
  rw [if_pos ⟨by omega, by omega⟩, Nat.add_sub_cancel]

end EthosCpc
