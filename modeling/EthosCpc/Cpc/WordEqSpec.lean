import EthosCpc.Cpc.WordEq
import EthosCpc.Cpc.OverlapSpec
import EthosCpc.Semantics.SeqOps

/-!
# Soundness of the rules on word equations

Both directions of a rule are one argument about words in the direction of
reading, `dirWord`.  The conclusion of most rules says that a component is
the other one followed by a rest, and `sat_eq_split` reduces it to that.

`concat_cprop` asks how far a literal can overlap the component behind the
first one.  A character and an empty literal are distinct, but they can
begin the same string, so the rule is wrong when the computation of the
overlap compares the two.
-/

namespace EthosCpc

open Term (bop uop)
open Library
open Option (some.inj)
open List (length_drop mem_cons mem_cons_of_mem mem_cons_self not_mem_nil)

variable {Γ : Nat → Ty} {I : Interp Γ} {T : Ty} {a b c k s t u n : Term} {rev : Bool}

/-! ## Parts of a sequence -/

section Parts

variable {l : List (Dom I.U T)} {m : Int}

lemma seqVal_strPrefix (ht : SeqVal I T t l) (hn : IntVal I n m) :
    SeqVal I T (strPrefix t n) (l.take m.toNat) := by
  have h := seqVal_substr (p := .num 0) (n := 0) ht rfl hn
  rw [Words.substr_zero] at h
  exact h

lemma seqVal_strSuffixRem (ht : SeqVal I T t l) (hn : IntVal I n m) (hm : 0 ≤ m) :
    SeqVal I T (strSuffixRem t n) (l.drop m.toNat) := by
  have h := seqVal_substr ht hn (intVal_minus (intVal_strLen ht) hn)
  rw [Words.substr_rest _ hm] at h
  exact h

lemma seqVal_strPrefixRem (ht : SeqVal I T t l) (hn : IntVal I n m) :
    SeqVal I T (strPrefixRem t n) (l.take (l.length - m).toNat) :=
  seqVal_strPrefix ht (intVal_minus (intVal_strLen ht) hn)

lemma seqVal_strSuffix (ht : SeqVal I T t l) (hn : IntVal I n m) (hm : m ≤ l.length) :
    SeqVal I T (strSuffix t n) (l.drop (l.length - m).toNat) := by
  have h := seqVal_strSuffixRem ht (intVal_minus (intVal_strLen ht) hn) (by omega)
  have heq : (l.length : Int) - (l.length - m) = m := by omega
  have hsub := seqVal_substr ht (intVal_minus (intVal_strLen ht) hn) hn
  have hrest := Words.substr_rest l (n := (l.length : Int) - m) (by omega)
  rw [heq] at hrest
  rw [← hrest]
  exact hsub

end Parts

lemma seqVal_purify {l : List (Dom I.U T)} (ht : SeqVal I T t l) :
    SeqVal I T (uop .purify t) l := by
  unfold SeqVal
  rw [value_uop I rfl, show value I t = _ from ht]
  rfl

lemma seqVal_ite {p : Prop} [Decidable p] {l l' : List (Dom I.U T)} (hc : BoolVal I c p)
    (ha : SeqVal I T a l) (hb : SeqVal I T b l') :
    SeqVal I T (.app (bop .ite c a) b) (if p then l else l') := value_ite hc ha hb

/-! ## Parts in the direction of reading -/

section Directions

variable {x y z : List (Dom I.U T)}

variable (rev) in
lemma exists_rest (ht : SeqVal I T t x) {m : Nat} (hn : IntVal I n m) : ∃ z, SeqVal I T
      (if rev then strPrefix t (bop .minus (uop .strLen t) n) else strSuffixRem t n) z ∧
      dirWord rev z = (dirWord rev x).drop m := by
  cases rev with
  | false =>
    refine ⟨x.drop m, ?_, rfl⟩
    exact seqVal_strSuffixRem ht hn (Int.natCast_nonneg m)
  | true =>
    refine ⟨_, seqVal_strPrefix ht (intVal_minus (intVal_strLen ht) hn), ?_⟩
    rw [dirWord, if_pos rfl, dirWord, if_pos rfl, List.drop_reverse]
    congr 2
    omega

lemma seqVal_strConcatDir (ha : SeqVal I T a x) (hb : SeqVal I T b y)
    (h : strConcatDir Γ rev a b = some u) : SeqVal I T u (dirOp (· ++ ·) rev x y) := by
  cases rev with
  | false =>
    obtain ⟨nil, hnil, rfl⟩ := map_inv h
    obtain rfl := nilFor_strConcat ha hnil
    exact seqVal_concat.2 ⟨x, y, ha, seqVal_concat.2
      ⟨y, [], hb, seqVal_seqNil.2 rfl, (List.append_nil y).symm⟩, rfl⟩
  | true =>
    obtain ⟨nil, hnil, rfl⟩ := map_inv h
    obtain rfl := nilFor_strConcat hb hnil
    exact seqVal_concat.2 ⟨y, x, hb, seqVal_concat.2
      ⟨x, [], ha, seqVal_seqNil.2 rfl, (List.append_nil x).symm⟩, rfl⟩

/-- A component that is another one followed by a rest. -/
lemma sat_eq_split (hu : SeqVal I T u x) (ha : SeqVal I T a y) (hk : SeqVal I T k z)
    (h : strConcatDir Γ rev a k = some c) :
    Sat I (bop .eq u c) ↔ dirWord rev x = dirWord rev y ++ dirWord rev z := by
  rw [(boolVal_seqEq hu (seqVal_strConcatDir ha hk h)).sat, eq_dirOp_iff]

lemma dirReads_of_strToNaryForm (ht : SeqVal I T t x)
    (h : strToNaryForm Γ t rev = some u) {nil : Term} {xs : List Term}
    (hnil : nilFor Γ .strConcat u = some nil)
    (hxs : getNAryChildren (.sym .strConcat) nil u = some xs) :
    DirReads I T rev xs (dirWord rev x) := by
  have hreads := strReads_strToNaryForm ht h
  obtain ⟨y, hy⟩ := exists_seqVal_of_strReads hreads
  obtain rfl := nilFor_strConcat hy hnil
  rw [eq_of_getNAryChildren hxs] at hreads
  exact dirReads_of_strReads hreads

lemma strListNth_spec {i : Int} (h : strListNth Γ u i = some a) :
    ∃ nil xs, nilFor Γ .strConcat u = some nil ∧
      getNAryChildren (.sym .strConcat) nil u = some xs ∧ xs[i.toNat]? = some a := by
  obtain ⟨nil, hnil, h⟩ := bind_inv h
  obtain ⟨xs, _, hxs, ha⟩ := eoListNth_spec h
  exact ⟨nil, xs, hnil, hxs, ha⟩

lemma strFirst_spec (ht : SeqVal I T t x) (h : strFirst Γ t rev = some a) :
    ∃ y, SeqVal I T a y ∧ dirWord rev y <+: dirWord rev x := by
  obtain ⟨u, hu, h⟩ := bind_inv h
  obtain ⟨nil, xs, hnil, hxs, ha⟩ := strListNth_spec h
  have hreads := dirReads_of_strToNaryForm ht hu hnil hxs
  rw [show Int.toNat 0 = 0 from rfl] at ha
  cases xs with
  | nil => cases ha
  | cons p xs =>
    cases ha
    obtain ⟨v, w, ⟨y, hy, rfl⟩, -, hx⟩ := hreads
    rw [hx]
    exact ⟨y, hy, List.prefix_append _ _⟩

end Directions

lemma exists_seqVal_of_strToNaryForm {v : Val I.U} (ht : value I t = some v)
    (h : strToNaryForm Γ t rev = some u) : ∃ T l, v = Val.seq T l := by
  obtain ⟨w, hw, _⟩ := bind_inv h
  unfold strNaryIntro at hw
  split at hw
  · rename_i hb
    obtain ⟨p, q, rfl⟩ := isBop_inv hb
    obtain ⟨v1, v2, _, _, hval⟩ := value_bop_inv I rfl ht
    obtain ⟨S, x, y, -, rfl⟩ := vSeq2_inv hval
    exact ⟨S, _, rfl⟩
  obtain ⟨nil, hnil, _⟩ := map_inv hw
  obtain ⟨S, hS, hseq⟩ := bind_inv hnil
  obtain ⟨x, hx⟩ := value_of_typeof I hS
  cases some.inj (ht.symm.trans hx)
  cases S with
  | seq T => exact ⟨T, x, rfl⟩
  | _ => cases hseq

lemma seqVal_of_premise (h : Sat I (bop .eq t s)) (hu : strToNaryForm Γ t rev = some u) :
    ∃ T l, SeqVal I T t l ∧ SeqVal I T s l := by
  obtain ⟨v, ht, hs⟩ := sat_eq.1 h
  obtain ⟨T, l, rfl⟩ := exists_seqVal_of_strToNaryForm ht hu
  exact ⟨T, l, ht, hs⟩

/-! ## The rules -/

lemma strReads_strStripPrefix {l : List (Dom I.U T)} (hs : StrReads I T rev s l)
    (ht : StrReads I T rev t l) :
    ∃ x, StrReads I T rev (strStripPrefix s t).1 x ∧ StrReads I T rev (strStripPrefix s t).2 x := by
  induction s using listInduction .strConcat generalizing t l with
  | base s hb =>
    rw [strStripPrefix]
    · exact ⟨l, hs, ht⟩
    · rintro p q p' q' rfl
      simp [Term.isBop] at hb
  | step a s ih =>
    cases hb : t.isBop .strConcat with
    | false =>
      rw [strStripPrefix]
      · exact ⟨l, hs, ht⟩
      · rintro p q p' q' - rfl
        simp [Term.isBop] at hb
    | true =>
      obtain ⟨b, t, rfl⟩ := isBop_inv hb
      rw [strStripPrefix]
      split
      swap
      · exact ⟨l, hs, ht⟩
      rename_i hab
      subst hab
      obtain ⟨x, y, hx, hy, rfl⟩ := strReads_bop.1 hs
      obtain ⟨x', y', hx', hy', heq⟩ := strReads_bop.1 ht
      obtain rfl := hx.unique hx'
      have hyy : y = y' := by
        cases rev with
        | false => exact List.append_cancel_left heq
        | true => exact List.append_cancel_right heq
      subst hyy
      exact ih hy hy'

variable {G : Term}

lemma sat_concatEq (hp : Sat I (bop .eq s t)) (h : concatEq Γ s t rev = some G) : Sat I G := by
  obtain ⟨sn, hsn, h⟩ := bind_inv h
  obtain ⟨tn, htn, h⟩ := bind_inv h
  obtain ⟨a, ha, h⟩ := bind_inv h
  obtain ⟨b, hb, rfl⟩ := map_inv h
  obtain ⟨T, l, hs, ht⟩ := seqVal_of_premise hp hsn
  obtain ⟨x, hx, hx'⟩ := strReads_strStripPrefix (strReads_strToNaryForm hs hsn)
    (strReads_strToNaryForm ht htn)
  exact (boolVal_seqEq (seqVal_strFromNaryForm hx ha) (seqVal_strFromNaryForm hx' hb)).sat.2 rfl

lemma strFirst_pair (hp : Sat I (bop .eq t s)) (ha : strFirst Γ t rev = some a)
    (hb : strFirst Γ s rev = some b) :
    ∃ T x y w, SeqVal I T a x ∧ SeqVal I T b y ∧ dirWord rev x <+: w ∧ dirWord rev y <+: w := by
  obtain ⟨tn, htn, _⟩ := bind_inv ha
  obtain ⟨T, l, ht, hs⟩ := seqVal_of_premise hp htn
  obtain ⟨x, hx, hxl⟩ := strFirst_spec ht ha
  obtain ⟨y, hy, hyl⟩ := strFirst_spec hs hb
  exact ⟨T, x, y, dirWord rev l, hx, hy, hxl, hyl⟩

lemma sat_concatUnify {s1 t1 : Term} (hp : Sat I (bop .eq s t))
    (hlen : Sat I (bop .eq (uop .strLen s1) (uop .strLen t1)))
    (h : concatUnify Γ s t s1 t1 rev = some G) : Sat I G := by
  obtain ⟨a, ha, h⟩ := bind_inv h
  obtain ⟨b, hb, h⟩ := bind_inv h
  obtain ⟨h1, h'⟩ := eoRequires_eq_some.1 h
  obtain ⟨h2, h''⟩ := eoRequires_eq_some.1 h'
  cases h''
  cases of_decide_eq_true h1
  cases of_decide_eq_true h2
  obtain ⟨T, x, y, w, hx, hy, hxw, hyw⟩ := strFirst_pair hp ha hb
  have hxy := (boolVal_intEq (intVal_strLen hx) (intVal_strLen hy)).sat.1 hlen
  have hle : (dirWord rev x).length = (dirWord rev y).length := by
    rw [length_dirWord, length_dirWord]
    omega
  have hpre := List.prefix_of_prefix_length_le hxw hyw hle.le
  exact (boolVal_seqEq hx hy).sat.2 (dirWord_inj.1 (hpre.eq_of_length hle))

/-- The longer one of two first components is the other one followed by a rest. -/
lemma dirWord_eq_append_drop {x y w : List (Dom I.U T)} (hx : dirWord rev x <+: w)
    (hy : dirWord rev y <+: w) (hle : y.length ≤ x.length) :
    dirWord rev x = dirWord rev y ++ (dirWord rev x).drop y.length := by
  have hpre : dirWord rev y <+: dirWord rev x :=
    List.prefix_of_prefix_length_le hy hx (by rw [length_dirWord, length_dirWord]; exact hle)
  obtain ⟨z, hz⟩ := hpre
  rw [← hz, List.drop_left' length_dirWord]

lemma length_pos_of_lenNeZero {l : List (Dom I.U T)} (hp : Sat I (lenNeZero u))
    (hu : SeqVal I T u l) : 1 ≤ l.length := by
  have hne := (boolVal_not (boolVal_intEq (intVal_strLen hu) (intVal_num.2 rfl))).sat.1 hp
  omega

lemma sat_concatCsplit (hp : Sat I (bop .eq t s)) (hlen : Sat I (lenNeZero u))
    (h : concatCsplit Γ t s u rev = some G) : Sat I G := by
  obtain ⟨a, ha, h⟩ := bind_inv h
  obtain ⟨b, hb, h⟩ := bind_inv h
  obtain ⟨h1, h'⟩ := eoRequires_eq_some.1 h
  obtain ⟨h2, h''⟩ := eoRequires_eq_some.1 h'
  obtain ⟨c, hc, rfl⟩ := map_inv h''
  cases of_decide_eq_true h1
  obtain ⟨T, x, y, w, hx, hy, hxw, hyw⟩ := strFirst_pair hp ha hb
  have hpos := length_pos_of_lenNeZero hlen hx
  -- the component of the other string is one character
  have hone : y.length = 1 := by
    cases b with
    | str l =>
      obtain rfl := seqVal_str hy
      rw [strVal_str.1 hy]
      exact of_decide_eq_true h2
    | _ => cases h2
  obtain ⟨z, hz, hzw⟩ := exists_rest rev hx (m := 1) (n := .num 1) (intVal_num.2 rfl)
  rw [sat_eq_split hx hy (seqVal_purify hz) hc, hzw, ← hone]
  exact dirWord_eq_append_drop hxw hyw (by omega)

variable (rev) in
lemma seqVal_strUnifySplit {x y : List (Dom I.U T)} (ht : SeqVal I T t x) (hs : SeqVal I T s y) :
    ∃ z, SeqVal I T (strUnifySplit t s rev) z ∧
      dirWord rev z = if x.length ≥ y.length then (dirWord rev x).drop y.length
        else (dirWord rev y).drop x.length := by
  obtain ⟨z1, hz1, hd1⟩ := exists_rest rev ht (intVal_strLen hs)
  obtain ⟨z2, hz2, hd2⟩ := exists_rest rev hs (intVal_strLen ht)
  have hc := (boolVal_intGeq (intVal_strLen ht) (intVal_strLen hs)).congr
    (q := x.length ≥ y.length) (by omega)
  refine ⟨_, seqVal_ite hc hz1 hz2, ?_⟩
  split
  · exact hd1
  · exact hd2

lemma sat_rest_nonempty {z : List (Dom I.U T)} {nil : Term} (hk : SeqVal I T k z)
    (hnil : strNil Γ k = some nil) (hz : 0 < z.length) :
    Sat I (uop .not (bop .eq k nil)) ∧ Sat I (bop .gt (uop .strLen k) (.num 0)) := by
  obtain rfl := seqEmpty_typeof hk hnil
  constructor
  · refine (boolVal_not (boolVal_seqEq hk (seqVal_seqNil.2 rfl))).sat.2 ?_
    rintro rfl
    exact absurd hz (Nat.lt_irrefl 0)
  · rw [(boolVal_intGt (intVal_strLen hk) (intVal_num.2 rfl)).sat]
    omega

lemma sat_concatSplit {tc sc : Term} (hp : Sat I (bop .eq t s))
    (hlen : Sat I (uop .not (bop .eq (uop .strLen tc) (uop .strLen sc))))
    (h : concatSplit Γ t s tc sc rev = some G) : Sat I G := by
  obtain ⟨t1, ha, h⟩ := bind_inv h
  obtain ⟨s1, hb, h⟩ := bind_inv h
  obtain ⟨h1, h'⟩ := eoRequires_eq_some.1 h
  obtain ⟨h2, h''⟩ := eoRequires_eq_some.1 h'
  obtain ⟨c, hc, h''⟩ := bind_inv h''
  obtain ⟨d, hd, h''⟩ := bind_inv h''
  obtain ⟨nil, hnil, rfl⟩ := map_inv h''
  cases of_decide_eq_true h1
  cases of_decide_eq_true h2
  obtain ⟨T, x, y, w, hx, hy, hxw, hyw⟩ := strFirst_pair hp ha hb
  have hne := (boolVal_not (boolVal_intEq (intVal_strLen hx) (intVal_strLen hy))).sat.1 hlen
  obtain ⟨z, hz, hzw⟩ := seqVal_strUnifySplit rev hx hy
  have hk := seqVal_purify hz
  have heq : dirWord rev x = dirWord rev y ++ dirWord rev z ∨
      dirWord rev y = dirWord rev x ++ dirWord rev z := by
    rw [hzw]
    split
    · rename_i hle
      exact .inl (dirWord_eq_append_drop hxw hyw hle)
    · rename_i hgt
      exact .inr (dirWord_eq_append_drop hyw hxw (by omega))
  have hpos : 0 < z.length := by
    have hlz := congrArg List.length hzw
    rw [length_dirWord] at hlz
    rw [hlz]
    split
    · rw [length_drop, length_dirWord]
      omega
    · rw [length_drop, length_dirWord]
      omega
  obtain ⟨hnonempty, hgt⟩ := sat_rest_nonempty hk hnil hpos
  have hor := boolVal_or (boolVal_seqEq hx (seqVal_strConcatDir hy hk hc))
    (boolVal_or (boolVal_seqEq hy (seqVal_strConcatDir hx hk hd)) (boolVal_bool false))
  rw [sat_mkAnd]
  intro F hF
  simp only [mem_cons, not_mem_nil, or_false] at hF
  rcases hF with rfl | rfl | rfl
  · rw [hor.sat, eq_dirOp_iff, eq_dirOp_iff]
    rcases heq with heq | heq
    · exact .inl heq
    · exact .inr (.inl heq)
  · exact hnonempty
  · exact hgt

lemma sat_concatLprop {tc sc : Term} (hp : Sat I (bop .eq t s))
    (hlen : Sat I (bop .gt (uop .strLen tc) (uop .strLen sc)))
    (h : concatLprop Γ t s tc sc rev = some G) : Sat I G := by
  obtain ⟨t1, ha, h⟩ := bind_inv h
  obtain ⟨s1, hb, h⟩ := bind_inv h
  obtain ⟨h1, h'⟩ := eoRequires_eq_some.1 h
  obtain ⟨h2, h''⟩ := eoRequires_eq_some.1 h'
  obtain ⟨c, hc, h''⟩ := bind_inv h''
  obtain ⟨nil, hnil, rfl⟩ := map_inv h''
  cases of_decide_eq_true h1
  cases of_decide_eq_true h2
  obtain ⟨T, x, y, w, hx, hy, hxw, hyw⟩ := strFirst_pair hp ha hb
  have hlt := (boolVal_intGt (intVal_strLen hx) (intVal_strLen hy)).sat.1 hlen
  obtain ⟨z, hz, hzw⟩ := seqVal_strUnifySplit rev hx hy
  have hk := seqVal_purify hz
  rw [if_pos (by omega)] at hzw
  have hpos : 0 < z.length := by
    have hlz := congrArg List.length hzw
    rw [length_dirWord, length_drop, length_dirWord] at hlz
    omega
  obtain ⟨hnonempty, hgt⟩ := sat_rest_nonempty hk hnil hpos
  rw [sat_mkAnd]
  intro F hF
  simp only [mem_cons, not_mem_nil, or_false] at hF
  rcases hF with rfl | rfl | rfl
  · rw [sat_eq_split hx hy hk hc, hzw]
    exact dirWord_eq_append_drop hxw hyw (by omega)
  · exact hnonempty
  · exact hgt

/-! ## Overlaps with a literal -/

variable {w : Str}

lemma areDistinctTerms_str (h : areDistinctTerms Γ (.str w) t = some true) :
    ∃ v, t = .str v ∧ v ≠ w := by
  unfold areDistinctTerms at h
  rw [show (Term.str w).size = 1 from rfl, Nat.add_comm, areDistinctTermsRec] at h
  split at h
  · cases h
  rename_i hne
  have hstr : isStr t = true := some.inj h
  cases t with
  | str v => exact ⟨v, rfl, fun heq => hne (by rw [heq])⟩
  | _ => cases hstr

lemma dirVal_char {d : CodePoint} : DirVal I .char rev (.str [d]) w ↔ w = [d] := by
  have hdir : dirWord rev [d] = [d] := by
    cases rev <;> rfl
  constructor
  · rintro ⟨x, hx, rfl⟩
    have hx' : x = [d] := strVal_str.1 hx
    rw [hx']
    exact hdir
  · rintro rfl
    exact ⟨[d], strVal_str.2 rfl, hdir.symm⟩

lemma dirReads_strChars (w : Str) : DirReads I .char rev (strChars w) w := by
  induction w with
  | nil => rfl
  | cons d w ih => exact ⟨[d], w, dirVal_char.2 rfl, ih, rfl⟩

/-- The pairs of components that can be told apart: the second one is not an empty literal. -/
def NotEmptyRight (_ c2 : Term) : Prop := strIsEmpty c2 = false

/-- A character and a component of a flat form that are reported distinct cannot begin the same
string, unless the component is the empty literal. -/
lemma apart_of_areDistinctTerms {d : CodePoint} {p : Term} (hp : p ∈ flatElems t)
    (h : areDistinctTerms Γ (.str [d]) p = some true) (hne : NotEmptyRight (.str [d]) p) :
    Apart I .char rev (.str [d]) p := by
  obtain ⟨v, rfl, hv⟩ := areDistinctTerms_str h
  have hlen := length_of_mem_flatElems hp
  rcases v with _ | ⟨e, _ | ⟨e', v⟩⟩
  · cases hne
  · intro w1 w2 h1 h2
    rw [dirVal_char.1 h1, dirVal_char.1 h2]
    refine not_comparable_singleton fun hde => hv ?_
    rw [hde]
  · simp at hlen

lemma noOverlap_of_strOverlap {m : Nat} {x : Str} (ht : StrVal I t x)
    (h : strOverlap Γ (.str w) t rev = some m)
    (hcmp : ∀ u ∈ strToFlatForm Γ (.str w) rev, ∀ v ∈ strToFlatForm Γ t rev,
      OverlapCompares Γ NotEmptyRight u v) :
    m ≤ w.length ∧ NoOverlap (dirWord rev w) (dirWord rev x) m := by
  obtain ⟨u, hu, h⟩ := bind_inv h
  obtain ⟨v, hv, h⟩ := bind_inv h
  have hcmp := hcmp u hu v hv
  obtain rfl := strToFlatForm_str I hu
  obtain ⟨v', zs, -, -, rfl, hreads⟩ := strToFlatForm_spec (I := I) (T := .char) ht hv
  have hlen : (dirWord rev w).length = w.length := length_dirWord
  rw [← hlen]
  refine noOverlap_of_strOverlapRec NotEmptyRight ?_ ?_ h hcmp (dirReads_strChars _) hreads
  · intro c1 h1 c2 h2 hdist hne
    obtain ⟨d, -, rfl⟩ := List.mem_map.1 h1
    obtain ⟨z, _, hz⟩ := List.mem_flatMap.1 (mem_dirWord.1 h2)
    exact apart_of_areDistinctTerms hz hdist hne
  intro c1 h1 p hp
  obtain ⟨d, -, rfl⟩ := List.mem_map.1 h1
  rw [dirVal_char.1 hp]
  rfl

/-! ## Propagation of constants -/

variable (rev) in
/-- The letters a rule takes from the beginning, or the end, of `t`. -/
lemma exists_front {x : List (Dom I.U T)} (ht : SeqVal I T t x) {m : Nat} (hn : IntVal I n m)
    (hm : m ≤ x.length ∨ x.length = 0) :
    ∃ o, SeqVal I T (if rev then strSuffix t n else strPrefix t n) o ∧
      dirWord rev o = (dirWord rev x).take m := by
  cases rev with
  | false => exact ⟨x.take m, seqVal_strPrefix ht hn, rfl⟩
  | true =>
    by_cases hle : m ≤ x.length
    · refine ⟨_, seqVal_strSuffix ht hn (by omega), ?_⟩
      rw [dirWord, if_pos rfl, dirWord, if_pos rfl, List.take_reverse]
      congr 2
      omega
    -- the string is empty
    obtain rfl : x = [] := List.eq_nil_of_length_eq_zero (hm.resolve_left hle)
    refine ⟨[], ?_, by rw [dirWord_nil, List.take_nil]⟩
    have h := seqVal_substr ht (intVal_minus (intVal_strLen ht) hn) hn
    rw [Words.substr_of_neg _ (by rw [List.length_nil] at *; omega)] at h
    exact h

variable (rev) in
lemma dirWord_dropFirst (w : Str) :
    dirWord rev (if rev then eoStrExtract w 0 (w.length - 2) else eoStrExtract w 1 w.length) =
      (dirWord rev w).tail := by
  cases rev with
  | false => exact eoStrExtract_tail w
  | true =>
    rw [if_pos rfl, eoStrExtract_dropLast, dirWord, if_pos rfl, dirWord, if_pos rfl,
      List.tail_reverse]

lemma front_le {m : Nat} (h : m ≤ (if rev then eoStrExtract w 0 (w.length - 2)
      else eoStrExtract w 1 w.length).length) : 1 + m ≤ w.length ∨ w.length = 0 := by
  have htail := congrArg List.length (dirWord_dropFirst rev w)
  rw [length_dirWord, List.length_tail, length_dirWord] at htail
  omega

/-- No comparison that a step by `concat_cprop` makes is with an empty literal. -/
def CpropComparesNonempty (Γ : Nat → Ty) (t s : Term) (rev : Bool) : Prop :=
  ∀ tn ∈ strToNaryForm Γ t rev, ∀ t2 ∈ strListNth Γ tn 1, ∀ s1 ∈ strFirst Γ s rev,
    ∀ s1s ∈ dropFirst s1 rev, ∀ u ∈ strToFlatForm Γ s1s rev, ∀ v ∈ strToFlatForm Γ t2 rev,
      OverlapCompares Γ NotEmptyRight u v

/-- A first component that is not empty begins with the part of the literal that the component
behind it does not overlap. -/
lemma take_prefix_of_overlap {w v : Str} {x1 x2 rest : Str} {m : Nat}
    (hw : dirWord rev w <+: dirWord rev x1 ++ (dirWord rev x2 ++ rest)) (hx1 : x1 ≠ [])
    (htail : dirWord rev v = (dirWord rev w).tail)
    (hno : m ≤ v.length ∧ NoOverlap (dirWord rev v) (dirWord rev x2) m) :
    (dirWord rev w).take (1 + m) <+: dirWord rev x1 := by
  have hlen : m ≤ (dirWord rev v).length := by
    rw [length_dirWord]
    exact hno.1
  rw [Nat.add_comm]
  cases hcase : dirWord rev w with
  | nil =>
    rw [List.take_nil]
    exact List.nil_prefix
  | cons d q =>
    rw [hcase, List.tail_cons] at htail
    rw [hcase] at hw
    rw [htail] at hno hlen
    refine take_prefix_of_noOverlap (t := dirWord rev x2) ?_ hw ?_ hlen hno.2
    · rw [← List.append_assoc]
      exact List.prefix_append _ rest
    · intro hnil
      exact hx1 (dirWord_inj.1 (hnil.trans dirWord_nil.symm))

lemma sat_concatCprop {tc : Term} (hp : Sat I (bop .eq t s)) (hlen : Sat I (lenNeZero tc))
    (hcmp : CpropComparesNonempty Γ t s rev) (h : concatCprop Γ t tc s rev = some G) :
    Sat I G := by
  obtain ⟨tn, htn, h⟩ := bind_inv h
  obtain ⟨t1, ht1, h⟩ := bind_inv h
  obtain ⟨t2, ht2, h⟩ := bind_inv h
  obtain ⟨s1, hs1, h⟩ := bind_inv h
  obtain ⟨s1s, hs1s, h⟩ := bind_inv h
  obtain ⟨m, hm, h⟩ := bind_inv h
  obtain ⟨h1, h'⟩ := eoRequires_eq_some.1 h
  obtain ⟨c, hc, rfl⟩ := map_inv h'
  cases of_decide_eq_true h1
  have hcmp := hcmp tn htn t2 ht2 s1 hs1 s1s hs1s
  obtain ⟨T, l, ht, hs⟩ := seqVal_of_premise hp htn
  -- the literal
  obtain ⟨y, hy, hyl⟩ := strFirst_spec hs hs1
  cases s1 with
  | str w =>
    cases hs1s
    obtain rfl := seqVal_str hy
    obtain rfl : y = w := strVal_str.1 hy
    -- the first two components of the other string
    obtain ⟨nil, xs, hnil, hxs, hhead⟩ := strListNth_spec ht1
    obtain ⟨nil', xs', hnil', hxs', hsecond⟩ := strListNth_spec ht2
    rw [hnil] at hnil'
    cases hnil'
    rw [hxs] at hxs'
    cases hxs'
    have hreads := dirReads_of_strToNaryForm ht htn hnil hxs
    rcases xs with _ | ⟨p, _ | ⟨q, xs⟩⟩
    · cases hhead
    · cases hsecond
    cases hhead
    cases hsecond
    obtain ⟨_, _, ⟨x1, hx1, rfl⟩, ⟨_, rest, ⟨x2, hx2, rfl⟩, -, rfl⟩, hl⟩ := hreads
    have hno := noOverlap_of_strOverlap hx2 hm hcmp
    have hpos := length_pos_of_lenNeZero hlen hx1
    rw [hl] at hyl
    have hpre := take_prefix_of_overlap hyl (List.ne_nil_of_length_pos hpos)
      (dirWord_dropFirst rev _) hno
    obtain ⟨o, ho, hoy⟩ := exists_front rev hy (m := 1 + m) (n := .num (1 + m))
      (intVal_num.2 (by omega)) (front_le hno.1)
    have hpre : dirWord rev o <+: dirWord rev x1 := by
      rw [hoy]
      exact hpre
    obtain ⟨z, hz, hzw⟩ := exists_rest rev hx1 (intVal_strLen ho)
    rw [sat_eq_split hx1 ho (seqVal_purify hz) hc, hzw]
    have hle := hpre.length_le
    rw [length_dirWord, length_dirWord] at hle
    exact dirWord_eq_append_drop (List.prefix_refl _) hpre hle
  | _ => cases hs1s

/-! ## Decomposition -/

lemma strLen_geq_inv (h : Sat I (bop .geq (uop .strLen s) n)) :
    ∃ T l m, SeqVal I T s l ∧ IntVal I n m ∧ m ≤ l.length := by
  obtain ⟨v, v', hv, hv', h⟩ := value_bop_inv I rfl h
  obtain ⟨T, l, hs, rfl⟩ := (value_seq1 (f := fun _ x => .int x.length) rfl rfl).1 hv
  rcases vRel_inv h with ⟨x, y, heq, hb⟩ | ⟨x, y, heq, -⟩
  · cases heq
    refine ⟨T, l, y, hs, hv', ?_⟩
    exact truth_eq_true.1 (Val.bool_inj.1 hb).symm
  · cases heq

lemma sat_stringDecompose (hn : Sat I (bop .geq n (.num 0)))
    (hlen : Sat I (bop .geq (uop .strLen s) n)) (h : stringDecompose Γ s n rev = some G) :
    Sat I G := by
  obtain ⟨T, l, m, hs, hm, hle⟩ := strLen_geq_inv hlen
  have hnonneg := (boolVal_intGeq hm (intVal_num.2 rfl)).sat.1 hn
  obtain ⟨ps, hps, rfl⟩ := map_inv h
  have hsat : ∀ {p q r : List (Dom I.U T)} {kp ks kr : Term}, SeqVal I T kp p → SeqVal I T ks q →
      SeqVal I T kr r → mkNary Γ .strConcat kp [ks] = some ps → l = p ++ q → r.length = m →
      Sat I (mkAnd [bop .eq s ps, bop .eq (uop .strLen kr) n]) := by
    intro p q r kp ks kr hp hq hr hps hl hrm
    have hcat : SeqVal I T ps (p ++ q) :=
      seqVal_strConcatDir hp hq (show strConcatDir Γ false kp ks = some ps from hps)
    rw [sat_mkAnd]
    intro F hF
    simp only [mem_cons, not_mem_nil, or_false] at hF
    rcases hF with rfl | rfl
    · exact (boolVal_seqEq hs hcat).sat.2 hl
    · exact (boolVal_intEq (intVal_strLen hr) hm).sat.2 hrm
  cases rev with
  | false =>
    have hp := seqVal_purify (seqVal_strPrefix hs hm)
    have hq := seqVal_purify (seqVal_strSuffixRem hs hm hnonneg)
    refine hsat hp hq hp hps (List.take_append_drop _ l).symm ?_
    rw [List.length_take]
    omega
  | true =>
    have hp := seqVal_purify (seqVal_strPrefixRem hs hm)
    have hq := seqVal_purify (seqVal_strSuffix hs hm hle)
    refine hsat hp hq hq hps (List.take_append_drop _ l).symm ?_
    rw [length_drop]
    omega

/-! ## All rules -/

/-- The steps that do not meet an empty literal where they compute an overlap. -/
def WordEqStep.OverlapsNonempty (Γ : Nat → Ty) : WordEqStep → Prop
  | .concatCprop t _ s rev => CpropComparesNonempty Γ t s rev
  | _ => True

/-- The conclusion of a step is true in every interpretation that satisfies its premises, where
no overlap was computed with an empty literal. -/
theorem wordEq_sound (Γ : Nat → Ty) (step : WordEqStep) (hstep : step.OverlapsNonempty Γ)
    (I : Interp Γ) (hprem : ∀ F ∈ step.premises, Sat I F) (G : Term)
    (hconcl : step.conclusion Γ = some G) : Sat I G := by
  cases step with
  | concatEq s t rev => exact sat_concatEq (hprem _ (.head _)) hconcl
  | concatUnify s t s1 t1 rev =>
    exact sat_concatUnify (hprem _ (.head _)) (hprem _ (.tail _ (.head _))) hconcl
  | concatCsplit t s u rev =>
    exact sat_concatCsplit (hprem _ (.head _)) (hprem _ (.tail _ (.head _))) hconcl
  | concatSplit t s tc sc rev =>
    exact sat_concatSplit (hprem _ (.head _)) (hprem _ (.tail _ (.head _))) hconcl
  | concatLprop t s tc sc rev =>
    exact sat_concatLprop (hprem _ (.head _)) (hprem _ (.tail _ (.head _))) hconcl
  | concatCprop t tc s rev =>
    exact sat_concatCprop (hprem _ (.head _)) (hprem _ (.tail _ (.head _))) hstep hconcl
  | stringDecompose s n b =>
    exact sat_stringDecompose (hprem _ (.head _)) (hprem _ (.tail _ (.head _))) hconcl

section Examples

/-- The conclusion of `concat_cprop` about the component `x` and the literal `s1`. -/
abbrev cpropConclusion (x s1 : Term) (v : Int) : Term :=
  bop .eq x (bop .strConcat (strPrefix s1 (.num v)) (bop .strConcat
    (uop .purify (strSuffixRem x (uop .strLen (strPrefix s1 (.num v))))) (.str [])))

lemma strVal_append {a b : Term} {x y : Str} (ha : StrVal I a x) (hb : StrVal I b y) :
    StrVal I (bop .strConcat a b) (x ++ y) :=
  strVal_concat.2 ⟨x, y, ha, hb, rfl⟩

lemma sat_lenNeZero_const {c : CodePoint} {x : Str} :
    Sat (constStr (c :: x)) (lenNeZero (.const 0)) := by
  have hx : StrVal (constStr (c :: x)) (.const 0) (c :: x) := rfl
  refine (boolVal_not (boolVal_intEq (intVal_strLen_str hx) (intVal_num.2 rfl))).sat.2 ?_
  rw [List.length_cons]
  omega

/-- From `x ++ "c" = "abc"` the rule `concat_cprop` concludes that `x` begins with `ab`. -/
theorem wordEq_sound_cprop :
    Sat (constStr [97, 98]) (cpropConclusion (.const 0) (.str [97, 98, 99]) 2) := by
  refine wordEq_sound _ (.concatCprop (bop .strConcat (.const 0)
    (bop .strConcat (.str [99]) (.str []))) (.const 0) (.str [97, 98, 99]) false) ?_ _ ?_ _ rfl
  · intro tn htn t2 ht2 s1 hs1 s1s hs1s u hu v hv
    cases some.inj (show some _ = some tn from htn)
    cases some.inj (show some _ = some t2 from ht2)
    cases some.inj (show some _ = some s1 from hs1)
    cases some.inj (show some _ = some s1s from hs1s)
    cases some.inj (show some _ = some u from hu)
    cases some.inj (show some _ = some v from hv)
    exact ⟨rfl, fun _ => ⟨trivial, fun h => absurd h (by decide)⟩⟩
  intro F hF
  simp only [WordEqStep.premises, mem_cons, not_mem_nil, or_false] at hF
  rcases hF with rfl | rfl
  · have hx : StrVal (constStr [97, 98]) (.const 0) [97, 98] := rfl
    have ht := strVal_append hx (strVal_append (strVal_str (s := [99]).2 rfl)
      (strVal_str (s := []).2 rfl))
    exact (boolVal_strEq ht (strVal_str.2 rfl)).sat.2 rfl
  · exact sat_lenNeZero_const

/-- In `x ++ ("" ++ "b") = "ab"` the empty literal hides an overlap: the rule concludes that `x`
begins with `ab`, and the equation holds for the string `a`. -/
theorem concatCprop_unsound : ∃ step : WordEqStep,
      step.conclusion (fun _ => .seq .char) = some (cpropConclusion (.const 0) (.str [97, 98]) 2) ∧
      (∀ F ∈ step.premises, Sat (constStr [97]) F) ∧
      ¬ Sat (constStr [97]) (cpropConclusion (.const 0) (.str [97, 98]) 2) := by
  refine ⟨.concatCprop (bop .strConcat (.const 0) (bop .strConcat
    (bop .strConcat (.str []) (bop .strConcat (.str [98]) (.str []))) (.str [])))
    (.const 0) (.str [97, 98]) false, rfl, ?_, ?_⟩
  · intro F hF
    simp only [WordEqStep.premises, mem_cons, not_mem_nil, or_false] at hF
    rcases hF with rfl | rfl
    · have hx : StrVal (constStr [97]) (.const 0) [97] := rfl
      have hb := strVal_append (I := constStr [97]) (strVal_str (s := [98]).2 rfl)
        (strVal_str (s := []).2 rfl)
      have ht := strVal_append hx (strVal_append
        (strVal_append (strVal_str (s := []).2 rfl) hb) (strVal_str (s := []).2 rfl))
      exact (boolVal_strEq ht (strVal_str.2 rfl)).sat.2 rfl
    · exact sat_lenNeZero_const
  intro hsat
  obtain ⟨v, hx, hv⟩ := sat_eq.1 hsat
  have hv' : StrVal (constStr [97]) _ [97] := hv.trans hx.symm
  obtain ⟨o, z, ho, _, heq⟩ := strVal_concat.1 hv'
  have hfront : StrVal (constStr [97]) (strPrefix (.str [97, 98]) (.num 2)) [97, 98] :=
    seqVal_strPrefix (T := .char) (strVal_str (s := [97, 98]).2 rfl) (intVal_num.2 rfl)
  rw [ho.unique hfront] at heq
  simp at heq

end Examples

end EthosCpc
