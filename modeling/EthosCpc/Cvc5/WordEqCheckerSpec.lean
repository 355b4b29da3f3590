import EthosCpc.Cpc.WordEqSpec
import EthosCpc.Cvc5.ReProofCheckerSpec
import EthosCpc.Cvc5.WordEqChecker

/-!
# The word equation rules of cvc5 and of the signature

On the printed premises of a step that cvc5 accepts, the rule of the signature
yields the printed conclusion of cvc5 exactly when `Agrees` holds.  The sides
of an equation become lists in which the empty literal has no component, where
cvc5 takes it as a component of its own, and the suffix that the reverse
direction of `STRING_DECOMPOSE` purifies is written in different ways.
-/

namespace EthosCpc.Cvc5

open Library
open EthosCpc.Term (bop uop)
open StrNode
open Option (bind_some map_some some.inj)
open List (drop_zero map_cons map_nil mem_cons_self mem_map)

variable {Γ : Nat → Ty}

/-! ## Terms of type `String` -/

/-- A term of type `String`. -/
abbrev IsStr (Γ : Nat → Ty) (t : Term) : Prop := typeof Γ t = some (.seq .char)

lemma isStr_concat {a b : Term} : IsStr Γ (bop .strConcat a b) ↔ IsStr Γ a ∧ IsStr Γ b := by
  constructor
  · intro h
    obtain ⟨A, B, hA, hB, hT⟩ := typeof_bop_inv rfl h
    change tySeq2 [(a, A), (b, B)] = some (.seq .char) at hT
    unfold tySeq2 at hT
    split at hT
    swap
    · cases hT
    rename_i heq
    cases heq
    split at hT
    · rename_i hTT
      cases hT
      exact ⟨hA, by rw [IsStr, hB, hTT]⟩
    · cases hT
  · rintro ⟨ha, hb⟩
    rw [IsStr, typeof_bop Γ rfl, ha, hb]
    rfl

lemma isStr_nil : IsStr Γ (.str []) := rfl

lemma isStr_strList {xs : List Term} : IsStr Γ (strList .char xs) ↔ ∀ x ∈ xs, IsStr Γ x := by
  induction xs with
  | nil =>
    constructor
    · intro _ x hx
      cases hx
    · intro _
      exact isStr_nil
  | cons x xs ih =>
    have hcons : strList .char (x :: xs) = bop .strConcat x (strList .char xs) := rfl
    rw [hcons, isStr_concat, ih, List.forall_mem_cons]

lemma nilFor_of_isStr {t : Term} (h : IsStr Γ t) : nilFor Γ .strConcat t = some (.str []) := by
  change (typeof Γ t).bind (eoNil .strConcat) = some (.str [])
  rw [h]
  rfl

lemma strNil_of_isStr {t : Term} (h : IsStr Γ t) : strNil Γ t = some (.str []) := by
  rw [strNil, h]
  rfl

lemma isStr_substr {s n m : Term} (hs : IsStr Γ s) (hn : typeof Γ n = some .int)
    (hm : typeof Γ m = some .int) : IsStr Γ (mkSubstr s n m) := by
  rw [IsStr, typeof_top Γ rfl, hs, hn, hm]
  rfl

lemma typeof_strLen {s : Term} (hs : IsStr Γ s) : typeof Γ (uop .strLen s) = some .int := by
  rw [typeof_uop Γ rfl, hs]
  rfl

lemma typeof_minus {a b : Term} (ha : typeof Γ a = some .int) (hb : typeof Γ b = some .int) :
    typeof Γ (bop .minus a b) = some .int := by
  rw [typeof_bop Γ rfl, ha, hb]
  rfl

lemma isStr_purify {t : Term} (h : IsStr Γ t) : IsStr Γ (uop .purify t) := by
  rw [IsStr, typeof_uop Γ rfl, h]
  rfl

lemma isStr_strPrefix {s n : Term} (hs : IsStr Γ s) (hn : typeof Γ n = some .int) :
    IsStr Γ (strPrefix s n) := isStr_substr hs rfl hn

lemma isStr_strSuffixRem {s n : Term} (hs : IsStr Γ s) (hn : typeof Γ n = some .int) :
    IsStr Γ (strSuffixRem s n) := isStr_substr hs hn (typeof_minus (typeof_strLen hs) hn)

lemma isStr_strUnifySplit {t s : Term} (rev : Bool) (ht : IsStr Γ t) (hs : IsStr Γ s) :
    IsStr Γ (strUnifySplit t s rev) := by
  have hlt := typeof_strLen ht
  have hls := typeof_strLen hs
  have hcond : typeof Γ (bop .geq (uop .strLen t) (uop .strLen s)) = some .bool := by
    rw [typeof_bop Γ rfl, hlt, hls]
    rfl
  cases rev with
  | false =>
    have h1 := isStr_strSuffixRem ht hls
    have h2 := isStr_strSuffixRem hs hlt
    rw [IsStr, strUnifySplit, typeof_top Γ rfl, hcond]
    simp only [Bool.false_eq_true, if_false, h1, h2]
    rfl
  | true =>
    have h1 := isStr_strPrefix ht (typeof_minus hlt hls)
    have h2 := isStr_strPrefix hs (typeof_minus hls hlt)
    rw [IsStr, strUnifySplit, typeof_top Γ rfl, hcond]
    simp only [if_true, h1, h2]
    rfl

lemma strConcatDir_of_isStr {a b : Term} (rev : Bool) (ha : IsStr Γ a) (hb : IsStr Γ b) :
    strConcatDir Γ rev a b = some (strList .char (if rev then [b, a] else [a, b])) := by
  cases rev with
  | false =>
    rw [strConcatDir, if_neg (by simp), mkNary, nilFor_of_isStr ha]
    rfl
  | true =>
    rw [strConcatDir, if_pos rfl, mkNary, nilFor_of_isStr hb]
    rfl

/-! ## Components -/

/-- The components of a string in the signature: the empty literal has none. -/
def listComponents (t : StrNode) : List StrNode := if t = str [] then [] else getConcat t

lemma component_eq (isRev : Bool) (v : List StrNode) (i : Nat) :
    component isRev v i = (dirWord isRev v)[i]? := by
  cases isRev with
  | false => rfl
  | true =>
    rw [component, if_pos rfl, dirWord, if_pos rfl]
    by_cases hi : i < v.length
    · rw [if_pos hi, List.getElem?_reverse hi]
    · rw [if_neg hi]
      exact (List.getElem?_eq_none (by rw [List.length_reverse]; omega)).symm

lemma isBop_strConcat_print {n : StrNode} (h : n.print.isBop .strConcat = true) :
    ∃ cs, n = mk .strConcat cs := by
  cases n with
  | leaf a => cases a <;> cases h
  | app k cs =>
    rw [print_app, StrKind.print_eq_foldl] at h
    generalize hargs : k.args (cs.map StrNode.print) = args at h
    rcases List.eq_nil_or_concat' args with rfl | ⟨args', b, rfl⟩
    · cases k <;> cases h
    rw [List.foldl_append] at h
    rcases List.eq_nil_or_concat' args' with rfl | ⟨argsB, a, rfl⟩
    · cases k <;> cases h
    rw [List.foldl_append] at h
    rcases List.eq_nil_or_concat' argsB with rfl | ⟨argsC, c, rfl⟩
    · cases k with
      | uf f => cases h
      | sym s =>
        have hs : s = .strConcat := by simpa [StrKind.head, Term.isBop] using h
        exact ⟨cs, by rw [hs]⟩
    · rw [List.foldl_append] at h
      simp [Term.isBop] at h

lemma isBop_print_strConcat (c : StrNode) (cs : List StrNode) :
    (mk .strConcat (c :: cs)).print = strList .char ((c :: cs).map StrNode.print) :=
  print_nary rfl c cs

lemma getConcat_of_not_concat {t : StrNode} (h : ∀ cs, t ≠ mk .strConcat cs) :
    getConcat t = [t] := by
  unfold getConcat
  split
  · rename_i cs
    exact absurd rfl (h cs)
  · rfl

lemma string_cases {t : StrNode} (ht : IsStr Γ t.print) :
    t = str [] ∨ (∃ c cs, t = mk .strConcat (c :: cs)) ∨
      (t ≠ str [] ∧ ∀ cs, t ≠ mk .strConcat cs) := by
  by_cases hnil : t = str []
  · exact .inl hnil
  right
  by_cases hconcat : ∃ cs, t = mk .strConcat cs
  swap
  · exact .inr ⟨hnil, fun cs heq => hconcat ⟨cs, heq⟩⟩
  left
  obtain ⟨cs, rfl⟩ := hconcat
  cases cs with
  | nil => cases ht
  | cons c cs => exact ⟨c, cs, rfl⟩

lemma strNaryIntro_print {t : StrNode} (ht : IsStr Γ t.print) :
    strNaryIntro Γ t.print = some (strList .char ((listComponents t).map StrNode.print)) ∧
      ∀ c ∈ listComponents t, IsStr Γ c.print := by
  rcases string_cases ht with rfl | ⟨c, cs, rfl⟩ | ⟨hnil, hconcat⟩
  · refine ⟨?_, by simp [listComponents]⟩
    rw [strNaryIntro, if_neg (by simp [Term.isBop, StrLeaf.print]), strNil_of_isStr ht]
    rfl
  · rw [listComponents, if_neg (by simp), getConcat]
    rw [isBop_print_strConcat] at ht ⊢
    refine ⟨rfl, fun d hd => ?_⟩
    exact isStr_strList.1 ht d.print (List.mem_map_of_mem hd)
  rw [listComponents, if_neg hnil, getConcat_of_not_concat hconcat]
  have hprint : t.print ≠ .str [] := by
    intro heq
    refine hnil (print_inj ?_)
    rw [heq]
    rfl
  refine ⟨?_, fun d hd => List.mem_singleton.1 hd ▸ ht⟩
  unfold strNaryIntro
  split
  · rename_i hbop
    obtain ⟨cs, hcs⟩ := isBop_strConcat_print hbop
    exact absurd hcs (hconcat cs)
  · rw [strNil_of_isStr ht, map_some, if_neg hprint]
    rfl

lemma strToNaryForm_print {t : StrNode} (ht : IsStr Γ t.print) (rev : Bool) :
    strToNaryForm Γ t.print rev =
      some (strList .char ((dirWord rev (listComponents t)).map StrNode.print)) := by
  obtain ⟨hintro, hcomps⟩ := strNaryIntro_print ht
  rw [strToNaryForm, hintro, bind_some]
  cases rev with
  | false => rfl
  | true =>
    have hlist : IsStr Γ (strList .char ((listComponents t).map StrNode.print)) := by
      refine isStr_strList.2 fun x hx => ?_
      obtain ⟨c, hc, rfl⟩ := mem_map.1 hx
      exact hcomps c hc
    rw [strRev, if_pos rfl, strListRev, nilFor_of_isStr hlist, bind_some, eoListRev]
    rw [show (Term.str []) = seqNil .char from rfl, getNAryChildren_prepend (naryView_seqNil _),
      map_some, dirWord, if_pos rfl, List.map_reverse]

lemma isStr_dirList {t : StrNode} (ht : IsStr Γ t.print) (rev : Bool) :
    IsStr Γ (strList .char ((dirWord rev (listComponents t)).map StrNode.print)) := by
  refine isStr_strList.2 fun x hx => ?_
  obtain ⟨c, hc, rfl⟩ := mem_map.1 hx
  exact (strNaryIntro_print ht).2 c (mem_dirWord.1 hc)

lemma strListNth_print {t : StrNode} (ht : IsStr Γ t.print) (rev : Bool) (i : Nat) :
    strListNth Γ (strList .char ((dirWord rev (listComponents t)).map StrNode.print)) i =
      ((dirWord rev (listComponents t))[i]?).map StrNode.print := by
  rw [strListNth, nilFor_of_isStr (isStr_dirList ht rev), bind_some, eoListNth,
    if_pos (Int.natCast_nonneg i), show (Term.str []) = seqNil .char from rfl,
    getNAryChildren_prepend (naryView_seqNil _), bind_some, Int.toNat_natCast,
    List.getElem?_map]

lemma strFirst_print {t : StrNode} (ht : IsStr Γ t.print) (rev : Bool) :
    strFirst Γ t.print rev = ((dirWord rev (listComponents t))[0]?).map StrNode.print := by
  rw [strFirst, strToNaryForm_print ht, bind_some, strHead]
  exact strListNth_print ht rev 0

lemma strFirst_eq_component {t t0 : StrNode} (ht : IsStr Γ t.print) {rev : Bool}
    (h0 : component rev (getConcat t) 0 = some t0) :
    strFirst Γ t.print rev = if t = str [] then none else some t0.print := by
  rw [strFirst_print ht, listComponents]
  rw [component_eq] at h0
  split
  · cases rev <;> rfl
  · rw [h0, map_some]

lemma isStr_component {t t0 : StrNode} (ht : IsStr Γ t.print) {rev : Bool} {i : Nat}
    (h0 : component rev (getConcat t) i = some t0) : IsStr Γ t0.print := by
  rw [component_eq] at h0
  have hmem := mem_dirWord.1 (List.mem_of_getElem? h0)
  by_cases hnil : t = str []
  swap
  · refine (strNaryIntro_print ht).2 t0 ?_
    rwa [listComponents, if_neg hnil]
  subst hnil
  have h := List.mem_singleton.1 hmem
  rw [h]
  exact ht

/-! ## Printed conclusions -/

@[simp] lemma print_mkLength (a : StrNode) : (mkLength a).print = uop .strLen a.print :=
  print_strLen a

@[simp] lemma print_mkSub (a b : StrNode) : (mkSub a b).print = bop .minus a.print b.print :=
  print_minus a b

@[simp] lemma print_gt (a b : StrNode) : (mk .gt [a, b]).print = bop .gt a.print b.print :=
  print_curried rfl _

@[simp] lemma print_not (a : StrNode) : (mk .not [a]).print = uop .not a.print :=
  print_curried rfl _

lemma print_purify (a : StrNode) : (mk .purify [a]).print = uop .purify a.print :=
  print_curried rfl _

lemma print_unifiedSplit (a b : StrNode) (isRev : Bool) :
    (StringSkolem.unifiedSplit a b isRev).print = strUnifySplit a.print b.print isRev := by
  have hite : ∀ x y z : StrNode, (mk .ite [x, y, z]).print =
      .app (bop .ite x.print y.print) z.print := fun x y z => print_curried rfl _
  have hgeq : ∀ x y : StrNode, (mk .geq [x, y]).print = bop .geq x.print y.print :=
    fun x y => print_curried rfl _
  rw [StringSkolem.unifiedSplit, hite, hgeq]
  cases isRev <;> simp [strUnifySplit]

lemma print_splitSkolem (x y : StrNode) (isRev : Bool) :
    ((if isRev then StringSkolem.idVUnifiedSptRev x y else .idVUnifiedSpt x y).node).print =
      uop .purify (strUnifySplit x.print y.print isRev) := by
  cases isRev with
  | false => exact (print_purify _).trans (congrArg (uop .purify) (print_unifiedSplit x y false))
  | true => exact (print_purify _).trans (congrArg (uop .purify) (print_unifiedSplit x y true))

lemma print_mkConcatDir (isRev : Bool) (a b : StrNode) : (mkConcatDir isRev a b).print =
      strList .char (if isRev then [b.print, a.print] else [a.print, b.print]) := by
  cases isRev with
  | false => exact isBop_print_strConcat a [b]
  | true => exact isBop_print_strConcat b [a]

lemma print_splitConclusion (x y : StrNode) (lprop isRev : Bool) :
    (splitConclusion x y lprop isRev).print =
      let k := uop .purify (strUnifySplit x.print y.print isRev)
      let eq1 := bop .eq x.print (strList .char (if isRev then [k, y.print] else [y.print, k]))
      EthosCpc.mkAnd [if lprop then eq1 else bop .or eq1 (bop .or (bop .eq y.print
          (strList .char (if isRev then [k, x.print] else [x.print, k]))) (.bool false)),
        uop .not (bop .eq k (.str [])), bop .gt (uop .strLen k) (.num 0)] := by
  unfold splitConclusion
  rw [print_mk_and]
  cases lprop with
  | false =>
    simp only [map_cons, map_nil, Bool.false_eq_true, if_false,
      print_nary (s := .or) rfl, print_eqNode, print_mkConcatDir, print_splitSkolem,
      print_negate_eqNode, print_gt, print_mkLength, print_leaf, StrLeaf.print,
      prependNAryChildren_cons, prependNAryChildren_nil]
  | true =>
    simp only [map_cons, map_nil, if_true, print_eqNode, print_mkConcatDir,
      print_splitSkolem, print_negate_eqNode, print_gt, print_mkLength, print_leaf, StrLeaf.print]

lemma print_csplitConclusion {t0 : StrNode} {y : Str} {isRev : Bool} (hy : y.length = 1) :
    (csplitConclusion t0 y isRev).print =
      let k := uop .purify (if isRev then
        strPrefix t0.print (bop .minus (uop .strLen t0.print) (.num 1))
          else strSuffixRem t0.print (.num 1))
      bop .eq t0.print (strList .char (if isRev then [k, .str y] else [.str y, k])) := by
  unfold csplitConclusion
  rw [if_pos hy]
  cases isRev with
  | false =>
    have hnode : (StringSkolem.idVcSpt t0).node.print =
        uop .purify (strSuffixRem t0.print (.num 1)) := by
      rw [StringSkolem.node, print_purify]
      exact congrArg (uop .purify) (print_mkSuffix t0 (num 1))
    simp only [Bool.false_eq_true, if_false, print_eqNode, print_mkConcatDir, hnode, print_leaf,
      StrLeaf.print]
  | true =>
    have hnode : (StringSkolem.idVcSptRev t0).node.print =
        uop .purify (strPrefix t0.print (bop .minus (uop .strLen t0.print) (.num 1))) := by
      rw [StringSkolem.node, print_purify, StringSkolem.elim, StringSkolem.purified,
        print_mkPrefix, print_mkSub, print_mkLength]
      rfl
    simp only [if_true, print_eqNode, print_mkConcatDir, hnode, print_leaf, StrLeaf.print]

/-! ## The rules with a second premise -/

section SecondPremise

variable {t s t0 s0 : StrNode} {isRev : Bool} (ht : IsStr Γ t.print) (hs : IsStr Γ s.print)
  (ht0 : component isRev (getConcat t) 0 = some t0)
  (hs0 : component isRev (getConcat s) 0 = some s0)

include ht hs ht0 hs0

lemma concatUnify_print :
    concatUnify Γ t.print s.print t0.print s0.print isRev = some (eqNode t0 s0).print ↔
      t ≠ str [] ∧ s ≠ str [] := by
  rw [concatUnify, strFirst_eq_component ht ht0, strFirst_eq_component hs hs0]
  by_cases htnil : t = str [] <;> by_cases hsnil : s = str [] <;>
    simp [htnil, hsnil, eoRequires]

lemma concatSplit_print : concatSplit Γ t.print s.print t0.print s0.print isRev =
        some (splitConclusion t0 s0 false isRev).print ↔
      t ≠ str [] ∧ s ≠ str [] := by
  have h0 := isStr_component ht ht0
  have h1 := isStr_component hs hs0
  have hk : IsStr Γ (uop .purify (strUnifySplit t0.print s0.print isRev)) :=
    isStr_purify (isStr_strUnifySplit isRev h0 h1)
  rw [concatSplit, strFirst_eq_component ht ht0, strFirst_eq_component hs hs0]
  by_cases htnil : t = str []
  · simp [htnil]
  by_cases hsnil : s = str []
  · simp [htnil, hsnil]
  rw [if_neg htnil, if_neg hsnil, bind_some, bind_some, print_splitConclusion]
  simp only [strConcatDir_of_isStr isRev h1 hk, strConcatDir_of_isStr isRev h0 hk,
    strNil_of_isStr hk]
  simp [htnil, hsnil, eoRequires]

lemma concatLprop_print : concatLprop Γ t.print s.print t0.print s0.print isRev =
        some (splitConclusion t0 s0 true isRev).print ↔
      t ≠ str [] ∧ s ≠ str [] := by
  have h0 := isStr_component ht ht0
  have h1 := isStr_component hs hs0
  have hk : IsStr Γ (uop .purify (strUnifySplit t0.print s0.print isRev)) :=
    isStr_purify (isStr_strUnifySplit isRev h0 h1)
  rw [concatLprop, strFirst_eq_component ht ht0, strFirst_eq_component hs hs0]
  by_cases htnil : t = str []
  · simp [htnil]
  by_cases hsnil : s = str []
  · simp [htnil, hsnil]
  rw [if_neg htnil, if_neg hsnil, bind_some, bind_some, print_splitConclusion]
  simp only [strConcatDir_of_isStr isRev h1 hk, strNil_of_isStr hk]
  simp [htnil, hsnil, eoRequires]

lemma concatCsplit_print {y : Str} (hy : y.length = 1) (hlit : s0 = str y) :
    concatCsplit Γ t.print s.print t0.print isRev = some (csplitConclusion t0 y isRev).print ↔
      t ≠ str [] := by
  have h0 := isStr_component ht ht0
  have hsnil : s ≠ str [] := by
    rintro rfl
    have hnil : s0 = str [] := by
      cases isRev <;> exact (some.inj hs0).symm
    rw [hlit] at hnil
    cases hnil
    cases hy
  subst hlit
  have hk : IsStr Γ (uop .purify (if isRev then
      strPrefix t0.print (bop .minus (uop .strLen t0.print) (.num 1))
        else strSuffixRem t0.print (.num 1))) := by
    refine isStr_purify ?_
    split
    · exact isStr_strPrefix h0 (typeof_minus (typeof_strLen h0) rfl)
    · exact isStr_strSuffixRem h0 rfl
  rw [concatCsplit, strFirst_eq_component ht ht0, strFirst_eq_component hs hs0, if_neg hsnil]
  by_cases htnil : t = str []
  · simp [htnil]
  have hone : strCheckLengthOne (.str y) = true := decide_eq_true hy
  have hstr : IsStr Γ (.str y) := rfl
  rw [if_neg htnil, bind_some, bind_some, print_csplitConclusion hy]
  simp only [print_leaf, StrLeaf.print, strConcatDir_of_isStr isRev hstr hk, hone]
  simp [htnil, eoRequires]

end SecondPremise

/-! ## Overlaps of literals -/

lemma isStr_strChars (w : Str) : ∀ x ∈ strChars w, IsStr Γ x := by
  intro x hx
  obtain ⟨c, _, rfl⟩ := mem_map.1 hx
  rfl

lemma strToFlatForm_literal (w : Str) (rev : Bool) :
    strToFlatForm Γ (.str w) rev = some (strList .char (strChars (dirWord rev w))) := by
  have hlist : IsStr Γ (strList .char (strChars w)) := isStr_strList.2 (isStr_strChars w)
  have hflat : (strNaryIntro Γ (.str w)).bind (strFlatten Γ) =
      some (strList .char (strChars w)) := by
    cases w with
    | nil => rfl
    | cons c w =>
      have hintro : strNaryIntro Γ (.str (c :: w)) =
          some (bop .strConcat (.str (c :: w)) (.str [])) := rfl
      have hnil : strFlatten Γ (.str []) = some (.str []) := rfl
      rw [hintro, bind_some, strFlatten, hnil, bind_some]
      simp only
      split
      · have hlist' := hlist
        rw [← strFlattenWord_eq] at hlist'
        rw [listConcat, nilFor_of_isStr hlist', bind_some, eoListConcat,
          if_pos (by decide), strFlattenWord_eq, show (Term.str []) = seqNil .char from rfl,
          getNAryChildren_prepend (naryView_seqNil _), map_some, if_pos rfl]
      rename_i hshort
      have hw : w = [] := by
        cases w with
        | nil => rfl
        | cons d w => simp [strCheckLenGtOne] at hshort
      rw [hw]
      rfl
  rw [strToFlatForm, ← Option.bind_assoc, hflat, bind_some, strRev]
  cases rev with
  | false => rfl
  | true =>
    rw [if_pos rfl, strListRev, nilFor_of_isStr hlist, bind_some, eoListRev,
      show (Term.str []) = seqNil .char from rfl, getNAryChildren_prepend (naryView_seqNil _),
      map_some, dirWord, if_pos rfl, strChars, strChars, List.map_reverse]

lemma areDistinctTerms_chars {a b : CodePoint} (h : a ≠ b) :
    areDistinctTerms Γ (.str [a]) (.str [b]) = some true := by
  have hne : (Term.str [a]) ≠ .str [b] := by simpa using h
  change areDistinctTermsRec Γ 2 _ _ = _
  rw [areDistinctTermsRec, if_neg hne]
  rfl

lemma strIsCompatible_strChars (u v : Str) :
    ∃ b, strIsCompatible Γ (strList .char (strChars u)) (strList .char (strChars v)) = some b ∧
      (b = true ↔ Comparable u v) := by
  induction u generalizing v with
  | nil => exact ⟨true, strIsCompatible_nil_left (T := .char) _, by simp [comparable_nil_left]⟩
  | cons a u ih =>
    cases v with
    | nil =>
      exact ⟨true, strIsCompatible_nil_right (T := .char) _, by simp [comparable_nil_left.symm]⟩
    | cons b v =>
      have hstep : strIsCompatible Γ (strList .char (strChars (a :: u)))
          (strList .char (strChars (b :: v))) =
            if (Term.str [a]) = .str [b] then
              strIsCompatible Γ (strList .char (strChars u)) (strList .char (strChars v))
            else (areDistinctTerms Γ (.str [a]) (.str [b])).bind fun b =>
              eoRequires b (some false) := by
        change strIsCompatible Γ (bop .strConcat _ _) (bop .strConcat _ _) = _
        rw [strIsCompatible]
        rfl
      by_cases hab : a = b
      · subst hab
        obtain ⟨r, hr, hiff⟩ := ih v
        refine ⟨r, by rw [hstep, if_pos rfl, hr], hiff.trans ?_⟩
        exact (comparable_append_left (p := [a])).symm
      refine ⟨false, ?_, ?_⟩
      · rw [hstep, if_neg (by simpa using hab), areDistinctTerms_chars hab]
        rfl
      simp only [Bool.false_eq_true, false_iff]
      intro hcomp
      have happ : Comparable ([a] ++ u) ([b] ++ v) := hcomp
      exact not_comparable_singleton hab happ.of_append

lemma strOverlapRec_strChars (u v : Str) :
    ∃ n, strOverlapRec Γ (strList .char (strChars u)) (strList .char (strChars v)) = some n ∧
      n ≤ u.length ∧ Comparable (u.drop n) v ∧ NoOverlap u v n := by
  induction u with
  | nil => exact ⟨0, rfl, le_rfl, comparable_nil_left, fun i hi => absurd hi (Nat.not_lt_zero i)⟩
  | cons a u ih =>
    obtain ⟨n, hn, hle, hcomp, hno⟩ := ih
    obtain ⟨b, hb, hiff⟩ := strIsCompatible_strChars (Γ := Γ) (a :: u) v
    have hstep : strOverlapRec Γ (strList .char (strChars (a :: u)))
        (strList .char (strChars v)) = (strIsCompatible Γ (strList .char (strChars (a :: u)))
          (strList .char (strChars v))).bind fun b => if b then some 0
            else (strOverlapRec Γ (strList .char (strChars u))
              (strList .char (strChars v))).map fun n => 1 + n := rfl
    rw [hstep, hb, bind_some]
    cases b with
    | true => exact ⟨0, rfl, Nat.zero_le _, hiff.1 rfl, fun i hi => absurd hi (Nat.not_lt_zero i)⟩
    | false =>
      refine ⟨1 + n, by rw [hn]; rfl, ?_, ?_, ?_⟩
      · rw [List.length_cons]
        omega
      · rw [Nat.add_comm, List.drop_succ_cons]
        exact hcomp
      intro i hi
      cases i with
      | zero =>
        intro h
        have htrue := hiff.2 h
        cases htrue
      | succ i =>
        rw [List.drop_succ_cons]
        exact hno i (by omega)

lemma overlapFrom_spec (x y : Str) (m : Nat) : overlapFrom x y m ≤ m ∧
      (overlapFrom x y m ≠ 0 → x.drop (x.length - overlapFrom x y m) = y.take (overlapFrom x y m)) ∧
      ∀ j, overlapFrom x y m < j → j ≤ m → x.drop (x.length - j) ≠ y.take j := by
  induction m with
  | zero => exact ⟨le_rfl, fun h => absurd rfl h, fun j h1 h2 => by rw [overlapFrom] at h1; omega⟩
  | succ m ih =>
    rw [overlapFrom]
    split
    · rename_i heq
      exact ⟨le_rfl, fun _ => heq, fun j h1 h2 => by omega⟩
    rename_i hne
    refine ⟨by omega, ih.2.1, fun j h1 h2 => ?_⟩
    rcases Nat.lt_or_ge m j with hj | hj
    · obtain rfl : j = m + 1 := by omega
      exact hne
    · exact ih.2.2 j h1 hj

lemma roverlapFrom_eq {x y : Str} {m : Nat} (hx : m ≤ x.length) (hy : m ≤ y.length) :
    roverlapFrom x y m = overlapFrom x.reverse y.reverse m := by
  induction m with
  | zero => rfl
  | succ m ih =>
    rw [roverlapFrom, overlapFrom, ih (by omega) (by omega)]
    have hiff : x.reverse.drop (x.reverse.length - (m + 1)) = y.reverse.take (m + 1) ↔
        x.take (m + 1) = y.drop (y.length - (m + 1)) := by
      rw [List.length_reverse, List.drop_reverse, List.take_reverse, List.reverse_inj,
        Nat.sub_sub_self hx]
    simp only [hiff]

lemma overlap_dirWord (x y : Str) (isRev : Bool) : (if isRev then roverlap x y else overlap x y) =
      overlap (dirWord isRev x) (dirWord isRev y) := by
  cases isRev with
  | false => rfl
  | true =>
    simp only [if_true, roverlap, overlap, dirWord, List.length_reverse]
    exact roverlapFrom_eq (Nat.min_le_left _ _) (Nat.min_le_right _ _)

/-- The number of letters that cvc5 takes is one more than the first position of an overlap. -/
lemma getSufficientNonEmptyOverlap_eq {c d : Str} {isRev : Bool} (hc : c ≠ []) {n : Nat}
    (hle : n ≤ (dirWord isRev c).tail.length)
    (hcomp : Comparable ((dirWord isRev c).tail.drop n) (dirWord isRev d))
    (hno : NoOverlap (dirWord isRev c).tail (dirWord isRev d) n) :
    getSufficientNonEmptyOverlap c d isRev = 1 + n := by
  have htail : dirWord isRev (if isRev then c.take (c.length - 1) else c.drop 1) =
      (dirWord isRev c).tail := by
    cases isRev with
    | false => exact List.drop_one
    | true => simp [dirWord, ← List.dropLast_eq_take, List.tail_reverse]
  have hp2 : (if isRev then rfind (if isRev then c.take (c.length - 1) else c.drop 1) d
      else Words.find d (if isRev then c.take (c.length - 1) else c.drop 1)) =
        Words.find (dirWord isRev d) (dirWord isRev c).tail := by
    rw [← htail]
    cases isRev <;> rfl
  have hlen : c.length = (dirWord isRev c).tail.length + 1 := by
    have hpos := List.length_pos_iff.2 hc
    rw [List.length_tail, length_dirWord]
    omega
  unfold getSufficientNonEmptyOverlap
  dsimp only
  rw [hp2, overlap_dirWord, htail, hlen]
  generalize (dirWord isRev c).tail = u at *
  generalize dirWord isRev d = v at *
  obtain ⟨hkle, hkeq, hkmax⟩ := overlapFrom_spec u v (min u.length v.length)
  rw [← overlap] at hkle hkeq hkmax
  -- the overlap is compatible at its position, and no later
  have hn1 : n ≤ u.length - overlap u v := by
    by_contra hlt
    refine hno (u.length - overlap u v) (by omega) (.inl ?_)
    by_cases hzero : overlap u v = 0
    · rw [hzero, Nat.sub_zero, List.drop_length]
      exact List.nil_prefix
    · rw [hkeq hzero]
      exact List.take_prefix _ _
  have hn2 : ∀ i, Words.find v u = some i → n ≤ i := by
    intro i hi
    obtain ⟨_, hpre, _⟩ := Words.find_eq_some.1 hi
    by_contra hlt
    exact hno i (by omega) (.inr hpre)
  have hleast : u.length - overlap u v ≤ n ∨ ∃ i, Words.find v u = some i ∧ i ≤ n := by
    rcases hcomp with hpre | hpre
    · left
      by_contra hlt
      have hplen := hpre.length_le
      rw [List.length_drop] at hplen
      refine hkmax (u.length - n) (by omega) (by omega) ?_
      rw [Nat.sub_sub_self hle]
      have heq := List.prefix_iff_eq_take.1 hpre
      rwa [List.length_drop] at heq
    right
    cases hfind : Words.find v u with
    | none =>
      rw [Words.find_eq_none] at hfind
      exact absurd (hpre.isInfix.trans (List.drop_suffix n u).isInfix) hfind
    | some i =>
      obtain ⟨_, _, hmin⟩ := Words.find_eq_some.1 hfind
      refine ⟨i, rfl, ?_⟩
      by_contra hlt
      exact hmin n (by omega) hpre
  cases hfind : Words.find v u with
  | none =>
    rcases hleast with h | ⟨i, hi, _⟩
    · simp only
      omega
    · rw [hfind] at hi
      cases hi
  | some i =>
    have hni := hn2 i hfind
    have hmin : u.length - overlap u v ≤ n ∨ i ≤ n := by
      rcases hleast with h | ⟨j, hj, hjn⟩
      · exact .inl h
      · rw [hfind, Option.some.injEq] at hj
        exact .inr (hj ▸ hjn)
    clear hleast
    simp only
    split
    · omega
    · omega

/-! ## `CONCAT_CPROP` and `STRING_DECOMPOSE` -/

/-- The overlap of the signature, one more, is the number of letters that cvc5 takes. -/
lemma strOverlap_dropFirst {c d : Str} (isRev : Bool) (hc : c ≠ []) :
    ∃ n, (dropFirst (.str c) isRev).bind (fun s => strOverlap Γ s (.str d) isRev) = some n ∧
      getSufficientNonEmptyOverlap c d isRev = 1 + n := by
  obtain ⟨n, hn, hle, hcomp, hno⟩ := strOverlapRec_strChars (Γ := Γ)
    (dirWord isRev c).tail (dirWord isRev d)
  refine ⟨n, ?_, getSufficientNonEmptyOverlap_eq hc hle hcomp hno⟩
  rw [dropFirst, bind_some, strOverlap, strToFlatForm_literal, bind_some,
    strToFlatForm_literal, bind_some, dirWord_dropFirst, hn]

/-- The number of letters that cvc5 takes is the least positive shift of `d` against `c`, in the
direction of reading, and the one of the signature. -/
theorem getSufficientNonEmptyOverlap_isLeast (Γ : Nat → Ty) {c : Str} (hc : c ≠ []) (d : Str)
    (isRev : Bool) :
    IsLeast {k | 0 < k ∧ ShiftOf (dirWord isRev c) (dirWord isRev d) k}
        (getSufficientNonEmptyOverlap c d isRev) ∧
      getSufficientNonEmptyOverlap c d isRev ≤ c.length ∧
      ∃ n, (dropFirst (.str c) isRev).bind (fun s => strOverlap Γ s (.str d) isRev) = some n ∧
        getSufficientNonEmptyOverlap c d isRev = 1 + n := by
  obtain ⟨n, hn, hle, hcomp, hno⟩ := strOverlapRec_strChars (Γ := Γ)
    (dirWord isRev c).tail (dirWord isRev d)
  have heq := getSufficientNonEmptyOverlap_eq hc hle hcomp hno
  have hpos := List.length_pos_iff.2 hc
  rw [List.length_tail, length_dirWord] at hle
  have hdrop : ∀ i, (dirWord isRev c).drop (1 + i) = (dirWord isRev c).tail.drop i := fun i => by
    rw [List.drop_tail, Nat.add_comm]
  refine ⟨⟨⟨by omega, ?_⟩, ?_⟩, by omega, strOverlap_dropFirst isRev hc⟩
  · rw [heq]
    refine shiftOf_of_comparable ?_ ?_
    · rw [length_dirWord]
      omega
    · rwa [hdrop]
  rintro k ⟨hk, hshift⟩
  -- a shorter shift is an overlap before the first one
  by_contra hlt
  obtain ⟨i, rfl⟩ : ∃ i, k = 1 + i := ⟨k - 1, by omega⟩
  have hover := hshift.comparable
  rw [hdrop] at hover
  exact hno i (by omega) hover

theorem getSufficientNonEmptyOverlap_isLeast_ababc :
    IsLeast {k | 0 < k ∧ ShiftOf ([97, 98, 97, 98, 99] : Str) [97, 98, 99, 100] k} 2 :=
  (getSufficientNonEmptyOverlap_isLeast (fun _ => .int) (c := [97, 98, 97, 98, 99])
    (List.cons_ne_nil _ _) [97, 98, 99, 100] false).1

lemma print_mkSkolem_cprop (z preC : StrNode) (isRev : Bool) :
    ((if isRev then StringSkolem.idCSptRev z preC else .idCSpt z preC).node).print =
      uop .purify (if isRev then
        strPrefix z.print (bop .minus (uop .strLen z.print) (uop .strLen preC.print))
          else strSuffixRem z.print (uop .strLen preC.print)) := by
  cases isRev with
  | false =>
    simp only [Bool.false_eq_true, if_false, StringSkolem.node, StringSkolem.elim,
      StringSkolem.purified, print_purify, print_mkSuffix, print_mkLength]
  | true =>
    simp only [if_true, StringSkolem.node, StringSkolem.elim, StringSkolem.purified,
      print_purify, print_mkPrefix, print_mkSub, print_mkLength]

lemma concatCprop_print {t s t0 : StrNode} {w1 w2 : Str} {isRev : Bool} (ht : IsStr Γ t.print)
    (hs : IsStr Γ s.print) (ht0 : component isRev (getConcat t) 0 = some t0)
    (hw1 : component isRev (getConcat t) 1 = some (str w1))
    (hs0 : component isRev (getConcat s) 0 = some (str w2)) (hne : w2 ≠ []) :
    concatCprop Γ t.print t0.print s.print isRev = some (cpropConclusion t0 w1 w2 isRev).print := by
  have h0 := isStr_component ht ht0
  have htnil : t ≠ str [] := by
    rintro rfl
    cases isRev <;> cases hw1
  have hsnil : s ≠ str [] := by
    rintro rfl
    cases isRev <;> exact hne (by simpa [component, getConcat] using hs0.symm)
  obtain ⟨n, hn, hp⟩ := strOverlap_dropFirst (Γ := Γ) (d := w1) isRev hne
  obtain ⟨s1s, hs1s, hn⟩ := bind_inv hn
  rw [component_eq] at ht0 hw1
  have hhead : strHead Γ (strList .char ((dirWord isRev (listComponents t)).map StrNode.print)) =
      some t0.print := by
    refine (strListNth_print ht isRev 0).trans ?_
    rw [listComponents, if_neg htnil, ht0, map_some]
  have hsecond : strListNth Γ
      (strList .char ((dirWord isRev (listComponents t)).map StrNode.print)) 1 =
        some (.str w1) := by
    refine (strListNth_print ht isRev 1).trans ?_
    rw [listComponents, if_neg htnil, hw1, map_some]
    rfl
  have hfirst : strFirst Γ s.print isRev = some (.str w2) := by
    rw [strFirst_eq_component hs hs0, if_neg hsnil]
    rfl
  have hnum : ∀ z : Int, (num z).print = .num z := fun z => print_leaf _
  have hnumTy : ∀ z : Int, typeof Γ (.num z) = some .int := fun z => rfl
  have hlit : IsStr Γ (.str w2) := rfl
  have hcast : (((1 + n : Nat)) : Int) = 1 + n := by
    push_cast
    rfl
  have hoc : IsStr Γ (if isRev then strSuffix (.str w2) (.num (1 + n))
      else strPrefix (.str w2) (.num (1 + n))) := by
    split
    · exact isStr_substr hlit (typeof_minus (typeof_strLen hlit) rfl) rfl
    · exact isStr_strPrefix hlit rfl
  have hpreC : (if isRev then mkSuffixOfLen (str w2) (num (1 + n))
      else mkPrefix (str w2) (num (1 + n))).print =
        if isRev then strSuffix (.str w2) (.num (1 + n))
          else strPrefix (.str w2) (.num (1 + n)) := by
    cases isRev with
    | false => exact print_mkPrefix _ _
    | true => exact print_mkSuffixOfLen _ _
  have hk : IsStr Γ (uop .purify (if isRev then
      strPrefix t0.print (bop .minus (uop .strLen t0.print)
        (uop .strLen (if isRev then strSuffix (.str w2) (.num (1 + n))
          else strPrefix (.str w2) (.num (1 + n)))))
      else strSuffixRem t0.print (uop .strLen (if isRev then strSuffix (.str w2) (.num (1 + n))
          else strPrefix (.str w2) (.num (1 + n)))))) := by
    refine isStr_purify ?_
    cases isRev with
    | false => exact isStr_strSuffixRem h0 (typeof_strLen hoc)
    | true => exact isStr_strPrefix h0 (typeof_minus (typeof_strLen h0) (typeof_strLen hoc))
  rw [concatCprop, strToNaryForm_print ht, bind_some, hhead, bind_some, hsecond,
    bind_some, hfirst, bind_some, hs1s, bind_some, hn, bind_some]
  simp only [cpropConclusion, hp, hcast, print_eqNode, print_mkConcatDir, print_mkSkolem_cprop,
    hpreC, strConcatDir_of_isStr isRev hoc hk]
  simp [eoRequires]

/-- The forward direction of a decomposition is the same; the suffix of the reverse direction is
written in another way. -/
lemma stringDecompose_print {s n : StrNode} {isRev : Bool} (hs : IsStr Γ s.print)
    (hn : typeof Γ n.print = some .int) :
    stringDecompose Γ s.print n.print isRev = some (getDecomposeConclusion s n isRev).print ↔
      isRev = false := by
  have hpre : ∀ m, typeof Γ m = some .int → IsStr Γ (uop .purify (strPrefix s.print m)) :=
    fun m hm => isStr_purify (isStr_strPrefix hs hm)
  have hlen := typeof_minus (typeof_strLen hs) hn
  have hnode : ∀ m, (StringSkolem.skPrefix s m).node.print = uop .purify (strPrefix s.print m.print) :=
    fun m => (print_purify _).trans (congrArg _ (print_mkPrefix s m))
  have hnode' : ∀ m, (StringSkolem.skSuffixRem s m).node.print =
      uop .purify (strSuffixRem s.print m.print) :=
    fun m => (print_purify _).trans (congrArg _ (print_mkSuffix s m))
  have hconcat : ∀ a b, (mk .strConcat [a, b]).print = strList .char [a.print, b.print] :=
    fun a b => isBop_print_strConcat a [b]
  unfold stringDecompose getDecomposeConclusion
  cases isRev with
  | false =>
    have hp := hpre _ hn
    simp only [Bool.false_eq_true, if_false, mkNary, nilFor_of_isStr hp, print_mk_and,
      map_cons, map_nil, print_eqNode, hconcat, hnode, hnode', print_mkLength]
    exact iff_of_true rfl trivial
  | true =>
    have hp : IsStr Γ (uop .purify (strPrefixRem s.print n.print)) := hpre _ hlen
    simp only [if_true, mkNary, nilFor_of_isStr hp, print_mk_and, map_cons, map_nil,
      print_eqNode, hconcat, hnode, hnode', print_mkLength, print_mkSub, map_some,
      Option.some.injEq]
    refine iff_of_false ?_ (by simp)
    intro heq
    -- the lengths of the two suffixes are different terms
    have hsuffix : n.print = bop .minus (uop .strLen s.print)
        (bop .minus (uop .strLen s.print) n.print) := by
      have hlist := (Term.app.inj (Term.app.inj (Term.app.inj heq).1).2).2
      have hks := (Term.app.inj (Term.app.inj (Term.app.inj hlist).2).1).2
      exact (Term.app.inj (Term.app.inj hks).2).2
    have hsize := congrArg Term.size hsuffix
    simp only [Term.size] at hsize
    omega

/-! ## `CONCAT_EQ` -/

/-- The number of components that two lists have in common at their beginnings. -/
def commonLen : List StrNode → List StrNode → Nat
  | a :: as, b :: bs => if a = b then commonLen as bs + 1 else 0
  | _, _ => 0

lemma equalComponents_eq (isRev : Bool) (tvec svec : List StrNode) (k index : Nat)
    (hk : tvec.length ≤ k + index) :
    equalComponents isRev tvec svec k index =
      index + commonLen ((dirWord isRev tvec).drop index) ((dirWord isRev svec).drop index) := by
  induction k generalizing index with
  | zero =>
    rw [equalComponents, List.drop_of_length_le (by rw [length_dirWord]; omega)]
    rfl
  | succ k ih =>
    rw [equalComponents, component_eq, component_eq]
    by_cases ht : index < tvec.length
    swap
    · rw [if_neg fun h => ht h.2.1, List.drop_of_length_le (by rw [length_dirWord]; omega)]
      rfl
    by_cases hs : index < svec.length
    swap
    · rw [if_neg fun h => hs h.1,
        List.drop_of_length_le (l := dirWord isRev svec) (by rw [length_dirWord]; omega)]
      cases (dirWord isRev tvec).drop index <;> rfl
    have ht' : index < (dirWord isRev tvec).length := by rwa [length_dirWord]
    have hs' : index < (dirWord isRev svec).length := by rwa [length_dirWord]
    rw [List.drop_eq_getElem_cons ht', List.drop_eq_getElem_cons hs', commonLen,
      List.getElem?_eq_getElem ht', List.getElem?_eq_getElem hs']
    by_cases heq : (dirWord isRev tvec)[index] = (dirWord isRev svec)[index]
    · rw [if_pos ⟨hs, ht, congrArg some heq⟩, if_pos heq, ih (index + 1) (by omega)]
      omega
    · rw [if_neg fun h => heq (some.inj h.2.2), if_neg heq]
      rfl

lemma remainder_eq (isRev : Bool) (v : List StrNode) (k : Nat) :
    remainder isRev v k = dirWord isRev ((dirWord isRev v).drop k) := by
  cases isRev with
  | false => rfl
  | true => simp only [remainder, if_true, dirWord, List.drop_reverse, List.reverse_reverse]

lemma strStripPrefix_print (xs ys : List StrNode) :
    strStripPrefix (strList .char (xs.map StrNode.print)) (strList .char (ys.map StrNode.print)) =
      (strList .char ((xs.drop (commonLen xs ys)).map StrNode.print),
        strList .char ((ys.drop (commonLen xs ys)).map StrNode.print)) := by
  induction xs generalizing ys with
  | nil => cases ys <;> rfl
  | cons x xs ih =>
    cases ys with
    | nil => rfl
    | cons y ys =>
      have hstep : strStripPrefix (strList .char ((x :: xs).map StrNode.print))
          (strList .char ((y :: ys).map StrNode.print)) =
            if x.print = y.print then
              strStripPrefix (strList .char (xs.map StrNode.print))
                (strList .char (ys.map StrNode.print))
            else (strList .char ((x :: xs).map StrNode.print),
              strList .char ((y :: ys).map StrNode.print)) := rfl
      rw [hstep, commonLen]
      by_cases hxy : x = y
      · rw [if_pos (congrArg _ hxy), if_pos hxy, ih]
        rfl
      · rw [if_neg fun h => hxy (print_inj h), if_neg hxy]
        rfl

lemma dirWord_dirWord {α : Type} (rev : Bool) (l : List α) : dirWord rev (dirWord rev l) = l := by
  cases rev with
  | false => rfl
  | true => exact List.reverse_reverse l

lemma strFromNaryForm_print {xs : List StrNode} (hxs : ∀ x ∈ xs, IsStr Γ x.print) (rev : Bool) :
    strFromNaryForm Γ (strList .char (xs.map StrNode.print)) rev =
      some (mkConcat (dirWord rev xs)).print := by
  have hlist : IsStr Γ (strList .char (xs.map StrNode.print)) := by
    refine isStr_strList.2 fun x hx => ?_
    obtain ⟨c, hc, rfl⟩ := mem_map.1 hx
    exact hxs c hc
  have hrev : strRev Γ rev (strList .char (xs.map StrNode.print)) =
      some (strList .char ((dirWord rev xs).map StrNode.print)) := by
    cases rev with
    | false => rfl
    | true =>
      rw [strRev, if_pos rfl, strListRev, nilFor_of_isStr hlist, bind_some, eoListRev,
        show (Term.str []) = seqNil .char from rfl, getNAryChildren_prepend (naryView_seqNil _),
        map_some, dirWord, if_pos rfl, List.map_reverse]
  rw [strFromNaryForm, hrev, bind_some]
  have hdir : ∀ x ∈ dirWord rev xs, IsStr Γ x.print := fun x hx => hxs x (mem_dirWord.1 hx)
  generalize dirWord rev xs = ys at hdir
  rcases ys with _ | ⟨y, _ | ⟨z, zs⟩⟩
  · rfl
  · have helim : strNaryElim Γ (bop .strConcat y.print (.str [])) =
        (strNil Γ y.print).map fun nil => if (Term.str []) = nil then y.print
          else bop .strConcat y.print (.str []) := rfl
    refine helim.trans ?_
    rw [strNil_of_isStr (hdir y mem_cons_self)]
    rfl
  · have hmk : mkConcat (y :: z :: zs) = mk .strConcat (y :: z :: zs) := rfl
    have helim : strNaryElim Γ (strList .char ((y :: z :: zs).map StrNode.print)) =
        (strNil Γ y.print).map fun nil =>
          if strList .char ((z :: zs).map StrNode.print) = nil then y.print
          else strList .char ((y :: z :: zs).map StrNode.print) := rfl
    rw [hmk, isBop_print_strConcat, helim, strNil_of_isStr (hdir y mem_cons_self), map_some, if_neg]
    intro h
    cases h

/-- The empty literal meets a concatenation that begins with an empty literal. -/
def EmptyAgainst (isRev : Bool) (t s : StrNode) : Prop :=
  t = str [] ∧ 2 ≤ (getConcat s).length ∧ component isRev (getConcat s) 0 = some (str [])

lemma size_lt_of_mem {x : StrNode} {xs : List StrNode} (hx : x ∈ xs) :
    x.print.size < (strList .char (xs.map StrNode.print)).size := by
  induction xs with
  | nil => cases hx
  | cons y ys ih =>
    have hsize : (strList .char ((y :: ys).map StrNode.print)).size =
        1 + y.print.size + 1 + (strList .char (ys.map StrNode.print)).size + 1 := rfl
    rw [hsize]
    rcases List.mem_cons.1 hx with rfl | hx
    · omega
    · have hlt := ih hx
      omega

lemma mkConcat_drop_ne {isRev : Bool} {v : List StrNode} (hv : 2 ≤ v.length) :
    mkConcat (dirWord isRev ((dirWord isRev v).drop 1)) ≠ mkConcat v := by
  have hlen : (dirWord isRev ((dirWord isRev v).drop 1)).length = v.length - 1 := by
    rw [length_dirWord, List.length_drop, length_dirWord]
  have hsub : ∀ x ∈ dirWord isRev ((dirWord isRev v).drop 1), x ∈ v := fun x hx =>
    mem_dirWord.1 (List.mem_of_mem_drop (mem_dirWord.1 hx))
  match v, hv with
  | a :: b :: v, _ =>
    generalize dirWord isRev ((dirWord isRev (a :: b :: v)).drop 1) = r at hlen hsub
    match r, hlen, hsub with
    | [x], _, hsub =>
      intro heq
      have hsize := size_lt_of_mem (hsub x (.head _))
      rw [← isBop_print_strConcat] at hsize
      exact absurd (congrArg (fun n => n.print.size) heq) (Nat.ne_of_lt hsize)
    | x :: y :: r, hlen, _ =>
      intro heq
      have hr : x :: y :: r = a :: b :: v := by simpa [mkConcat] using heq
      rw [hr] at hlen
      simp only [List.length_cons] at hlen
      omega

lemma commonLen_comm (xs ys : List StrNode) : commonLen xs ys = commonLen ys xs := by
  induction xs generalizing ys with
  | nil => cases ys <;> rfl
  | cons x xs ih =>
    cases ys with
    | nil => rfl
    | cons y ys =>
      rw [commonLen, commonLen, ih]
      by_cases hxy : x = y
      · rw [if_pos hxy, if_pos hxy.symm]
      · rw [if_neg hxy, if_neg fun h => hxy h.symm]

/-- What cvc5 leaves of the empty literal and of a string against it. -/
lemma commonLen_empty {isRev : Bool} {v : List StrNode} (hv : v ≠ []) :
    mkConcat (dirWord isRev ([str []].drop (commonLen [str []] (dirWord isRev v)))) = str [] ∧
      (mkConcat (dirWord isRev ((dirWord isRev v).drop (commonLen [str []] (dirWord isRev v)))) =
          mkConcat v ↔
        ¬ (2 ≤ v.length ∧ component isRev v 0 = some (str []))) := by
  have hlen : (dirWord isRev v).length = v.length := length_dirWord
  rw [component_eq]
  cases hdir : dirWord isRev v with
  | nil =>
    rw [hdir] at hlen
    exact absurd (List.length_eq_zero_iff.1 hlen.symm) hv
  | cons x rest =>
    have hnil : commonLen [] rest = 0 := by
      cases rest <;> rfl
    rw [commonLen, hnil]
    by_cases hx : str [] = x
    · subst hx
      rw [if_pos rfl]
      refine ⟨by cases isRev <;> rfl, ?_⟩
      by_cases h2 : 2 ≤ v.length
      · refine iff_of_false ?_ (by simp [h2])
        rw [← hdir]
        exact mkConcat_drop_ne h2
      refine iff_of_true ?_ (by simp [h2])
      rw [hdir, List.length_cons] at hlen
      have hrest : rest = [] := List.length_eq_zero_iff.1 (by omega)
      have hv' : v = dirWord isRev [str []] := by rw [← hrest, ← hdir, dirWord_dirWord]
      rw [hv', hrest]
      cases isRev <;> rfl
    · rw [if_neg hx]
      refine ⟨by cases isRev <;> rfl, iff_of_true ?_ ?_⟩
      · rw [drop_zero, ← hdir, dirWord_dirWord]
      · simpa using fun _ h => hx h.symm

/-- The common components of two strings are taken away alike, but for an empty literal. -/
lemma concatEq_print {t s : StrNode} {isRev : Bool} (ht : IsStr Γ t.print) (hs : IsStr Γ s.print) :
    concatEq Γ t.print s.print isRev = some (checkConcatEq t s isRev).print ↔
      ¬ EmptyAgainst isRev t s ∧ ¬ EmptyAgainst isRev s t := by
  have hdrop : ∀ {u : StrNode} (_ : IsStr Γ u.print) (k : Nat),
      ∀ x ∈ (dirWord isRev (listComponents u)).drop k, IsStr Γ x.print := fun hu k x hx =>
    (strNaryIntro_print hu).2 x (mem_dirWord.1 (List.mem_of_mem_drop hx))
  have hcpc : concatEq Γ t.print s.print isRev = some (bop .eq
        (mkConcat (dirWord isRev ((dirWord isRev (listComponents t)).drop
          (commonLen (dirWord isRev (listComponents t)) (dirWord isRev (listComponents s)))))).print
        (mkConcat (dirWord isRev ((dirWord isRev (listComponents s)).drop
          (commonLen (dirWord isRev (listComponents t))
            (dirWord isRev (listComponents s)))))).print) := by
    rw [concatEq, strToNaryForm_print ht, bind_some, strToNaryForm_print hs,
      bind_some, strStripPrefix_print, strFromNaryForm_print (hdrop ht _), bind_some,
      strFromNaryForm_print (hdrop hs _), map_some]
  have hcvc : checkConcatEq t s isRev = eqNode
      (mkConcat (dirWord isRev ((dirWord isRev (getConcat t)).drop
        (commonLen (dirWord isRev (getConcat t)) (dirWord isRev (getConcat s))))))
      (mkConcat (dirWord isRev ((dirWord isRev (getConcat s)).drop
        (commonLen (dirWord isRev (getConcat t)) (dirWord isRev (getConcat s)))))) := by
    unfold checkConcatEq
    simp only [equalComponents_eq isRev _ _ _ 0 le_rfl, remainder_eq, drop_zero, Nat.zero_add]
  have hcomps : ∀ {u : StrNode}, IsStr Γ u.print → getConcat u ≠ [] := by
    intro u hu
    rcases string_cases hu with rfl | ⟨c, cs, rfl⟩ | ⟨_, hconcat⟩
    · simp [getConcat]
    · simp [getConcat]
    · rw [getConcat_of_not_concat hconcat]
      simp
  have hempty : dirWord isRev (getConcat (str [])) = [str []] := by
    cases isRev <;> rfl
  have hnil : ∀ xs, commonLen [] xs = 0 := fun xs => by cases xs <;> rfl
  rw [hcpc, hcvc, print_eqNode, Option.some.injEq]
  have hmkNil : mkConcat (dirWord isRev []) = str [] := by cases isRev <;> rfl
  have hsplit : ∀ a b c d : StrNode,
      bop .eq a.print b.print = bop .eq c.print d.print ↔ a = c ∧ b = d := by
    intro a b c d
    refine ⟨fun h => ?_, fun ⟨h1, h2⟩ => by rw [h1, h2]⟩
    injection h with h1 h2
    injection h1 with _ h1
    exact ⟨print_inj h1, print_inj h2⟩
  rw [hsplit]
  by_cases htnil : t = str [] <;> by_cases hsnil : s = str []
  · subst htnil hsnil
    refine iff_of_true ?_ ⟨by simp [EmptyAgainst, getConcat], by simp [EmptyAgainst, getConcat]⟩
    rw [listComponents, if_pos rfl, hempty]
    cases isRev <;> exact ⟨rfl, rfl⟩
  · subst htnil
    have hlist : listComponents s = getConcat s := if_neg hsnil
    obtain ⟨hfst, hsnd⟩ := @commonLen_empty isRev _ (hcomps hs)
    have hleft : dirWord isRev (listComponents (str [])) = [] := by cases isRev <;> rfl
    have hnot : ¬ EmptyAgainst isRev s (str []) := fun h => hsnil h.1
    rw [hleft, hlist, hnil, hempty, hfst, List.drop_nil, drop_zero, dirWord_dirWord,
      hmkNil, and_iff_right rfl, and_iff_left hnot]
    refine eq_comm.trans (hsnd.trans ?_)
    simp [EmptyAgainst]
  · subst hsnil
    have hlist : listComponents t = getConcat t := if_neg htnil
    obtain ⟨hfst, hsnd⟩ := @commonLen_empty isRev _ (hcomps ht)
    have hright : dirWord isRev (listComponents (str [])) = [] := by cases isRev <;> rfl
    have hnot : ¬ EmptyAgainst isRev t (str []) := fun h => htnil h.1
    rw [hright, hlist, commonLen_comm _ [], hnil, hempty, commonLen_comm _ [str []], hfst,
      List.drop_nil, drop_zero, dirWord_dirWord, hmkNil, and_iff_left rfl,
      and_iff_right hnot]
    refine eq_comm.trans (hsnd.trans ?_)
    simp [EmptyAgainst]
  · have hlt : listComponents t = getConcat t := if_neg htnil
    have hls : listComponents s = getConcat s := if_neg hsnil
    rw [hlt, hls]
    exact iff_of_true ⟨rfl, rfl⟩ ⟨fun h => htnil h.1, fun h => hsnil h.1⟩

/-! ## The rules -/

variable (Γ) in
/-- The premise is about strings: an equality of strings, or a bound of an integer or of the
length of a string. -/
structure OnStrings (child : StrNode) : Prop where
  sides : ∀ t s, child = eqNode t s → IsStr Γ t.print ∧ IsStr Γ s.print
  bound : ∀ a b, child = mk .geq [a, b] → typeof Γ a.print = some .int
  length : ∀ x l, child = mk .geq [mkLength x, l] → IsStr Γ x.print

/-- No empty literal stands as a side of the equality where a component is asked for. -/
def WordEqRule.SidesAgree (id : WordEqRule) (t s : StrNode) (isRev : Bool) : Prop :=
  match id with
  | .concatEq => ¬ EmptyAgainst isRev t s ∧ ¬ EmptyAgainst isRev s t
  | .concatUnify | .concatSplit | .concatLprop => t ≠ str [] ∧ s ≠ str []
  | .concatCsplit => t ≠ str []
  | .concatCprop | .stringDecompose => True

/-- When the two rules agree: on the sides of the equality, or in the forward direction. -/
def WordEqRule.Agrees (id : WordEqRule) (children : List StrNode) (isRev : Bool) : Prop :=
  match children.head?.bind asEqual with
  | some (t, s) => id.SidesAgree t s isRev
  | none => isRev = false

lemma asEqual_eq_some {n t s : StrNode} (h : asEqual n = some (t, s)) : n = eqNode t s := by
  unfold asEqual at h
  split at h
  · cases h
    rfl
  · cases h

lemma asLength_eq_some {n a : StrNode} (h : asLength n = some a) : n = mkLength a := by
  unfold asLength at h
  split at h
  · cases h
    rfl
  · cases h

lemma checkComponents_print {id : WordEqRule} {t s t0 s0 second c : StrNode} {isRev : Bool}
    (ht : IsStr Γ t.print) (hs : IsStr Γ s.print)
    (ht0 : component isRev (getConcat t) 0 = some t0)
    (hs0 : component isRev (getConcat s) 0 = some s0)
    (h : checkComponents id (getConcat t) t0 s0 second isRev = some c) :
    ∃ step, id.step [eqNode t s, second] isRev = some step ∧
      step.premises = [eqNode t s, second].map StrNode.print ∧
      (step.conclusion Γ = some c.print ↔ id.SidesAgree t s isRev) := by
  cases id with
  | concatEq => cases h
  | stringDecompose => cases h
  | concatUnify =>
    unfold checkComponents at h
    obtain ⟨⟨l, r⟩, hls, hl⟩ := bind_inv h
    obtain ⟨l1, hl1, hr⟩ := bind_inv hl
    obtain ⟨l2, hl2, hif⟩ := bind_inv hr
    clear h hl hr
    dsimp only at hl1 hl2 hif
    split at hif
    swap
    · cases hif
    rename_i heq
    obtain ⟨rfl, rfl⟩ := heq
    cases hif
    rw [asEqual_eq_some hls, asLength_eq_some hl1, asLength_eq_some hl2]
    exact ⟨_, rfl, by simp [WordEqStep.premises], concatUnify_print ht hs ht0 hs0⟩
  | concatSplit =>
    unfold checkComponents at h
    dsimp only at h
    split at h
    · rename_i hsecond
      cases h
      rw [hsecond]
      exact ⟨_, rfl, by simp [WordEqStep.premises], concatSplit_print ht hs ht0 hs0⟩
    · cases h
  | concatLprop =>
    unfold checkComponents at h
    dsimp only at h
    split at h
    · rename_i hsecond
      cases h
      rw [hsecond]
      exact ⟨_, rfl, by simp [WordEqStep.premises], concatLprop_print ht hs ht0 hs0⟩
    · cases h
  | concatCsplit =>
    unfold checkComponents at h
    dsimp only at h
    split at h
    swap
    · cases h
    rename_i hsecond
    rw [of_decide_eq_true hsecond]
    split at h
    swap
    · cases h
    rename_i y
    split at h
    · rename_i hy
      cases h
      refine ⟨_, rfl, by simp [WordEqStep.premises, lenNeZero, StrLeaf.print], ?_⟩
      exact concatCsplit_print ht hs ht0 hs0 hy rfl
    · cases h
  | concatCprop =>
    unfold checkComponents at h
    dsimp only at h
    split at h
    swap
    · cases h
    rename_i hsecond
    rw [of_decide_eq_true hsecond]
    split at h
    swap
    · cases h
    rename_i w1 w2 hw1
    split at h
    · rename_i hne
      cases h
      refine ⟨_, rfl, by simp [WordEqStep.premises, lenNeZero, StrLeaf.print], ?_⟩
      exact iff_of_true (concatCprop_print ht hs ht0 hw1 hs0 hne.2) trivial
    · cases h

lemma checkDecompose_print {first second c : StrNode} {isRev : Bool}
    (h1 : OnStrings Γ first) (h2 : OnStrings Γ second)
    (h : checkDecompose first second isRev = some c) :
    asEqual first = none ∧ ∃ step, WordEqRule.stringDecompose.step [first, second] isRev =
        some step ∧ step.premises = [first, second].map StrNode.print ∧
      (step.conclusion Γ = some c.print ↔ isRev = false) := by
  unfold checkDecompose at h
  split at h
  swap
  · cases h
  rename_i n x l
  split at h
  swap
  · cases h
  rename_i heq
  subst heq
  cases h
  have hgeq : ∀ x y : StrNode, (mk .geq [x, y]).print = bop .geq x.print y.print :=
    fun x y => print_curried rfl _
  refine ⟨rfl, _, rfl, ?_, stringDecompose_print (h2.length x n rfl) (h1.bound n _ rfl)⟩
  simp [WordEqStep.premises, hgeq, StrLeaf.print]

/-- A word equation step of cvc5 is the step of the signature on the printed premises, and the two
conclude the same just where no empty literal meets a component and no decomposition is
reversed. -/
theorem checkWordEq_print {id : WordEqRule} {children : List StrNode} {isRev : Bool} {c : StrNode}
    (hstr : ∀ child ∈ children, OnStrings Γ child)
    (h : checkWordEq id children isRev = some c) :
    ∃ step, id.step children isRev = some step ∧ step.premises = children.map StrNode.print ∧
      (step.conclusion Γ = some c.print ↔ id.Agrees children isRev) := by
  unfold checkWordEq at h
  split at h
  · rename_i eq
    obtain ⟨⟨t, s⟩, heq, hc⟩ := map_inv h
    have heq' := asEqual_eq_some heq
    subst heq' hc
    obtain ⟨ht, hs⟩ := (hstr _ (.head _)).sides t s rfl
    exact ⟨_, rfl, by simp [WordEqStep.premises], concatEq_print ht hs⟩
  · rename_i first second
    obtain ⟨hnone, step, hstep, hprem, hconc⟩ :=
      checkDecompose_print (hstr first (by simp)) (hstr second (by simp)) h
    refine ⟨step, hstep, hprem, hconc.trans ?_⟩
    simp [WordEqRule.Agrees, hnone]
  · cases h
  · cases h
  · rename_i eq second _ _
    obtain ⟨⟨t, s⟩, heq, hfst⟩ := bind_inv h
    obtain ⟨t0, ht0, hsnd⟩ := bind_inv hfst
    obtain ⟨s0, hs0, hc⟩ := bind_inv hsnd
    have heq' := asEqual_eq_some heq
    subst heq'
    obtain ⟨ht, hs⟩ := (hstr _ (.head _)).sides t s rfl
    exact checkComponents_print ht hs ht0 hs0 hc
  · cases h

/-- A split of two variables of different lengths. -/
theorem checkWordEq_print_split :
    let x := StrNode.var 0
    let y := StrNode.var 1
    let children := [eqNode x y, mk .not [eqNode (mkLength x) (mkLength y)]]
    let c := splitConclusion x y false false
    checkWordEq .concatSplit children false = some c ∧
      ∃ step, WordEqRule.concatSplit.step children false = some step ∧
        step.premises = children.map StrNode.print ∧
        (step.conclusion (fun _ => .seq .char) = some c.print ↔
          WordEqRule.concatSplit.Agrees children false) := by
  refine ⟨rfl, checkWordEq_print (fun child hchild => ?_) rfl⟩
  simp only [List.mem_cons, List.not_mem_nil, or_false] at hchild
  rcases hchild with rfl | rfl
  · refine ⟨fun t s h => ?_, fun a b h => ?_, fun x l h => ?_⟩
    · injection h with _ h
      injection h with h1 h2
      injection h2 with h2 _
      subst h1 h2
      exact ⟨rfl, rfl⟩
    · injection h with h _
      cases h
    · injection h with h _
      cases h
  · refine ⟨fun t s h => ?_, fun a b h => ?_, fun x l h => ?_⟩ <;> injection h with h _ <;> cases h

/-- The reverse decomposition of a variable at a length: the two purify different terms. -/
theorem checkWordEq_decompose_reverse :
    let x := StrNode.var 0
    let children := [mk .geq [num 1, num 0], mk .geq [mkLength x, num 1]]
    (checkWordEq .stringDecompose children true).isSome = true ∧
      ∃ step, WordEqRule.stringDecompose.step children true = some step ∧
        step.premises = children.map StrNode.print ∧
        (step.conclusion (fun _ => .seq .char)).isSome = true ∧
        step.conclusion (fun _ => .seq .char) ≠
          (checkWordEq .stringDecompose children true).map StrNode.print := by
  refine ⟨rfl, _, rfl, rfl, ?_⟩
  decide

end EthosCpc.Cvc5
