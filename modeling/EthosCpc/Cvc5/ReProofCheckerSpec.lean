import EthosCpc.Cvc5.ReProofChecker

/-!
# The regular expression rules of cvc5 and of the signature

The formulas that cvc5 builds are printed as those that the rules of the
signature evaluate to.  The index loops of cvc5 run over children where the
signature recurses over a list, which for the last component is reversed.
`RE_INTER` takes any number of memberships in cvc5 and two in the signature.
-/

namespace EthosCpc.Cvc5

open EthosCpc.Term (bop uop)
open StrNode
open Option (bind_some map_some some.inj)
open List (map_cons map_map map_nil mem_cons_self)

/-! ## Fixed length -/

lemma sameLengths_none (cs : List StrNode) : sameLengths none cs = none := by
  induction cs with
  | nil => rfl
  | cons c cs ih =>
    rw [sameLengths]
    cases getFixedLengthForRegexp c <;> exact ih

variable {c r s : StrNode} {cs rs : List StrNode} {n : Int} {m : StrNode × StrNode}

lemma sameLengths_spec {op : Sym} {nil : Term}
    (hstep : ∀ r r1, strFixedLenRe (bop op r r1) = (strFixedLenRe r).bind fun n =>
      if r1 = nil then some n
      else (strFixedLenRe r1).bind fun m => eoRequires (decide (m = n)) (some n))
    (hnil : ∀ r r1, bop op r r1 ≠ nil)
    (ih : ∀ d ∈ c :: cs, ∀ m, getFixedLengthForRegexp d = some m → strFixedLenRe d.print = some m)
    (h : sameLengths (getFixedLengthForRegexp c) cs = some n) :
    strFixedLenRe (prependNAryChildren (.sym op) nil ((c :: cs).map StrNode.print)) = some n := by
  induction cs generalizing c with
  | nil =>
    have hc := ih c (.head _) n h
    simp [hstep, hc]
  | cons d ds ihds =>
    cases hc : getFixedLengthForRegexp c with
    | none =>
      rw [hc, sameLengths_none] at h
      cases h
    | some m =>
      cases hd : getFixedLengthForRegexp d with
      | none =>
        rw [hc, sameLengths, hd, sameLength, Option.bind_none, sameLengths_none] at h
        cases h
      | some m' =>
        rw [hc, sameLengths, hd] at h
        by_cases hmm : m = m'
        swap
        · rw [sameLength, bind_some, bind_some, if_neg hmm, sameLengths_none] at h
          cases h
        subst hmm
        have htail : sameLengths (getFixedLengthForRegexp d) ds = some n := by
          rw [hd, ← h]
          simp [sameLength]
        have hrec := ihds (fun e he => ih e (.tail _ he)) htail
        have hn : n = m := by
          have hhead := ih d (.tail _ (.head _)) m hd
          rw [map_cons, prependNAryChildren_cons, hstep, hhead, bind_some] at hrec
          split at hrec
          · exact (some.inj hrec).symm
          obtain ⟨k, _, hk⟩ := bind_inv hrec
          unfold eoRequires at hk
          split at hk
          · exact (some.inj hk).symm
          · cases hk
        subst hn
        rw [map_cons, prependNAryChildren_cons, hstep, ih c mem_cons_self n hc, bind_some, hrec,
          if_neg (by rw [map_cons, prependNAryChildren_cons]; exact hnil _ _)]
        simp [eoRequires]

lemma sumLengths_spec {sum : Int}
    (ih : ∀ d ∈ cs, ∀ m, getFixedLengthForRegexp d = some m → strFixedLenRe d.print = some m)
    (h : sumLengths sum cs = some n) :
    strFixedLenRe (prependNAryChildren (.sym .reConcat) reEmpty (cs.map StrNode.print)) =
      some (n - sum) := by
  induction cs generalizing sum with
  | nil =>
    cases h
    simp [strFixedLenRe, eoStrLen]
  | cons c cs ihcs =>
    rw [sumLengths] at h
    obtain ⟨m, hm, h⟩ := bind_inv h
    have hrec := ihcs (fun d hd => ih d (.tail _ hd)) h
    rw [map_cons, prependNAryChildren_cons, strFixedLenRe, ih c mem_cons_self m hm, hrec]
    simp only [bind_some, map_some, Option.some.injEq]
    omega

lemma strFixedLenRe_print (h : getFixedLengthForRegexp r = some n) :
    strFixedLenRe r.print = some n := by
  induction r generalizing n with
  | leaf a => simp [getFixedLengthForRegexp] at h
  | app k cs ih =>
    rw [getFixedLengthForRegexp.eq_def] at h
    split at h
    all_goals rename_i heq
    all_goals try cases heq
    · rw [← h, print_curried rfl]
      rfl
    · rw [← h, print_curried rfl]
      rfl
    · rw [← h, print_curried rfl]
      rfl
    · rw [print_nary rfl]
      refine sameLengths_spec (fun r r1 => by rw [strFixedLenRe]) (fun r r1 => ?_)
        (fun d hd m hm => ih d hd hm) h
      simp
    · rw [print_nary rfl]
      refine sameLengths_spec (fun r r1 => by rw [strFixedLenRe]) (fun r r1 => ?_)
        (fun d hd m hm => ih d hd hm) h
      simp
    · obtain ⟨m, hm, h⟩ := bind_inv h
      rw [print_nary rfl, map_cons, prependNAryChildren_cons, strFixedLenRe,
        ih _ (.head _) hm, sumLengths_spec (fun d hd m hm => ih d (by simp [hd]) hm) h]
      simp
    · cases h

/-! ## Positive memberships -/

lemma reUnfoldPosConcatRec_print (sk : Nat → StrNode) (k : Nat → Nat)
    (hsk : ∀ i, sk i = .var (k i)) (rs : List StrNode) (i : Nat) :
    reUnfoldPosConcatRec k (prependNAryChildren (.sym .reConcat) reEmpty (rs.map StrNode.print)) i =
      some (prependNAryChildren (.sym .strConcat) (.str [])
          ((posComponents sk rs i).1.map StrNode.print),
        mkAnd ((posComponents sk rs i).2.map StrNode.print)) := by
  induction rs generalizing i with
  | nil => rfl
  | cons r rs ih =>
    rw [map_cons, prependNAryChildren_cons, reUnfoldPosConcatRec, ih, map_some]
    by_cases hr : ∃ t, r = mk .strToRe [t]
    · obtain ⟨t, rfl⟩ := hr
      rfl
    have hprint : ∀ u, r.print ≠ .app (.sym .strToRe) u := by
      intro u hu
      obtain ⟨t, ht, _⟩ := of_print_eq_uop hu
      exact hr ⟨t, ht⟩
    have hpos : posComponents sk (r :: rs) i = (sk i :: (posComponents sk rs (i + 1)).1,
        mk .strInRe [sk i, r] :: (posComponents sk rs (i + 1)).2) := by
      rw [posComponents.eq_def]
      split
      · rename_i heq
        cases heq
      · rename_i t _ heq
        cases heq
        exact absurd ⟨t, rfl⟩ hr
      rename_i heq
      cases heq
      rfl
    rw [hpos]
    split
    · rename_i u hu
      exact absurd hu (hprint u)
    simp only [hsk, map_cons, print_var, prependNAryChildren_cons,
      mkAnd_cons, print_curried (s := .strInRe) rfl, map_nil, List.foldl_cons,
      List.foldl_nil]

lemma length_posComponents (sk : Nat → StrNode) (rs : List StrNode) (i : Nat) :
    (posComponents sk rs i).1.length = rs.length := by
  induction rs generalizing i with
  | nil => rfl
  | cons r rs ih =>
    rw [posComponents.eq_def]
    split
    · rename_i heq
      cases heq
    · rename_i heq
      cases heq
      simp only [List.length_cons, ih]
    rename_i heq
    cases heq
    simp only [List.length_cons, ih]

@[simp] lemma print_eqNode (a b : StrNode) : (eqNode a b).print = bop .eq a.print b.print :=
  print_curried rfl _

@[simp] lemma print_negate_eqNode (a b : StrNode) :
    (eqNode a b).negate.print = uop .not (bop .eq a.print b.print) := by
  rw [eqNode, negate]
  · rw [print_curried rfl]
    exact congrArg (uop .not) (print_eqNode a b)
  · simp

@[simp] lemma print_strInRe (s r : StrNode) :
    (mk .strInRe [s, r]).print = bop .strInRe s.print r.print := print_curried rfl _

@[simp] lemma print_negate_strInRe (s r : StrNode) :
    (mk .strInRe [s, r]).negate.print = uop .not (bop .strInRe s.print r.print) := by
  rw [negate]
  · rw [print_curried rfl]
    exact congrArg (uop .not) (print_strInRe s r)
  · simp

lemma mkAnd_eq_true {xs : List Term} : mkAnd xs = .bool true ↔ xs = [] := by
  cases xs with
  | nil => simp
  | cons x xs => simp

lemma print_mk_and (c : StrNode) (cs : List StrNode) :
    (mk .and (c :: cs)).print = mkAnd ((c :: cs).map StrNode.print) := print_nary rfl c cs

variable (κ : Term → Term → Nat → Nat)

abbrev unfolded (s : StrNode) (rs : List StrNode) : List StrNode × List StrNode :=
  posComponents (unfoldSkolem κ s (mk .reConcat rs)) rs 0

lemma reUnfoldPosConcat_print (s r : StrNode) (rs : List StrNode) :
    reUnfoldPosConcat (κ s.print (mk .reConcat (r :: rs)).print) (mk .reConcat (r :: rs)).print =
      some (prependNAryChildren (.sym .strConcat) (.str [])
          ((unfolded κ s (r :: rs)).1.map StrNode.print),
        mkAnd ((unfolded κ s (r :: rs)).2.map StrNode.print)) := by
  have hrec := reUnfoldPosConcatRec_print (unfoldSkolem κ s (mk .reConcat (r :: rs)))
    (κ s.print (mk .reConcat (r :: rs)).print) (fun i => rfl) (r :: rs) 0
  rw [print_nary rfl] at hrec
  rw [reUnfoldPosConcat, print_nary rfl]
  exact hrec

lemma print_reduceRegExpPosConcat (s r : StrNode) (rs : List StrNode) :
    (reduceRegExpPosConcat κ s (r :: rs)).1.print =
      let eq := bop .eq s.print (prependNAryChildren (.sym .strConcat) (.str [])
        ((unfolded κ s (r :: rs)).1.map StrNode.print))
      if (unfolded κ s (r :: rs)).2 = [] then eq
      else bop .and eq (mkAnd ((unfolded κ s (r :: rs)).2.map StrNode.print)) := by
  have hlen := length_posComponents (unfoldSkolem κ s (mk .reConcat (r :: rs))) (r :: rs) 0
  obtain ⟨c, cs, hcs⟩ := List.exists_cons_of_length_eq_add_one hlen
  have hlem : (eqNode s (mk .strConcat (unfolded κ s (r :: rs)).1)).print =
      bop .eq s.print (prependNAryChildren (.sym .strConcat) (.str [])
        ((unfolded κ s (r :: rs)).1.map StrNode.print)) := by
    rw [print_eqNode, unfolded, hcs, print_nary rfl]
  have hdef : (reduceRegExpPosConcat κ s (r :: rs)).1 =
      if (unfolded κ s (r :: rs)).2 = [] then eqNode s (mk .strConcat (unfolded κ s (r :: rs)).1)
      else mk .and (eqNode s (mk .strConcat (unfolded κ s (r :: rs)).1) ::
        (unfolded κ s (r :: rs)).2) := rfl
  rw [hdef]
  by_cases hmems : (unfolded κ s (r :: rs)).2 = []
  · rw [if_pos hmems, if_pos hmems, hlem]
  · rw [if_neg hmems, if_neg hmems, print_mk_and, map_cons, mkAnd_cons, hlem]

lemma posComponents_snd_ne_nil {sk : Nat → StrNode} {i : Nat}
    (h : (posComponents sk rs (i + 1)).2 ≠ []) : (posComponents sk (r :: rs) i).2 ≠ [] := by
  rw [posComponents.eq_def]
  split
  · rename_i heq
    cases heq
  · rename_i heq
    cases heq
    exact h
  · simp

lemma reduceRegExpPos_print (h : reduceRegExpPos κ s r = some c) :
    mkReUnfoldPos (κ s.print (unfoldedConcat r.print)) s.print r.print = some c.print := by
  unfold reduceRegExpPos at h
  split at h
  · rename_i r0 r1 rs
    have hconcat := reUnfoldPosConcat_print κ s r0 (r1 :: rs)
    cases h
    rw [print_reduceRegExpPosConcat]
    obtain ⟨a, b, hab⟩ : ∃ a b, (mk .reConcat (r0 :: r1 :: rs)).print = bop .reConcat a b :=
      ⟨_, _, print_nary rfl _ _⟩
    rw [hab] at hconcat ⊢
    rw [mkReUnfoldPos, unfoldedConcat, hconcat, map_some]
    · simp only [mkAnd_eq_true, List.map_eq_nil_iff]
    all_goals simp
  · rename_i r0
    have hconcat := reUnfoldPosConcat_print κ s r0 [mk .reStar [r0], r0]
    have hprint := print_reduceRegExpPosConcat κ s r0 [mk .reStar [r0], r0]
    have hlen := length_posComponents
      (unfoldSkolem κ s (mk .reConcat [r0, mk .reStar [r0], r0])) [r0, mk .reStar [r0], r0] 0
    obtain ⟨k0, k1, k2, hks⟩ := List.length_eq_three.1 hlen
    -- the star in the middle has a membership
    have hmems : (unfolded κ s [r0, mk .reStar [r0], r0]).2 ≠ [] := by
      refine posComponents_snd_ne_nil ?_
      exact List.cons_ne_nil _ _
    have hstar : (mk .reStar [r0]).print = uop .reStar r0.print := print_curried rfl _
    have hexp : (mk .reConcat [r0, mk .reStar [r0], r0]).print =
        unfoldedConcat (uop .reStar r0.print) := by
      rw [print_nary rfl]
      simp only [map_cons, map_nil, hstar, prependNAryChildren_cons,
        prependNAryChildren_nil, unfoldedConcat]
    have hks' : (reduceRegExpPosConcat κ s [r0, mk .reStar [r0], r0]).2 = [k0, k1, k2] := hks
    simp only [hks', Option.some.injEq] at h
    rw [unfolded, hks] at hconcat
    rw [unfolded, hks, ← unfolded, if_neg hmems] at hprint
    rw [hexp] at hconcat
    rw [hstar, mkReUnfoldPos, hconcat, bind_some, ← h]
    simp only [map_cons, map_nil, prependNAryChildren_cons, prependNAryChildren_nil,
      mkReUnfoldPosStar, print_nary (s := .or) rfl, print_mk_and, print_eqNode, print_strInRe,
      print_negate_eqNode, print_leaf, StrLeaf.print, hprint]
  · cases h

/-! ## Negated memberships -/

/-- A quantified formula of cvc5 is printed as one of the signature. -/
inductive Prints : StrForm → QForm → Prop
  | ground (F : StrNode) : Prints (.ground F) (.ground F.print)
  | and (F : StrNode) {Q : StrForm} {Q' : QForm} (h : Prints Q Q') :
      Prints (.and F Q) (.and F.print Q')
  | forallInt {body : StrNode → StrNode} {body' : Term → Term}
      (h : ∀ i, (body i).print = body' i.print) : Prints (.forallInt body) (.forallInt body')

@[simp] lemma print_lt (a b : StrNode) : (mk .lt [a, b]).print = bop .lt a.print b.print :=
  print_curried rfl _

@[simp] lemma print_leq (a b : StrNode) : (mk .leq [a, b]).print = bop .leq a.print b.print :=
  print_curried rfl _

@[simp] lemma print_minus (a b : StrNode) :
    (mk .minus [a, b]).print = bop .minus a.print b.print := print_curried rfl _

@[simp] lemma print_strLen (a : StrNode) : (mk .strLen [a]).print = uop .strLen a.print :=
  print_curried rfl _

@[simp] lemma print_reStar (a : StrNode) : (mk .reStar [a]).print = uop .reStar a.print :=
  print_curried rfl _

lemma print_substr (a b c : StrNode) :
    (mk .strSubstr [a, b, c]).print = mkSubstr a.print b.print c.print := print_curried rfl _

@[simp] lemma print_mkPrefix (t n : StrNode) :
    (mkPrefix t n).print = strPrefix t.print n.print := print_substr _ _ _

@[simp] lemma print_mkSuffix (t n : StrNode) :
    (mkSuffix t n).print = strSuffixRem t.print n.print := by
  rw [mkSuffix, print_substr, print_minus, print_strLen, strSuffixRem]

@[simp] lemma print_mkSuffixOfLen (t n : StrNode) :
    (mkSuffixOfLen t n).print = strSuffix t.print n.print := by
  rw [mkSuffixOfLen, print_substr, print_minus, print_strLen, strSuffix]

lemma reSingletonElim_print (rs : List StrNode) (index : Nat) (h : rs.eraseIdx index ≠ []) :
    reSingletonElim (prependNAryChildren (.sym .reConcat) reEmpty
      ((rs.eraseIdx index).map StrNode.print)) = some (otherComponents rs index).print := by
  unfold reSingletonElim eoListSingletonElim otherComponents
  rw [getNAryChildren_prepend rfl, map_some]
  match hrs : rs.eraseIdx index with
  | [] => exact absurd hrs h
  | [r] => rfl
  | r :: r' :: rest =>
    simp only [map_cons]
    rw [print_nary rfl]
    rfl

lemma print_orNots (F1 F2 s1 r1 s2 r2 : StrNode) :
    (mk .or [F1, F2, negate (mk .strInRe [s1, r1]), negate (mk .strInRe [s2, r2])]).print =
      orNots F1.print F2.print (bop .strInRe s1.print r1.print) (bop .strInRe s2.print r2.print) := by
  rw [print_nary rfl]
  simp only [map_cons, map_nil, prependNAryChildren_cons, prependNAryChildren_nil,
    print_negate_strInRe, orNots, orNot]

lemma print_orNot (s1 r1 s2 r2 : StrNode) :
    (mk .or [negate (mk .strInRe [s1, r1]), negate (mk .strInRe [s2, r2])]).print =
      orNot (bop .strInRe s1.print r1.print) (bop .strInRe s2.print r2.print) := by
  rw [print_nary rfl]
  simp only [map_cons, map_nil, prependNAryChildren_cons, prependNAryChildren_nil,
    print_negate_strInRe, orNot]

lemma reduceRegExpNeg_print {Q : StrForm} (h : reduceRegExpNeg s r = some Q) :
    ∃ Q', mkReUnfoldNeg s.print r.print = some Q' ∧ Prints Q Q' := by
  unfold reduceRegExpNeg at h
  split at h
  · rename_i r0 r1 rs
    cases h
    have helim : reSingletonElim (prependNAryChildren (.sym .reConcat) reEmpty
        ((r1 :: rs).map StrNode.print)) = some (otherComponents (r0 :: r1 :: rs) 0).print :=
      reSingletonElim_print (r0 :: r1 :: rs) 0 (by simp)
    refine ⟨.forallInt fun i => orNots (bop .lt i (.num 0)) (bop .lt (uop .strLen s.print) i)
      (bop .strInRe (strPrefix s.print i) r0.print)
      (bop .strInRe (strSuffixRem s.print i) (otherComponents (r0 :: r1 :: rs) 0).print),
      ?_, .forallInt fun i => ?_⟩
    · rw [print_nary rfl, map_cons, prependNAryChildren_cons, mkReUnfoldNeg, helim]
      rfl
    · rw [print_orNots, print_lt, print_lt, print_strLen, print_mkPrefix, print_mkSuffix]
      rfl
  · rename_i r0
    cases h
    refine ⟨.and (uop .not (bop .eq s.print (.str []))) (.forallInt fun i =>
      orNots (bop .leq i (.num 0)) (bop .lt (uop .strLen s.print) i)
        (bop .strInRe (strPrefix s.print i) r0.print)
        (bop .strInRe (strSuffixRem s.print i) (uop .reStar r0.print))), ?_, ?_⟩
    · rw [print_reStar, mkReUnfoldNeg]
    have hsne : (eqNode s (str [])).negate.print = uop .not (bop .eq s.print (.str [])) :=
      print_negate_eqNode s (str [])
    rw [← hsne]
    refine .and _ (.forallInt fun i => ?_)
    rw [print_orNots, print_leq, print_lt, print_strLen, print_mkPrefix, print_mkSuffix,
      print_reStar]
    rfl
  · cases h

lemma eoListRev_print (rs : List StrNode) : eoListRev (.sym .reConcat) reEmpty
        (prependNAryChildren (.sym .reConcat) reEmpty (rs.map StrNode.print)) =
      some (prependNAryChildren (.sym .reConcat) reEmpty (rs.reverse.map StrNode.print)) := by
  rw [eoListRev, getNAryChildren_prepend rfl, map_some, List.map_reverse]

lemma reduceRegExpNegConcatFixed_print {r0 r1 : StrNode} {isRev : Bool}

    (hr : (r0 :: r1 :: rs)[if isRev then rs.length + 1 else 0]? = some r)
    (hlen : strFixedLenRe r.print = some n)
    (h : reduceRegExpNegConcatFixed s (r0 :: r1 :: rs) (num n) isRev = some c) :
    reUnfoldNegConcatFixed s.print (mk .reConcat (r0 :: r1 :: rs)).print isRev = some c.print := by
  have hnum : (num n).print = .num n := print_leaf _
  cases isRev with
  | false =>
    simp only [Bool.false_eq_true, if_false, List.getElem?_cons_zero, Option.some.injEq] at hr
    subst hr
    simp only [reduceRegExpNegConcatFixed, Bool.false_eq_true, if_false,
      List.getElem?_cons_zero, map_some, Option.some.injEq] at h
    rw [← h, print_orNot, print_mkPrefix, print_mkSuffix, hnum]
    have helim : reSingletonElim (prependNAryChildren (.sym .reConcat) reEmpty
        ((r1 :: rs).map StrNode.print)) = some (otherComponents (r0 :: r1 :: rs) 0).print :=
      reSingletonElim_print (r0 :: r1 :: rs) 0 (by simp)
    rw [reUnfoldNegConcatFixed, strReRev, if_neg (by simp), bind_some, print_nary rfl,
      map_cons, prependNAryChildren_cons, mkReUnfoldNegConcatFixed, hlen, bind_some,
      if_neg (by simp), helim]
    rfl
  | true =>
    have hlast : (r0 :: r1 :: rs) = (r0 :: r1 :: rs).dropLast ++ [r] := by
      refine (List.dropLast_append_getLast? r ?_).symm
      rw [List.getLast?_eq_getElem?]
      simpa using hr
    have herase : (r0 :: r1 :: rs).eraseIdx (rs.length + 1) = (r0 :: r1 :: rs).dropLast := by
      rw [← List.eraseIdx_length_sub_one]
      rfl
    simp only [reduceRegExpNegConcatFixed, if_true, List.length_cons, Nat.add_sub_cancel] at h hr
    rw [hr, map_some, Option.some.injEq] at h
    have helim : reSingletonElim (prependNAryChildren (.sym .reConcat) reEmpty
        ((r0 :: r1 :: rs).dropLast.map StrNode.print)) =
          some (otherComponents (r0 :: r1 :: rs) (rs.length + 1)).print := by
      rw [← herase]
      exact reSingletonElim_print _ _ (by rw [herase]; simp)
    rw [← h, print_orNot, print_mkSuffixOfLen, print_mkPrefix, print_minus, print_strLen, hnum,
      reUnfoldNegConcatFixed, strReRev, if_pos rfl, print_nary rfl, eoListRev_print,
      bind_some]
    rw [hlast, List.reverse_append, ← hlast]
    simp only [List.reverse_cons, List.reverse_nil, List.nil_append, List.singleton_append,
      map_cons, prependNAryChildren_cons]
    rw [mkReUnfoldNegConcatFixed, hlen, bind_some, if_pos rfl, strReRev, if_pos rfl,
      eoListRev_print, List.reverse_reverse, bind_some, helim]
    rfl

/-! ## Several memberships -/

lemma asMember_eq_some {n : StrNode} (h : asMember n = some m) : n = mk .strInRe [m.1, m.2] := by
  unfold asMember at h
  split at h
  · cases h
    rfl
  · cases h

lemma asNegMember_eq_some {n : StrNode} (h : asNegMember n = some m) :
    n = mk .not [mk .strInRe [m.1, m.2]] := by
  unfold asNegMember at h
  split at h
  · rw [asMember_eq_some h]
  · cases h

lemma mkReConcat_mkAnd (ms : List (Term × Term)) (s1 r1 : Term) :
    mkReConcat (mkAnd (ms.map fun m => bop .strInRe m.1 m.2)) s1 r1 =
      some (bop .strInRe (prependNAryChildren (.sym .strConcat) s1 (ms.reverse.map Prod.fst))
        (prependNAryChildren (.sym .reConcat) r1 (ms.reverse.map Prod.snd))) := by
  induction ms generalizing s1 r1 with
  | nil => rfl
  | cons m ms ih =>
    rw [map_cons, mkAnd_cons, mkReConcat, ih, List.reverse_cons, List.map_append,
      List.map_append, prependNAryChildren_append, prependNAryChildren_append]
    rfl

variable {children : List StrNode}

lemma mapM_asMember {ms : List (StrNode × StrNode)}
    (h : children.mapM asMember = some ms) : children = ms.map fun m => mk .strInRe [m.1, m.2] := by
  induction children generalizing ms with
  | nil =>
    cases h
    rfl
  | cons c cs ih =>
    rw [List.mapM_cons] at h
    obtain ⟨m, hm, h⟩ := bind_inv h
    obtain ⟨ms', hms, h⟩ := bind_inv h
    cases h
    rw [map_cons, ← ih hms, ← asMember_eq_some hm]

lemma checkReConcat_print (h : checkReConcat children = some c) :
    reConcatRule (children.map StrNode.print) = some c.print := by
  unfold checkReConcat at h
  split at h
  · cases h
  rename_i hlen
  obtain ⟨ms, hms, rfl⟩ := map_inv h
  have hchildren := mapM_asMember hms
  have hne : ms ≠ [] := by
    rintro rfl
    rw [hchildren] at hlen
    simp at hlen
  obtain ⟨m, ms, rfl⟩ := List.exists_cons_of_ne_nil hne
  have hprint : children.map StrNode.print =
      ((m :: ms).map fun m => (m.1.print, m.2.print)).map fun m => bop .strInRe m.1 m.2 := by
    rw [hchildren, map_map, map_map]
    refine List.map_congr_left fun m _ => ?_
    exact print_strInRe m.1 m.2
  rw [hprint, reConcatRule, mkAnd, eoListRev, getNAryChildren_prepend rfl, map_some,
    bind_some, ← List.map_reverse, ← mkAnd, mkReConcat_mkAnd, List.reverse_reverse,
    print_strInRe]
  have hfst := print_nary (s := .strConcat) rfl m.1 (ms.map Prod.fst)
  have hsnd := print_nary (s := .reConcat) rfl m.2 (ms.map Prod.snd)
  rw [← map_cons, map_map] at hfst hsnd
  rw [hfst, hsnd, map_map, map_map]
  rfl

/-- The signature takes two memberships where cvc5 takes any number, and concludes the same. -/
lemma checkReInter_print (h : checkReInter children = some c) :
    reInterRule (children.map StrNode.print) = some c.print ↔ children.length = 2 := by
  constructor
  · intro hrule
    unfold reInterRule at hrule
    split at hrule
    · rename_i heq
      have hlen := congrArg List.length heq
      simpa using hlen
    · cases hrule
  intro hlen
  obtain ⟨c1, c2, rfl⟩ := List.length_eq_two.1 hlen
  unfold checkReInter at h
  obtain ⟨⟨x, rs⟩, hloop, h⟩ := bind_inv h
  simp only [interLoop, Option.getD_none, if_true] at hloop
  obtain ⟨m1, hm1, hloop⟩ := bind_inv hloop
  obtain ⟨res, hloop, hres⟩ := map_inv hloop
  obtain ⟨m2, hm2, hloop⟩ := bind_inv hloop
  rw [Option.getD_some] at hloop
  split at hloop
  swap
  · cases hloop
  rename_i hx
  cases hloop
  cases hres
  cases h
  rw [asMember_eq_some hm1, asMember_eq_some hm2, hx]
  simp only [map_cons, map_nil, print_strInRe, reInterRule, if_true,
    print_nary (s := .reInter) rfl, prependNAryChildren_cons, prependNAryChildren_nil]

/-! ## The rules -/

/-- The regular expression rules of cvc5 conclude what the rules of the signature conclude on the
printed premises; `RE_INTER` does so on two premises. -/
theorem checkRe_print (κ : Term → Term → Nat → Nat) :
    (∀ r n, getFixedLengthForRegexp r = some n → strFixedLenRe r.print = some n) ∧
    (∀ child c, checkReUnfoldPos κ child = some c → ∃ s r, child = mk .strInRe [s, r] ∧
      mkReUnfoldPos (κ s.print (unfoldedConcat r.print)) s.print r.print = some c.print) ∧
    (∀ child Q, checkReUnfoldNeg child = some Q → ∃ s r, child = mk .not [mk .strInRe [s, r]] ∧
      ∃ Q', mkReUnfoldNeg s.print r.print = some Q' ∧ Prints Q Q') ∧
    (∀ child isRev c, checkReUnfoldNegConcatFixed child isRev = some c →
      ∃ s r, child = mk .not [mk .strInRe [s, r]] ∧
        reUnfoldNegConcatFixed s.print r.print isRev = some c.print) ∧
    (∀ children c, checkReConcat children = some c →
      reConcatRule (children.map StrNode.print) = some c.print) ∧
    ∀ children c, checkReInter children = some c →
      (reInterRule (children.map StrNode.print) = some c.print ↔ children.length = 2) := by
  refine ⟨fun r n h => strFixedLenRe_print h, ?_, ?_, ?_, fun cs c h => checkReConcat_print h,
    fun cs c h => checkReInter_print h⟩
  · intro child c h
    obtain ⟨m, hm, h⟩ := bind_inv h
    exact ⟨m.1, m.2, asMember_eq_some hm, reduceRegExpPos_print κ h⟩
  · intro child Q h
    obtain ⟨m, hm, h⟩ := bind_inv h
    exact ⟨m.1, m.2, asNegMember_eq_some hm, reduceRegExpNeg_print h⟩
  intro child isRev c h
  obtain ⟨⟨s, r⟩, hm, h⟩ := bind_inv h
  refine ⟨s, r, asNegMember_eq_some hm, ?_⟩
  simp only at h
  split at h
  · obtain ⟨r', hr, h⟩ := bind_inv h
    obtain ⟨n, hn, h⟩ := bind_inv h
    exact reduceRegExpNegConcatFixed_print hr (strFixedLenRe_print hn) h
  · cases h

/-- Three memberships of one string are summarized by cvc5 only. -/
theorem checkReInter_three :
    let mem := mk .strInRe [.var 0, mk .reAllchar []]
    (checkReInter [mem, mem, mem]).isSome = true ∧
      reInterRule ([mem, mem, mem].map StrNode.print) = none := by
  decide

end EthosCpc.Cvc5
