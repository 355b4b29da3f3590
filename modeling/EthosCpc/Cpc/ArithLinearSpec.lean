import EthosCpc.Cpc.ArithLinear

/-!
# Soundness of the linear arithmetic rules

All rules but one are sound: their programs name the relation symbols they
handle, and a conclusion that type checks forces every term involved to be
of one arithmetic type.

The exception is `arith_mult_pos`.  It multiplies both sides of `(r a b)`
for any binary `r`, and with a predicate that a user declares the result
does not follow.  `arithMultPos_sound_iff` says that these are the only
failures: the rule is sound for `r` exactly if `r` is not a term of type
`T → T → Bool` over an arithmetic type `T`, that is, if `r` is a symbol of
the signature.
-/

namespace EthosCpc

open Term (bop uop)
open Option (some.inj)

variable {Γ : Nat → Ty} {I : Interp Γ}

/-! ## Products -/

variable {a m r b c F : Term}

lemma typeof_mkNary_times {S : Ty} (h : mkNary Γ .times m [a] = some r) (hr : typeof Γ r = some S) :
    typeof Γ m = some S ∧ typeof Γ a = some S ∧ (S = .int ∨ S = .real) := by
  obtain ⟨nil, -, rfl⟩ := map_inv h
  obtain ⟨S', hm, hrest, hS', rfl⟩ := typeof_arith2_inv (R := id) rfl rfl hr
  obtain ⟨S'', ha, _, _, hSS⟩ := typeof_arith2_inv (R := id) rfl rfl hrest
  cases hSS
  exact ⟨hm, ha, hS'⟩

/-! ## `arith_sum_ub` -/

lemma arithRelSum_spec {r1 r2 : Term} (h : arithRelSum r1 r2 a b = some c) :
    ∃ s1 s2 s, r1 = .sym s1 ∧ r2 = .sym s2 ∧ IsRel s1 ∧ IsRel s2 ∧ (s = .lt ∨ s = .leq) ∧
      c = bop s a b ∧ ∀ {x1 y1 x2 y2 : ℝ}, relHolds s1 x1 y1 → relHolds s2 x2 y2 →
        relHolds s (x1 + x2) (y1 + y2) := by
  unfold arithRelSum at h
  split at h <;> first | contradiction | skip
  all_goals
    cases h
    refine ⟨_, _, _, rfl, rfl, by simp [IsRel], by simp [IsRel], by simp, rfl, ?_⟩
    intro x1 y1 x2 y2 h1 h2
    simp only [relHolds] at *
    linarith

lemma mkArithSumUbRec_spec : ∀ {F acc c : Term}, mkArithSumUbRec F acc = some c → Sat I F →
      (typeof Γ acc = some .bool → Sat I acc) → typeof Γ c = some .bool → Sat I c := by
  intro F acc
  induction F, acc using mkArithSumUbRec.induct with
  | case1 acc =>
    intro c h _ hacc hc
    cases h
    exact hacc hc
  | case2 r1 a1 b1 tail r2 a2 b2 ih =>
    intro c h hsat hacc hc
    rw [mkArithSumUbRec] at h
    obtain ⟨acc', hsum, hrec⟩ := bind_inv h
    obtain ⟨hhead, htail⟩ := sat_and.1 hsat
    refine ih acc' hrec htail ?_ hc
    intro hty
    obtain ⟨s1, s2, s, rfl, rfl, hs1, hs2, hs, rfl, hadd⟩ := arithRelSum_spec hsum
    -- the sum type checks, so its four summands are of one arithmetic type
    obtain ⟨T, hpa, hpb, hT⟩ : ∃ T, typeof Γ (bop .plus a1 a2) = some T ∧
        typeof Γ (bop .plus b1 b2) = some T ∧ (T = .int ∨ T = .real) := by
      rcases hs with rfl | rfl
      · obtain ⟨T, h1, h2, h3, _⟩ := typeof_arith2_inv (R := fun _ => .bool) rfl rfl hty
        exact ⟨T, h1, h2, h3⟩
      · obtain ⟨T, h1, h2, h3, _⟩ := typeof_arith2_inv (R := fun _ => .bool) rfl rfl hty
        exact ⟨T, h1, h2, h3⟩
    obtain ⟨Ta, ha1, ha2, -, rfl⟩ := typeof_arith2_inv (R := id) rfl rfl hpa
    obtain ⟨Tb, hb1, hb2, _, hTb⟩ := typeof_arith2_inv (R := id) rfl rfl hpb
    cases hTb
    obtain ⟨x1, hx1⟩ := arithVal_of_typeof (I := I) ha1 hT
    obtain ⟨y1, hy1⟩ := arithVal_of_typeof (I := I) hb1 hT
    obtain ⟨x2, hx2⟩ := arithVal_of_typeof (I := I) ha2 hT
    obtain ⟨y2, hy2⟩ := arithVal_of_typeof (I := I) hb2 hT
    have h1 := (boolVal_isRel hs1 hx1 hy1).sat.1 hhead
    have h2 := (boolVal_isRel hs2 hx2 hy2).sat.1 (hacc (typeof_isRel hs2 hT ha2 hb2))
    have hsIs : IsRel s := by
      rcases hs with rfl | rfl <;> simp [IsRel]
    exact (boolVal_isRel hsIs (arithVal_plus hx1 hx2) (arithVal_plus hy1 hy2)).sat.2 (hadd h1 h2)
  | case3 F acc h1 h2 =>
    intro c h
    rw [mkArithSumUbRec] at h
    · contradiction
    · exact h1
    · exact h2

lemma arithSumUb_sat {Fs : List Term} (h : arithSumUb Γ Fs = some c)
    (hc : typeof Γ c = some .bool) (hFs : ∀ F ∈ Fs, Sat I F) : Sat I c := by
  have hsat : Sat I (mkAnd Fs) := sat_mkAnd.2 hFs
  unfold arithSumUb mkArithSumUb at h
  split at h
  swap
  · cases h
  rename_i r a b tail heq
  obtain ⟨F, hF, h⟩ := bind_inv h
  obtain ⟨zero, hzero, h⟩ := bind_inv h
  obtain ⟨xs, hxs, rfl⟩ := eoListRev_spec hF
  obtain ⟨T, _, hzero⟩ := bind_inv hzero
  have hz : ArithVal I T zero 0 := arithVal_zero hzero
  refine mkArithSumUbRec_spec h ?_ ?_ hc
  · have hxsat : Sat I (mkAnd xs) := by
      have hand : mkAnd Fs = mkAnd xs := heq.trans (eq_of_getNAryChildren hxs)
      exact hand ▸ hsat
    have hxsat := sat_mkAnd.1 hxsat
    exact sat_mkAnd.2 fun F hF => hxsat F (List.mem_reverse.1 hF)
  · intro _
    exact (boolVal_arithEq hz hz).sat.2 rfl

/-! ## `arith_mult_neg` -/

lemma arithRelInv_spec (h : arithRelInv r a b = some c) :
    ∃ s s', r = .sym s ∧ IsRel s ∧ IsRel s' ∧ c = bop s' a b ∧
      ∀ {m x y : ℝ}, m < 0 → relHolds s x y → relHolds s' (m * x) (m * y) := by
  unfold arithRelInv at h
  split at h <;> first | contradiction | skip
  all_goals
    cases h
    refine ⟨_, _, rfl, by simp [IsRel], by simp [IsRel], rfl, ?_⟩
    intro m x y hm hxy
    simp only [relHolds] at *
  · rw [hxy]
  · exact mul_lt_mul_of_neg_left hxy hm
  · exact mul_le_mul_of_nonpos_left hxy hm.le
  · exact mul_lt_mul_of_neg_left hxy hm
  · exact mul_le_mul_of_nonpos_left hxy hm.le

variable {s : Sym}

lemma typeof_isRel_inv (hs : IsRel s)
    (h : typeof Γ (bop s a b) = some .bool) : ∃ S, typeof Γ a = some S ∧ typeof Γ b = some S := by
  rcases hs with rfl | rfl | rfl | rfl | rfl
  case inr.inr.inr.inr =>
    obtain ⟨A, B, hA, hB, h⟩ := typeof_bop_inv rfl h
    obtain ⟨t, t', S, heq, _⟩ := tyEq_inv (show tyEq [(a, A), (b, B)] = some _ from h)
    cases heq
    exact ⟨_, hA, hB⟩
  all_goals
    obtain ⟨S, hA, hB, _⟩ := typeof_arith2_inv (R := fun _ => .bool) rfl rfl h
    exact ⟨S, hA, hB⟩

lemma arithMultNeg_sat (h : arithMultNeg Γ m F = some c)
    (hc : typeof Γ c = some .bool) : Sat I c := by
  unfold arithMultNeg at h
  obtain ⟨zero, hzero, h⟩ := bind_inv h
  obtain ⟨G, hG, rfl⟩ := map_inv h
  obtain ⟨T, hm, hzero⟩ := bind_inv hzero
  have hz : ArithVal I T zero 0 := arithVal_zero hzero
  refine sat_imp hc fun hsat => ?_
  have hsat := sat_mkAnd.1 hsat
  have hGty := (typeof_connective_inv rfl rfl hc).2
  unfold mkArithMultNeg at hG
  split at hG
  swap
  · cases hG
  rename_i r a b
  obtain ⟨ma, hma, hG⟩ := bind_inv hG
  obtain ⟨mb, hmb, hG⟩ := bind_inv hG
  obtain ⟨s, s', rfl, hs, hs', rfl, hinv⟩ := arithRelInv_spec hG
  obtain ⟨S, hmaS, hmbS⟩ := typeof_isRel_inv hs' hGty
  obtain ⟨hm', ha, hS⟩ := typeof_mkNary_times hma hmaS
  obtain ⟨_, hb, _⟩ := typeof_mkNary_times hmb hmbS
  cases hm.symm.trans hm'
  obtain ⟨x, hx⟩ := arithVal_of_typeof (I := I) hm hS
  obtain ⟨y, hy⟩ := arithVal_of_typeof (I := I) ha hS
  obtain ⟨w, hw⟩ := arithVal_of_typeof (I := I) hb hS
  have hneg : x < 0 := (boolVal_lt hx hz).sat.1 (hsat _ (by simp))
  have hrel := (boolVal_isRel hs hy hw).sat.1 (hsat _ (by simp))
  exact (boolVal_isRel hs' (arithVal_mkNary_times hma hx hy)
    (arithVal_mkNary_times hmb hx hw)).sat.2 (hinv hneg hrel)

/-! ## `arith_trichotomy` -/

lemma arithNormalizeLit_inv {G : Term} (h : arithNormalizeLit (uop .not F) = some G) :
    F = uop .not G ∨ ∃ r s a b, F = bop r a b ∧ G = bop s a b ∧
      (r = .lt ∧ s = .geq ∨ r = .leq ∧ s = .gt ∨ r = .gt ∧ s = .leq ∨ r = .geq ∧ s = .lt) := by
  unfold arithNormalizeLit at h
  split at h
  · rename_i r a b heq
    cases heq
    cases h
    exact .inl rfl
  · rename_i r a b _ heq
    cases heq
    right
    unfold arithRelNeg at h
    split at h <;> first | contradiction | skip
    all_goals
      cases h
      exact ⟨_, _, _, _, rfl, rfl, by simp⟩
  · rename_i heq
    cases heq
  · cases h

lemma arithNormalizeLit_spec {G : Term} (h : arithNormalizeLit (uop .not F) = some G)
    (hF : Sat I F) {p : Prop} (hG : BoolVal I G p) : ¬ p := by
  rcases arithNormalizeLit_inv h with rfl | ⟨r, s, a, b, rfl, rfl, hrs⟩
  · exact fun hp => ((sat_not.1 hF).unique hG).2 hp
  rcases hrs with ⟨rfl, rfl⟩ | ⟨rfl, rfl⟩ | ⟨rfl, rfl⟩ | ⟨rfl, rfl⟩
  all_goals obtain ⟨T, x, y, hx, hy⟩ := boolVal_rel_inv rfl rfl hG
  · have := (boolVal_lt hx hy).sat.1 hF
    rw [hG.unique (boolVal_geq hx hy)]
    linarith
  · have := (boolVal_leq hx hy).sat.1 hF
    rw [hG.unique (boolVal_gt hx hy)]
    linarith
  · have := (boolVal_gt hx hy).sat.1 hF
    rw [hG.unique (boolVal_leq hx hy)]
    linarith
  · have := (boolVal_geq hx hy).sat.1 hF
    rw [hG.unique (boolVal_lt hx hy)]
    linarith

/-- A premise that normalizes to a strict inequality compares numbers. -/
lemma arithVal_of_normalizeLit (hs : s = .gt ∨ s = .lt)
    (h : arithNormalizeLit (uop .not F) = some (bop s a b)) (hF : Sat I F) :
    ∃ T x y, ArithVal I T a x ∧ ArithVal I T b y := by
  rcases arithNormalizeLit_inv h with rfl | ⟨r, s', a', b', rfl, heq, hrs⟩
  · rcases hs with rfl | rfl
    · exact boolVal_rel_inv rfl rfl (sat_not.1 hF)
    · exact boolVal_rel_inv rfl rfl (sat_not.1 hF)
  cases heq
  rcases hrs with ⟨rfl, -⟩ | ⟨rfl, -⟩ | ⟨rfl, -⟩ | ⟨rfl, -⟩
  all_goals exact boolVal_rel_inv rfl rfl (sat_iff_boolVal.1 hF)

/-- Two of the three cases are excluded, so the third holds. -/
lemma arithRelTrichotomy_spec {r1 r2 : Term} (h : arithRelTrichotomy r1 r2 a b = some c) :
    ∃ s1 s2 s, r1 = .sym s1 ∧ r2 = .sym s2 ∧ IsRel s1 ∧ IsRel s2 ∧ c = bop s a b ∧
      (s = .gt ∨ s = .lt ∨ s = .eq ∧ (s1 = .gt ∨ s1 = .lt)) ∧
      ∀ {x y : ℝ}, ¬ relHolds s1 x y → ¬ relHolds s2 x y → relHolds s x y := by
  unfold arithRelTrichotomy at h
  split at h <;> first | contradiction | skip
  all_goals
    cases h
    refine ⟨_, _, _, rfl, rfl, by simp [IsRel], by simp [IsRel], rfl, by simp, ?_⟩
    intro x y h1 h2
    simp only [relHolds, not_lt, gt_iff_lt] at *
  · exact lt_of_le_of_ne h2 (Ne.symm h1)
  · exact lt_of_le_of_ne h2 h1
  · exact lt_of_le_of_ne h1 h2
  · exact lt_of_le_of_ne h1 (Ne.symm h2)
  · exact le_antisymm h1 h2
  · exact le_antisymm h2 h1

lemma mkArithTrichotomy_inv {G1 G2 : Term} (h : mkArithTrichotomy G1 G2 = some c) :
    ∃ r1 r2 a b, G1 = .app (.app r1 a) b ∧ G2 = .app (.app r2 a) b ∧
      arithRelTrichotomy r1 r2 a b = some c := by
  unfold mkArithTrichotomy at h
  split at h
  swap
  · cases h
  split at h
  · rename_i hab
    rw [hab.1, hab.2]
    exact ⟨_, _, _, _, rfl, rfl, h⟩
  · cases h

lemma arithTrichotomy_sat {F1 F2 : Term} (h : arithTrichotomy F1 F2 = some c)
    (hc : typeof Γ c = some .bool) (h1 : Sat I F1) (h2 : Sat I F2) : Sat I c := by
  unfold arithTrichotomy at h
  obtain ⟨G1, hG1, h⟩ := bind_inv h
  obtain ⟨G2, hG2, hmk⟩ := bind_inv h
  obtain ⟨r1, r2, a, b, rfl, rfl, hrule⟩ := mkArithTrichotomy_inv hmk
  obtain ⟨s1, s2, s, rfl, rfl, hs1, hs2, rfl, hs, htri⟩ := arithRelTrichotomy_spec hrule
  have hrel : IsRel s := by
    rcases hs with rfl | rfl | ⟨rfl, -⟩ <;> simp [IsRel]
  obtain ⟨T, x, y, hx, hy⟩ : ∃ T x y, ArithVal I T a x ∧ ArithVal I T b y := by
    rcases hs with rfl | rfl | ⟨rfl, hs1'⟩
    · exact boolVal_rel_inv rfl rfl (boolVal_of_typeof hc)
    · exact boolVal_rel_inv rfl rfl (boolVal_of_typeof hc)
    · -- the type of `(= a b)` says nothing, but the first premise compares the terms
      exact arithVal_of_normalizeLit hs1' hG1 h1
  have hn1 := arithNormalizeLit_spec hG1 h1 (boolVal_isRel hs1 hx hy)
  have hn2 := arithNormalizeLit_spec hG2 h2 (boolVal_isRel hs2 hx hy)
  exact (boolVal_isRel hrel hx hy).sat.2 (htri hn1 hn2)

/-! ## Tightening -/

variable {T : Ty}

private lemma int_of_typeof_num (hs : s.arity = 2)
    (hty : symTy s = tyArith2 fun _ => .bool) {n : Int}
    (h : typeof Γ (bop s a (.num n)) = some T) : typeof Γ a = some .int := by
  obtain ⟨S, ha, hn, _, _⟩ := typeof_arith2_inv hs hty h
  cases hn
  exact ha

private lemma int_lit {t : Term} {n : Int} {x : ℝ} (ht : eoToZ t = some n)
    (hx : ArithVal I .int t x) : t = .num n ∧ x = n := by
  rcases arithVal_of_eoToZ ht hx with ⟨-, h, h'⟩ | ⟨q, h, -⟩
  · exact ⟨h, h'⟩
  · contradiction

lemma intTightUb_sat (h : intTightUb F = some c) (hc : typeof Γ c = some .bool)
    (hF : Sat I F) : Sat I c := by
  unfold intTightUb at h
  split at h
  swap
  · cases h
  rename_i s t
  obtain ⟨g, hg, rfl⟩ := map_inv h
  unfold greatestIntLt at hg
  obtain ⟨n, hn, hg⟩ := bind_inv hg
  obtain ⟨q, hq, hg⟩ := map_inv hg
  obtain ⟨k, rfl⟩ : ∃ k, g = .num k := by
    rw [← hg]
    split <;> exact ⟨_, rfl⟩
  have hs : typeof Γ s = some .int := int_of_typeof_num rfl rfl hc
  obtain ⟨z, hz⟩ := intVal_of_typeof (I := I) hs
  obtain ⟨T, x, y, hx, hy⟩ := boolVal_rel_inv rfl rfl (sat_iff_boolVal.1 hF)
  obtain ⟨rfl, rfl⟩ := (arithVal_int hz).unique hx
  obtain ⟨rfl, rfl⟩ := int_lit hn hy
  have hlt : z < n := Int.cast_lt.1 ((boolVal_lt hx hy).sat.1 hF)
  -- the literal is an integer, so the program subtracts one
  have hk : k = -1 + n := by
    cases hq
    simpa using hg.symm
  refine (boolVal_leq hx (arithVal_int (value_num I k))).sat.2 (Int.cast_le.2 ?_)
  omega

lemma intTightLb_sat (h : intTightLb F = some c) (hc : typeof Γ c = some .bool)
    (hF : Sat I F) : Sat I c := by
  unfold intTightLb at h
  split at h
  swap
  · cases h
  rename_i s t
  obtain ⟨g, hg, rfl⟩ := map_inv h
  obtain ⟨n, hn, rfl⟩ := map_inv hg
  have hs : typeof Γ s = some .int := int_of_typeof_num rfl rfl hc
  obtain ⟨z, hz⟩ := intVal_of_typeof (I := I) hs
  obtain ⟨T, x, y, hx, hy⟩ := boolVal_rel_inv rfl rfl (sat_iff_boolVal.1 hF)
  obtain ⟨rfl, rfl⟩ := (arithVal_int hz).unique hx
  obtain ⟨rfl, rfl⟩ := int_lit hn hy
  have hgt : n < z := Int.cast_lt.1 ((boolVal_gt hx hy).sat.1 hF)
  refine (boolVal_geq hx (arithVal_int (value_num I _))).sat.2 (Int.cast_le.2 ?_)
  omega

/-! ## `arith_mult_pos` for the symbols of the signature -/

lemma isRel_of_symTy (hT : T = .int ∨ T = .real) (h : symTy s [(a, T), (b, T)] = some .bool) :
    IsRel s ∨ (s = .divisible ∧ T = .int) := by
  cases s <;> dsimp only [symTy] at h <;> try simp only [reduceCtorEq] at h
  case lt | leq | gt | geq => exact .inl (by simp [IsRel])
  case eq => exact .inl (by simp [IsRel])
  case divisible =>
    obtain ⟨_, _, heq, _⟩ := tyFn2_inv h
    cases heq
    exact .inr ⟨rfl, rfl⟩
  case ite =>
    obtain ⟨_, _, _, heq⟩ := tyIte_inv h
    simp at heq
  case not | toInt | isInt | intPow2 | intLog2 | intIspow2 | strToRe | strToLower | strToUpper |
      strToCode | strFromCode | strIsDigit | strToInt | strFromInt | reStar | rePlus | reOpt |
      reComp =>
    obtain ⟨_, heq, _⟩ := tyFn1_inv h
    simp at heq
  case or | and | imp | xor | strLt | strLe =>
    obtain ⟨_, _, heq, _⟩ := tyFn2_inv h
    cases heq
    simp at hT
  case strInRe =>
    obtain ⟨_, _, heq, _⟩ := tyFn2_inv h
    cases heq
  case strReplaceRe | strReplaceReAll | strIndexofRe | reLoop =>
    obtain ⟨_, _, _, heq, _⟩ := tyFn3_inv h
    simp at heq
  case strLen | strRev =>
    obtain ⟨_, _, heq, _⟩ := tySeq1_inv h
    simp at heq
  case strContains | strPrefixof | strSuffixof =>
    obtain ⟨_, _, _, heq, _⟩ := tySeqRel_inv h
    cases heq
    simp at hT
  case strAt =>
    obtain ⟨_, _, _, _, hS⟩ := tySeqAt_inv h
    contradiction
  case strSubstr =>
    obtain ⟨_, _, _, _, heq, _⟩ := tySubstr_inv h
    simp at heq
  case strReplace | strReplaceAll =>
    obtain ⟨_, _, _, _, heq, _⟩ := tySeq3_inv h
    simp at heq
  case strIndexof =>
    obtain ⟨_, _, _, _, heq, _⟩ := tyIndexof_inv h
    simp at heq
  case strUpdate =>
    obtain ⟨_, _, _, _, heq, _⟩ := tyUpdate_inv h
    simp at heq
  case seqNth =>
    obtain ⟨_, _, heq, _⟩ := tyNth_inv h
    cases heq
  case seqUnit | purify =>
    obtain ⟨_, _, heq, _⟩ := tyAny1_inv h
    simp at heq
  case div | mod | divTotal | modTotal | reConcat | reInter | reUnion | reDiff | rePow | reRange =>
    obtain ⟨_, _, _, hS⟩ := tyFn2_inv h
    contradiction
  case plus | minus | times | qdiv | qdivTotal =>
    obtain ⟨_, _, _, -, rfl | rfl, hS⟩ := tyArith2_inv h <;> contradiction
  case toReal | abs | uminus =>
    obtain ⟨_, _, heq, _⟩ := tyArith1_inv h
    simp at heq
  case bvsize | bvnot | bvneg | ubvToInt | sbvToInt =>
    obtain ⟨_, _, heq, _⟩ := tyBv1_inv h
    simp at heq
  case concat =>
    obtain ⟨_, _, _, _, _, hS⟩ := tyConcat_inv h
    contradiction
  case extract =>
    obtain ⟨_, _, _, _, _, _, heq, _⟩ := tyExtract_inv h
    simp at heq
  case bvrepeat | zeroExtend | signExtend =>
    obtain ⟨_, _, _, _, _, _, hS⟩ := tyBvIdx_inv h
    contradiction
  case bvand | bvor | bvxor | bvadd | bvmul | bvudiv | bvurem | bvsub | bvult | bvule | bvugt |
      bvuge | bvslt | bvsle | bvsgt | bvsge | bvshl | bvlshr | bvashr | bvxnor | bvcomp | bvumulo |
      bvsmulo | bvultbv | bvsltbv =>
    obtain ⟨_, _, _, heq, _⟩ := tyBv2_inv h
    cases heq
    simp at hT
  case bvite =>
    obtain ⟨_, _, _, heq⟩ := tyBvite_inv h
    simp at heq
  case bit =>
    obtain ⟨_, _, _, heq, _⟩ := tyBit_inv h
    cases heq
  case fromBools =>
    obtain ⟨_, _, _, _, hS⟩ := tyFromBools_inv h
    contradiction
  case bv =>
    obtain ⟨_, _, _, _, _, hS⟩ := tyBvLit_inv h
    contradiction
  case intToBv =>
    obtain ⟨_, _, _, _, _, hS⟩ := tyIntToBv_inv h
    contradiction
  case seqEmpty | reNone | reAll | reAllchar =>
    obtain ⟨heq, _⟩ := tyConst_inv h
    simp at heq
  case strConcat =>
    obtain ⟨_, _, _, _, hS⟩ := tySeq2_inv h
    contradiction

/-- A term of function type over numbers: a predicate that a user declares, or
a term that yields one. -/
def IsUserRel (Γ : Nat → Ty) (r : Term) : Prop :=
  ∃ T, (T = .int ∨ T = .real) ∧ typeof Γ r = some (.fn T (.fn T .bool))

/-- A head that relates two numbers is a symbol of the signature or a term of
function type. -/
lemma sym_of_not_isUserRel (hr : ¬ IsUserRel Γ r)
    (hT : T = .int ∨ T = .real) (ha : typeof Γ a = some T) (hb : typeof Γ b = some T)
    (h : typeof Γ (.app (.app r a) b) = some .bool) :
    ∃ s, r = .sym s ∧ (IsRel s ∨ s = .divisible ∧ T = .int) := by
  obtain ⟨A, B, hA, hB, hcase⟩ := typeof_app2_inv h
  obtain rfl : A = T := some.inj (hA.symm.trans ha)
  obtain rfl : B = A := some.inj (hB.symm.trans hb)
  rcases hcase with hfn | ⟨-, -, -, hite⟩ | ⟨s, args, hpart, harity, hsym⟩
  · exact absurd ⟨B, hT, hfn⟩ hr
  · rcases hT with rfl | rfl <;> contradiction
  cases args with
  | nil => exact ⟨s, eq_sym_of_tyDen hpart, isRel_of_symTy hT hsym⟩
  | cons p args =>
    -- a ternary symbol: `ite` and `bvite` return the type of their branches, the others
    -- never a Boolean
    cases s <;> simp [Sym.arity.eq_def] at harity
    case ite =>
      obtain ⟨_, _, _, heq⟩ := tyIte_inv hsym
      cases args with
      | nil =>
        cases heq
        simp at hT
      | cons q args => simp at harity
    case bvite =>
      obtain ⟨_, _, _, heq⟩ := tyBvite_inv hsym
      cases args with
      | nil =>
        cases heq
        simp at hT
      | cons q args => simp at harity
    case extract =>
      obtain ⟨_, _, _, _, _, _, _, _, _, _, hS⟩ := tyExtract_inv hsym
      contradiction
    case strSubstr =>
      obtain ⟨_, _, _, _, _, hS⟩ := tySubstr_inv hsym
      contradiction
    case strReplace | strReplaceAll =>
      obtain ⟨_, _, _, _, _, hS⟩ := tySeq3_inv hsym
      contradiction
    case strIndexof =>
      obtain ⟨_, _, _, _, _, hS⟩ := tyIndexof_inv hsym
      contradiction
    case strUpdate =>
      obtain ⟨_, _, _, _, _, hS⟩ := tyUpdate_inv hsym
      contradiction
    case strReplaceRe | strReplaceReAll | strIndexofRe | reLoop =>
      obtain ⟨_, _, _, _, hS⟩ := tyFn3_inv hsym
      contradiction

lemma relHolds_mul_pos {m x y : ℝ} (hm : 0 < m) (h : relHolds s x y) :
    relHolds s (m * x) (m * y) := by
  cases s <;> simp only [relHolds] at *
  · rw [h]
  · exact mul_lt_mul_of_pos_left h hm
  · exact mul_le_mul_of_nonneg_left h hm.le
  · exact mul_lt_mul_of_pos_left h hm
  · exact mul_le_mul_of_nonneg_left h hm.le

lemma boolVal_divisible {x y : Int} (ha : value I a = some (Val.int x))
    (hb : value I b = some (Val.int y)) : BoolVal I (bop .divisible a b) (x ∣ y) := by
  unfold BoolVal
  rw [value_bop I rfl, ha, hb]
  rfl

lemma arithMultPos_sat (hr : ¬ IsUserRel Γ r)
    (h : arithMultPos Γ m (.app (.app r a) b) = some c) (hc : typeof Γ c = some .bool) :
    Sat I c := by
  unfold arithMultPos mkArithMultPos at h
  obtain ⟨zero, hzero, hmap⟩ := bind_inv h
  obtain ⟨G, hG, rfl⟩ := map_inv hmap
  obtain ⟨ma, hma, hmap'⟩ := bind_inv hG
  obtain ⟨mb, hmb, rfl⟩ := map_inv hmap'
  obtain ⟨T, hm, hzero⟩ := bind_inv hzero
  have hz : ArithVal I T zero 0 := arithVal_zero hzero
  have hGty := (typeof_connective_inv rfl rfl hc).2
  refine sat_imp hc fun hsat => ?_
  have hsat := sat_mkAnd.1 hsat
  -- both products, and so all three terms, are of the type of `m`
  obtain ⟨A, B, hA, hB, _⟩ := typeof_app2_inv hGty
  obtain ⟨hm', ha, hT⟩ := typeof_mkNary_times hma hA
  obtain ⟨hm'', hb, _⟩ := typeof_mkNary_times hmb hB
  cases hm.symm.trans hm'
  cases hm.symm.trans hm''
  obtain ⟨s, rfl, hs⟩ := sym_of_not_isUserRel hr hT hA hB hGty
  obtain ⟨x, hx⟩ := arithVal_of_typeof (I := I) hm hT
  obtain ⟨y, hy⟩ := arithVal_of_typeof (I := I) ha hT
  obtain ⟨w, hw⟩ := arithVal_of_typeof (I := I) hb hT
  have hpos : x > 0 := (boolVal_gt hx hz).sat.1 (hsat _ (by simp))
  have hF : Sat I (bop s a b) := hsat _ (by simp)
  have hmy := arithVal_mkNary_times hma hx hy
  have hmw := arithVal_mkNary_times hmb hx hw
  rcases hs with hs | ⟨rfl, rfl⟩
  · exact (boolVal_isRel hs hmy hmw).sat.2
      (relHolds_mul_pos hpos ((boolVal_isRel hs hy hw).sat.1 hF))
  obtain ⟨zx, hzx⟩ := intVal_of_typeof (I := I) hm
  obtain ⟨zy, hzy⟩ := intVal_of_typeof (I := I) ha
  obtain ⟨zw, hzw⟩ := intVal_of_typeof (I := I) hb
  obtain ⟨-, rfl⟩ := (arithVal_int hzx).unique hx
  obtain ⟨-, rfl⟩ := (arithVal_int hzy).unique hy
  obtain ⟨-, rfl⟩ := (arithVal_int hzw).unique hw
  rw [← Int.cast_mul] at hmy hmw
  have hdvd := (boolVal_divisible hzy hzw).sat.1 hF
  exact (boolVal_divisible hmy.toInt hmw.toInt).sat.2 (mul_dvd_mul_left zx hdvd)

/-! ## `arith_mult_pos` for predicates of the user -/

/-- Is a number one? -/
noncomputable def isOne : ∀ T : Ty, Dom (fun _ => Unit) T → Bool
  | .int, x => truth ((show Int from x) = 1)
  | .real, x => truth ((show ℝ from x) = 1)
  | _, _ => false

/-- An element of every domain.  A binary predicate holds when its first
argument is one. -/
noncomputable def badDom : ∀ T : Ty, Dom (fun _ => Unit) T
  | .bool => false
  | .int => (0 : Int)
  | .real => (0 : ℝ)
  | .bitvec w => 0#w
  | .seq _ => []
  | .char => (0 : CodePoint)
  | .reglan => (0 : RegLan)
  | .usort _ => ()
  | .fn A (.fn _ .bool) => fun x _ => isOne A x
  | .fn _ B => fun _ => badDom B

/-- The interpretation by these elements. -/
noncomputable def badInterp (Γ : Nat → Ty) : Interp Γ where
  U := fun _ => Unit
  const := fun n => badDom (Γ n)
  divByZero := id
  intDivByZero := id
  modByZero := id

/-- Types of predicates with at least two arguments. -/
def IsPredTy : Ty → Prop
  | .fn _ (.fn _ .bool) => True
  | .fn _ B => IsPredTy B
  | _ => False

lemma IsPredTy.eq_fn {S : Ty} (h : IsPredTy S) : ∃ A B, S = .fn A B := by
  cases S with
  | fn A B => exact ⟨A, B, rfl⟩
  | _ => exact h.elim

lemma IsPredTy.fn {A B : Ty} (h : IsPredTy B) : IsPredTy (.fn A B) := by
  obtain ⟨C, D, rfl⟩ := h.eq_fn
  cases D with
  | bool => trivial
  | _ => exact h

lemma badDom_fn {A B : Ty} (h : IsPredTy B) : badDom (.fn A B) = fun _ => badDom B := by
  obtain ⟨C, D, rfl⟩ := h.eq_fn
  cases D with
  | bool => exact h.elim
  | _ => rfl

/-- Every term of predicate type has the chosen element as its value.  The
second half carries the induction through `ite`, whose branches are
arguments of a symbol that is not complete yet. -/
lemma value_badInterp (t : Term) : (∀ S, tyDen Γ t = some (.ty S) → IsPredTy S →
      value (badInterp Γ) t = some ⟨S, badDom S⟩) ∧
    (∀ s args, tyDen Γ t = some (.part s args) → ∀ p ∈ args, IsPredTy p.2 →
      value (badInterp Γ) p.1 = some ⟨p.2, badDom p.2⟩) := by
  induction t with
  | const n =>
    refine ⟨?_, by simp [tyDen]⟩
    intro S hS _
    cases hS
    rfl
  | sym s =>
    constructor
    · intro S hS hpred
      obtain ⟨A, B, rfl⟩ := hpred.eq_fn
      obtain ⟨_, hsym⟩ := completeTy_ty hS
      obtain ⟨_, _, _, _, hargs⟩ := symTy_fn hsym
      simp at hargs
    intro s' args h p hp
    rw [tyDen, completeTy] at h
    split at h
    · obtain ⟨T, _, hT⟩ := map_inv h
      contradiction
    · cases h
      simp at hp
  | app f a ihf iha =>
    constructor
    · intro S hS hpred
      obtain ⟨T, hT, ⟨B, hf, hB⟩ | ⟨s, args, hf, hd⟩⟩ := tyDen_app_inv hS
      · cases hB
        obtain ⟨x, hx⟩ := value_of_typeof (badInterp Γ) hT
        rw [value_app_fn _ (ihf.1 _ hf hpred.fn) hx, badDom_fn hpred]
      obtain ⟨A, B, rfl⟩ := hpred.eq_fn
      obtain ⟨_, hsym⟩ := completeTy_ty hd
      obtain ⟨hite, c, u, u', hargs⟩ := symTy_fn hsym
      obtain ⟨rfl, hlast⟩ : args = [c, (u, .fn A B)] ∧ (a, T) = (u', .fn A B) := by
        have := List.append_inj' (show args ++ [(a, T)] =
          [c, (u, .fn A B)] ++ [(u', .fn A B)] from hargs) rfl
        exact ⟨this.1, by simpa using this.2⟩
      cases hlast
      have hu := ihf.2 _ _ hf (u, .fn A B) (by simp) hpred
      have hu' := iha.1 _ (typeof_eq_some.1 hT) hpred
      obtain ⟨e, he, hrel⟩ := den_of_tyDen (badInterp Γ) hf
      cases e with
      | val v => exact hrel.elim
      | part s' vs =>
        obtain ⟨rfl, hvs⟩ := hrel
        obtain ⟨b, x, rfl, -, hx⟩ := argRel_two _ hvs
        cases hx.symm.trans hu
        -- both branches are the chosen element
        rcases hite with rfl | rfl
        · obtain ⟨_, _, _, heq⟩ := tyIte_inv hsym
          cases heq
          rw [value_app_part _ he rfl hu']
          cases b <;> simp [symVal.eq_def, vIte]
        obtain ⟨_, _, _, heq⟩ := tyBvite_inv hsym
        cases heq
        rw [value_app_part _ he rfl hu']
        exact vBvite_same b ⟨.fn A B, badDom (.fn A B)⟩
    · intro s args h p hp hpred
      obtain ⟨T, hT, ⟨B, -, hB⟩ | ⟨s', args', hf, hd⟩⟩ := tyDen_app_inv h
      · contradiction
      rw [completeTy] at hd
      split at hd
      · obtain ⟨R, _, hR⟩ := map_inv hd
        contradiction
      cases hd
      rcases List.mem_append.1 hp with hp | hp
      · exact ihf.2 _ _ hf p hp hpred
      · obtain rfl := List.mem_singleton.1 hp
        exact iha.1 _ (typeof_eq_some.1 hT) hpred
  | bool b => exact ⟨fun S hS h => by cases hS; exact h.elim, by simp [tyDen]⟩
  | num z => exact ⟨fun S hS h => by cases hS; exact h.elim, by simp [tyDen]⟩
  | rat q => exact ⟨fun S hS h => by cases hS; exact h.elim, by simp [tyDen]⟩
  | bin w v => exact ⟨fun S hS h => by cases hS; exact h.elim, by simp [tyDen]⟩
  | str l => exact ⟨fun S hS h => by cases hS; exact h.elim, by simp [tyDen]⟩

def arithLit : Ty → Nat → Term
  | .int, n => .num n
  | _, n => .rat n

lemma typeof_arithLit (hT : T = .int ∨ T = .real) (n : Nat) : typeof Γ (arithLit T n) = some T := by
  rcases hT with rfl | rfl <;> rfl

lemma arithVal_arithLit (hT : T = .int ∨ T = .real) (n : Nat) : ArithVal I T (arithLit T n) n := by
  rcases hT with rfl | rfl
  · exact arithVal_int rfl
  · have := arithVal_real (I := I) (value_rat I n)
    rwa [Rat.cast_natCast] at this

lemma boolVal_isUserRel (hT : T = .int ∨ T = .real) {x y : ℝ}
    (hr : typeof Γ r = some (.fn T (.fn T .bool))) (ha : ArithVal (badInterp Γ) T a x)
    (hb : ArithVal (badInterp Γ) T b y) :
    BoolVal (badInterp Γ) (.app (.app r a) b) (x = 1) := by
  have hval := (value_badInterp r).1 _ (typeof_eq_some.1 hr) trivial
  unfold BoolVal
  rcases ha with ⟨rfl, m, ha, rfl⟩ | ⟨rfl, ha⟩
  · rcases hb with ⟨-, n, hb, rfl⟩ | ⟨h, -⟩
    · rw [value_app_fn _ (value_app_fn _ hval ha) hb]
      have : ((m : ℝ) = 1) ↔ m = 1 := by norm_cast
      rw [propext this]
      rfl
    · contradiction
  rcases hb with ⟨h, -⟩ | ⟨-, hb⟩
  · contradiction
  · rw [value_app_fn _ (value_app_fn _ hval ha) hb]
    rfl

lemma arithMultPos_isUserRel (hr : IsUserRel Γ r) :
    ∃ m a b c, arithMultPos Γ m (.app (.app r a) b) = some c ∧ typeof Γ c = some .bool ∧
      ¬ Sat (badInterp Γ) c := by
  obtain ⟨T, hT, hty⟩ := hr
  have h1 := typeof_arithLit (Γ := Γ) hT 1
  have h2 := typeof_arithLit (Γ := Γ) hT 2
  have hone := arithVal_arithLit (I := badInterp Γ) hT 1
  have htwo := arithVal_arithLit (I := badInterp Γ) hT 2
  have hzero := arithVal_arithLit (I := badInterp Γ) hT 0
  have hnil : nilFor Γ .times (arithLit T 2) = some (arithLit T 1) := by
    rcases hT with rfl | rfl <;> rfl
  have hz : (typeof Γ (arithLit T 2)).bind arithMkZero = some (arithLit T 0) := by
    rcases hT with rfl | rfl <;> rfl
  let prod := bop .times (arithLit T 2) (bop .times (arithLit T 1) (arithLit T 1))
  have hprod : mkNary Γ .times (arithLit T 2) [arithLit T 1] = some prod := by
    rw [mkNary, hnil]
    rfl
  have hprodT : typeof Γ prod = some T := by
    have hsym : ∀ a b, symTy .times [(a, T), (b, T)] = some T := by
      intro a b
      rcases hT with rfl | rfl <;> rfl
    have hinner : typeof Γ (bop .times (arithLit T 1) (arithLit T 1)) = some T := by
      rw [typeof_bop Γ rfl, h1]
      exact hsym _ _
    rw [typeof_bop Γ rfl, h2, hinner]
    exact hsym _ _
  have happ : ∀ x, typeof Γ x = some T → typeof Γ (.app (.app r x) x) = some .bool := by
    intro x hx
    have hx' := typeof_eq_some.1 hx
    rw [typeof_eq_some, tyDen, tyDen, typeof_eq_some.1 hty, hx']
    simp [applyTy, TyDen.ty?]
  refine ⟨arithLit T 2, arithLit T 1, arithLit T 1, _, by
    rw [arithMultPos, hz, mkArithMultPos, hprod]; rfl, ?_, ?_⟩
  · have hgt : typeof Γ (bop .gt (arithLit T 2) (arithLit T 0)) = some .bool :=
      typeof_isRel (by simp [IsRel]) hT h2 (typeof_arithLit hT 0)
    simp only [mkAnd_cons, mkAnd_nil]
    rw [typeof_bop Γ rfl, typeof_bop Γ rfl, hgt, typeof_bop Γ rfl, happ _ h1, happ _ hprodT]
    rfl
  intro hsat
  have hP := boolVal_isUserRel hT hty hone hone
  have hQ := boolVal_isUserRel hT hty (arithVal_mkNary_times hprod htwo hone)
    (arithVal_mkNary_times hprod htwo hone)
  have hand := boolVal_and (boolVal_gt htwo hzero) (boolVal_and hP (boolVal_bool true))
  have := (boolVal_imp hand hQ).sat.1 hsat ⟨by norm_num, by norm_num, rfl⟩
  norm_num at this

/-! ## Main results -/

/-- `arith_mult_pos` is sound for the relation `r` exactly if `r` is not a
term of type `T → T → Bool` over numbers; the other five rules are sound for
all premises and arguments. -/
theorem arith_linear_rules_sound_iff (Γ : Nat → Ty) :
    (∀ r, (∀ (I : Interp Γ) (m a b c : Term), arithMultPos Γ m (.app (.app r a) b) = some c →
        typeof Γ c = some .bool → Sat I c) ↔ ¬ IsUserRel Γ r) ∧
    (∀ (I : Interp Γ) (Fs : List Term) (c : Term), arithSumUb Γ Fs = some c →
        typeof Γ c = some .bool → (∀ F ∈ Fs, Sat I F) → Sat I c) ∧
    (∀ (I : Interp Γ) (m F c : Term), arithMultNeg Γ m F = some c →
        typeof Γ c = some .bool → Sat I c) ∧
    (∀ (I : Interp Γ) (F1 F2 c : Term), arithTrichotomy F1 F2 = some c →
        typeof Γ c = some .bool → Sat I F1 → Sat I F2 → Sat I c) ∧
    (∀ (I : Interp Γ) (F c : Term), intTightUb F = some c →
        typeof Γ c = some .bool → Sat I F → Sat I c) ∧
    (∀ (I : Interp Γ) (F c : Term), intTightLb F = some c →
        typeof Γ c = some .bool → Sat I F → Sat I c) := by
  refine ⟨?_, ?_, ?_, ?_, ?_, ?_⟩
  · intro r
    constructor
    · intro hsound hr
      obtain ⟨m, a, b, c, h, hc, hnot⟩ := arithMultPos_isUserRel hr
      exact hnot (hsound _ m a b c h hc)
    · intro hr I m a b c h hc
      exact arithMultPos_sat hr h hc
  · exact fun I Fs c h hc hFs => arithSumUb_sat h hc hFs
  · exact fun I m F c h hc => arithMultNeg_sat h hc
  · exact fun I F1 F2 c h hc h1 h2 => arithTrichotomy_sat h hc h1 h2
  · exact fun I F c h hc hF => intTightUb_sat h hc hF
  · exact fun I F c h hc hF => intTightLb_sat h hc hF

/-- Multiplying `(< 1 3)` by two. -/
theorem arith_linear_rules_sound_iff_lt : Sat (badInterp fun _ => .int)
      (bop .imp (mkAnd [bop .gt (.num 2) (.num 0), bop .lt (.num 1) (.num 3)])
        (bop .lt (bop .times (.num 2) (bop .times (.num 1) (.num 1)))
          (bop .times (.num 2) (bop .times (.num 3) (.num 1))))) :=
  ((arith_linear_rules_sound_iff fun _ => .int).1 (.sym .lt)).2
    (by rintro ⟨T, -, h⟩; simp [typeof, tyDen, completeTy, Sym.arity.eq_def, TyDen.ty?] at h)
    _ (.num 2) (.num 1) (.num 3) _ rfl (by decide)

/-- For a declared predicate `P` on integers the rule derives
`(=> (and (> 2 0) (P 1 1)) (P (* 2 1) (* 2 1)))`. -/
theorem arithMultPos_declared_predicate_unsound :
    ∃ c, arithMultPos (fun _ => .fn .int (.fn .int .bool)) (.num 2)
        (.app (.app (.const 0) (.num 1)) (.num 1)) = some c ∧
      typeof (fun _ => .fn .int (.fn .int .bool)) c = some .bool ∧
      ¬ Sat (badInterp fun _ => .fn .int (.fn .int .bool)) c := by
  refine ⟨_, rfl, by decide, ?_⟩
  intro hsat
  have hone := arithVal_int (value_num (badInterp fun _ => .fn .int (.fn .int .bool)) 1)
  have htwo := arithVal_int (value_num (badInterp fun _ => .fn .int (.fn .int .bool)) 2)
  have hzero := arithVal_int (value_num (badInterp fun _ => .fn .int (.fn .int .bool)) 0)
  have hprod := arithVal_times htwo (arithVal_times hone hone)
  have hP := boolVal_isUserRel (r := .const 0) (.inl rfl) rfl hone hone
  have hQ := boolVal_isUserRel (r := .const 0) (.inl rfl) rfl hprod hprod
  have hand := boolVal_and (boolVal_gt htwo hzero) (boolVal_and hP (boolVal_bool true))
  have := (boolVal_imp hand hQ).sat.1 hsat ⟨by norm_num, by norm_num, rfl⟩
  norm_num at this

end EthosCpc
