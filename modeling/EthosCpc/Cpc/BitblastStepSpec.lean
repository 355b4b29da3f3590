import EthosCpc.Cpc.BitblastingSpec

/-!
# Soundness of `bv_bitblast_step`

The operators that `$bv_mk_bitblast_step` handles, one by one: the list of
bits that a step returns has the value of the term it was applied to.  The
circuits are described in `EthosCpc.Cpc.BitblastingSpec`; what is left is
to compare the number they compute with the SMT-LIB meaning of the
operator.

`bvMkBitblastStep_value_iff` is the result for all operators together, with
the two comparisons that lose the case of equal arguments.
-/

namespace EthosCpc

open Term (bop uop)
open Library.BitList
open Option (bind_some some.inj)
open List (length_append length_map length_replicate length_zipWith mem_cons ne_nil_of_length_pos zipWith)
open BitVec (ofBool toNat_not ult_eq_decide)

variable {Γ : Nat → Ty} {I : Interp Γ} {t u r : Term} {xs ys : List Bool} {n : Nat}

/-! ## Unary operators -/

lemma step_bvnot (h : Bits I t xs) (hx : xs.length = n)
    (hr : bvBitblastApplyUnary .not t = some r) : value I (uop .bvnot t) = value I r := by
  obtain ⟨r', hr', hbits⟩ := bits_not h
  cases hr'.symm.trans hr
  have hnot := toNat_map_not xs
  rw [hx] at hnot
  rw [value_uop I rfl, h.value_bvOf hx]
  refine (hbits.value_eq (x := ~~~ bvOf n xs) (by rw [length_map, hx]) ?_).symm
  rw [toNat_not, toNat_bvOf hx]
  omega

lemma step_bvneg (h : Bits I t xs) (hx : xs.length = n) {t' : Term}
    (ht' : bvBitblastApplyUnary .not t = some t')
    (hr : bvRippleCarryAdder t' (bvBitblastZero n) (.bool true) = some r) :
    value I (uop .bvneg t) = value I r := by
  obtain ⟨s, hs, hbits⟩ := bits_not h
  cases hs.symm.trans ht'
  have hlen : (xs.map not).length = (List.replicate n false).length := by
    rw [length_map, length_replicate, hx]
  obtain ⟨r', hr', hbits'⟩ := bits_adder (value_bool I true) hbits (bits_zero n) hlen
  cases hr'.symm.trans hr
  have hnot := toNat_map_not xs
  have hlt := toNat_lt xs
  rw [hx] at hnot hlt
  rw [value_uop I rfl, h.value_bvOf hx]
  refine (hbits'.value_eq (x := - bvOf n xs) ?_ ?_).symm
  · rw [length_adc _ _ _ hlen, length_map, hx]
  rw [adc_mod _ _ _ hlen, toNat_replicate_false, length_map, hx, BitVec.toNat_neg,
    toNat_bvOf hx, Bool.toNat_true]
  congr 1
  omega

/-! ## Bitwise operators and arithmetic

Each program combines an accumulator with one argument.  The lemmas below
say what one combination computes, `step_nary` what the whole list does.
-/

lemma gate_and (h : Bits I t xs) (hx : xs.length = n) (hu : Bits I u ys) (hy : ys.length = n)
    (hr : bvBitblastApplyBinary .and t u = some r) :
    ∃ rs, Bits I r rs ∧ rs.length = n ∧ toNat rs = (bvOf n xs &&& bvOf n ys).toNat := by
  obtain ⟨r', hr', hbits⟩ := bits_binary (f := .and) (by simp) h hu (hx.trans hy.symm)
  cases hr'.symm.trans hr
  refine ⟨_, hbits, by rw [length_zipWith, hx, hy, Nat.min_self], ?_⟩
  rw [BitVec.toNat_and, toNat_bvOf hx, toNat_bvOf hy]
  exact toNat_and (hx.trans hy.symm)

lemma gate_or (h : Bits I t xs) (hx : xs.length = n) (hu : Bits I u ys) (hy : ys.length = n)
    (hr : bvBitblastApplyBinary .or t u = some r) :
    ∃ rs, Bits I r rs ∧ rs.length = n ∧ toNat rs = (bvOf n xs ||| bvOf n ys).toNat := by
  obtain ⟨r', hr', hbits⟩ := bits_binary (f := .or) (by simp) h hu (hx.trans hy.symm)
  cases hr'.symm.trans hr
  refine ⟨_, hbits, by rw [length_zipWith, hx, hy, Nat.min_self], ?_⟩
  rw [BitVec.toNat_or, toNat_bvOf hx, toNat_bvOf hy]
  exact toNat_or (hx.trans hy.symm)

lemma gate_xor (h : Bits I t xs) (hx : xs.length = n) (hu : Bits I u ys) (hy : ys.length = n)
    (hr : bvBitblastApplyBinary .xor t u = some r) :
    ∃ rs, Bits I r rs ∧ rs.length = n ∧ toNat rs = (bvOf n xs ^^^ bvOf n ys).toNat := by
  obtain ⟨r', hr', hbits⟩ := bits_binary (f := .xor) (by simp) h hu (hx.trans hy.symm)
  cases hr'.symm.trans hr
  refine ⟨_, hbits, by rw [length_zipWith, hx, hy, Nat.min_self], ?_⟩
  rw [BitVec.toNat_xor, toNat_bvOf hx, toNat_bvOf hy]
  exact toNat_xor (hx.trans hy.symm)

lemma zipWith_eq_map_not_xor (xs ys : List Bool) :
    zipWith (gate .eq) xs ys = (zipWith Bool.xor xs ys).map not := by
  rw [List.map_zipWith]
  congr 1
  funext x y
  cases x <;> cases y <;> rfl

lemma step_bvxnor (h : Bits I t xs) (hx : xs.length = n) (hu : Bits I u ys)
    (hy : ys.length = n) (hr : bvBitblastApplyBinary .eq t u = some r) :
    value I (bop .bvxnor t u) = value I r := by
  obtain ⟨r', hr', hbits⟩ := bits_binary (f := .eq) (by simp) h hu (hx.trans hy.symm)
  cases hr'.symm.trans hr
  have hlen : (zipWith Bool.xor xs ys).length = n := by rw [length_zipWith, hx, hy, Nat.min_self]
  have hnot := toNat_map_not (zipWith Bool.xor xs ys)
  rw [zipWith_eq_map_not_xor] at hbits
  rw [value_bits_bop (f := fun _ x y => Val.bitvec (~~~ (x ^^^ y))) rfl rfl h hx hu hy]
  refine (hbits.value_eq (x := ~~~ (bvOf n xs ^^^ bvOf n ys)) (by rw [length_map, hlen]) ?_).symm
  rw [toNat_not, BitVec.toNat_xor, toNat_bvOf hx, toNat_bvOf hy, ← toNat_xor (hx.trans hy.symm)]
  rw [hlen] at hnot
  omega

lemma adder_add (h : Bits I t xs) (hx : xs.length = n) (hu : Bits I u ys) (hy : ys.length = n)
    (hr : bvRippleCarryAdder t u (.bool false) = some r) :
    ∃ rs, Bits I r rs ∧ rs.length = n ∧ toNat rs = (bvOf n xs + bvOf n ys).toNat := by
  obtain ⟨r', hr', hbits⟩ := bits_adder (value_bool I false) h hu (hx.trans hy.symm)
  cases hr'.symm.trans hr
  refine ⟨_, hbits, by rw [length_adc _ _ _ (hx.trans hy.symm), hx], ?_⟩
  rw [adc_mod _ _ _ (hx.trans hy.symm), BitVec.toNat_add, toNat_bvOf hx, toNat_bvOf hy, hx,
    Bool.toNat_false, Nat.add_zero]

lemma multiplier_mul (h : Bits I t xs) (hx : xs.length = n) (hu : Bits I u ys)
    (hy : ys.length = n) (hr : bvShiftAddMultiplier Γ t u = some r) :
    ∃ rs, Bits I r rs ∧ rs.length = n ∧ toNat rs = (bvOf n xs * bvOf n ys).toNat := by
  obtain ⟨rs, hrs, hlen, hval⟩ := bits_multiplier h hu (hy.trans hx.symm) hr
  refine ⟨rs, hrs, by rw [hlen, hx], ?_⟩
  rw [hval, BitVec.toNat_mul, toNat_bvOf hx, toNat_bvOf hy, hx]

lemma step_bvsub (h : Bits I t xs) (hx : xs.length = n) (hu : Bits I u ys) (hy : ys.length = n)
    {u' : Term} (hu' : bvBitblastApplyUnary .not u = some u')
    (hr : bvRippleCarryAdder t u' (.bool true) = some r) :
    value I (bop .bvsub t u) = value I r := by
  obtain ⟨s, hs, hbits⟩ := bits_not hu
  cases hs.symm.trans hu'
  have hlen : xs.length = (ys.map not).length := by rw [length_map, hx, hy]
  obtain ⟨r', hr', hbits'⟩ := bits_adder (value_bool I true) h hbits hlen
  cases hr'.symm.trans hr
  have hnot := toNat_map_not ys
  rw [hy] at hnot
  rw [value_bits_bop (f := fun _ x y => Val.bitvec (x - y)) rfl rfl h hx hu hy]
  refine (hbits'.value_eq (x := bvOf n xs - bvOf n ys) (by rw [length_adc _ _ _ hlen, hx]) ?_).symm
  rw [adc_mod _ _ _ hlen, BitVec.toNat_sub, toNat_bvOf hx, toNat_bvOf hy, hx, Bool.toNat_true]
  congr 1
  omega

/-- An operator on bit-vectors that is written as a list: associative, with
its nil terminator as right unit. -/
structure BvNary (I : Interp Γ) (s : Sym) (op : ∀ w, BitVec w → BitVec w → BitVec w) : Prop where
  arity : s.arity = 2
  val : symVal I s = vBv2 fun w x y => Val.bitvec (op w x y)
  assoc : ∀ w (x y z : BitVec w), op w (op w x y) z = op w x (op w y z)
  par : s.nilIsParameterized = true
  nil : ∀ w nil, eoNil s (.bitvec w) = some nil → ∃ v, nil = .bin w v ∧ ∀ x, op w x v = x

lemma bvNary_bvand : BvNary I .bvand fun _ x y => x &&& y where
  arity := rfl
  val := rfl
  assoc := fun _ x y z => BitVec.and_assoc x y z
  par := rfl
  nil := fun w nil h => ⟨~~~ 0#w, eoNil_bvand_inv h, fun x => by simp⟩

lemma bvNary_bvor : BvNary I .bvor fun _ x y => x ||| y where
  arity := rfl
  val := rfl
  assoc := fun _ x y z => BitVec.or_assoc x y z
  par := rfl
  nil := fun w nil h => ⟨0#w, width_toBin_inv h, fun x => by simp⟩

lemma bvNary_bvxor : BvNary I .bvxor fun _ x y => x ^^^ y where
  arity := rfl
  val := rfl
  assoc := fun _ x y z => BitVec.xor_assoc x y z
  par := rfl
  nil := fun w nil h => ⟨0#w, width_toBin_inv h, fun x => by simp⟩

lemma bvNary_bvadd : BvNary I .bvadd fun _ x y => x + y where
  arity := rfl
  val := rfl
  assoc := fun _ x y z => BitVec.add_assoc x y z
  par := rfl
  nil := fun w nil h => ⟨0#w, width_toBin_inv h, fun x => by simp⟩

lemma bvNary_bvmul : BvNary I .bvmul fun _ x y => x * y where
  arity := rfl
  val := rfl
  assoc := fun _ x y z => BitVec.mul_assoc x y z
  par := rfl
  nil := fun w nil h => ⟨1#w, eoNil_bvmul_inv h, fun x => by simp⟩

section Nary

variable {s : Sym} {op : ∀ w, BitVec w → BitVec w → BitVec w}

lemma BvNary.value_bop (hop : BvNary I s op) {a b : Term} {x y : BitVec n}
    (ha : value I a = some (Val.bitvec x)) (hb : value I b = some (Val.bitvec y)) :
    value I (bop s a b) = some (Val.bitvec (op n x y)) := by
  rw [EthosCpc.value_bop I hop.arity, ha, hb, hop.val]
  exact dif_pos rfl

lemma BvNary.nilFor (hop : BvNary I s op) {a nil : Term} (ha : typeof Γ a = some (.bitvec n))
    (h : nilFor Γ s a = some nil) : ∃ v, nil = .bin n v ∧ ∀ x, op n x v = x := by
  rw [EthosCpc.nilFor, if_pos hop.par, ha, bind_some] at h
  exact hop.nil n nil h

/-- A list of bit-vectors of one width, closed by the nil terminator, has a value of
that width. -/
lemma BvNary.value_prepend (hop : BvNary I s op) {v : BitVec n} {as : List Term}
    (has : ∀ a ∈ as, ∃ x : BitVec n, value I a = some (Val.bitvec x)) :
    ∃ x : BitVec n, value I (prependNAryChildren (.sym s) (.bin n v) as) = some (Val.bitvec x) := by
  induction as with
  | nil => exact ⟨v, rfl⟩
  | cons a as ih =>
    obtain ⟨x, hx⟩ := has a (by simp)
    obtain ⟨y, hy⟩ := ih fun b hb => has b (by simp [hb])
    exact ⟨_, hop.value_bop hx hy⟩

/-- A program that folds an operator over its arguments computes the operator, when one
step of the fold does. -/
lemma step_nary (hop : BvNary I s op) {P : Term → Term → Option Term}
    {combine : Term → Term → Option Term} {v : BitVec n} (hv : ∀ x, op n x v = x)
    (hnil : ∀ ac, P (.bin n v) ac = some ac)
    (hcons : ∀ a rest ac, P (bop s a rest) ac = (combine ac a).bind (P rest))
    (hstep : ∀ {a b c : Term} {xs ys : List Bool}, Bits I a xs → xs.length = n → Bits I b ys →
      ys.length = n → combine a b = some c →
        ∃ rs, Bits I c rs ∧ rs.length = n ∧ toNat rs = (op n (bvOf n xs) (bvOf n ys)).toNat)
    {as : List Term} (has : ∀ a ∈ as, ∃ ys, Bits I a ys ∧ ys.length = n)
    (h : Bits I t xs) (hx : xs.length = n)
    (hr : P (prependNAryChildren (.sym s) (.bin n v) as) t = some r) :
    value I (bop s t (prependNAryChildren (.sym s) (.bin n v) as)) = value I r := by
  induction as generalizing t xs with
  | nil =>
    rw [prependNAryChildren_nil, hnil] at hr
    obtain rfl := some.inj hr
    rw [prependNAryChildren_nil, hop.value_bop (h.value_bvOf hx) (value_bin I n v), hv,
      h.value_bvOf hx]
  | cons a as ih =>
    obtain ⟨ys, hys, hy⟩ := has a (by simp)
    rw [prependNAryChildren_cons, hcons] at hr
    obtain ⟨c, hc, hr⟩ := bind_inv hr
    obtain ⟨zs, hzs, hz, hval⟩ := hstep h hx hys hy hc
    have hrest : ∀ b ∈ as, ∃ ys, Bits I b ys ∧ ys.length = n :=
      fun b hb => has b (by simp [hb])
    rw [← ih hrest hzs hz hr, prependNAryChildren_cons]
    obtain ⟨z, hz'⟩ := hop.value_prepend (v := v) fun b hb => by
      obtain ⟨ws, hws, hw⟩ := hrest b hb
      exact ⟨_, hws.value_bvOf hw⟩
    rw [hop.value_bop (hzs.value_eq hz hval) hz', hop.assoc,
      hop.value_bop (h.value_bvOf hx) (hop.value_bop (hys.value_bvOf hy) hz')]

end Nary

/-! ## Equality and comparison -/

lemma step_eq (h : Bits I t xs) (hx : xs.length = n) (hu : Bits I u ys) (hy : ys.length = n)
    (hr : bvMkBitblastStepEq t u = some r) :
    value I (bop .eq t u) = value I r ∧ value I r = some (Val.bool (decide (xs = ys))) := by
  obtain ⟨r', hr', hval⟩ := stepEq_value h hu (hx.trans hy.symm)
  cases hr'.symm.trans hr
  refine ⟨?_, hval⟩
  have htruth : truth (bvOf n xs = bvOf n ys) = decide (xs = ys) := by
    rw [truth, decide_eq_decide, eq_iff_bvOf hx hy]
  rw [hval, value_bop I rfl, h.value_bvOf hx, hu.value_bvOf hy, ← htruth]
  exact dif_pos rfl

lemma step_ult (orEqual : Bool) (h : Bits I t xs) (hx : xs.length = n) (hu : Bits I u ys)
    (hy : ys.length = n) (hn : 0 < n) (hr : bvBitblastUlt t u orEqual = some r) :
    value I r = some (Val.bool ((bvOf n xs).ult (bvOf n ys))) := by
  obtain ⟨r', hr', hval⟩ := ult_value orEqual h hu (hx.trans hy.symm) (ne_nil_of_length_pos (hx ▸ hn))
  cases hr'.symm.trans hr
  rw [hval, ult_eq_decide, toNat_bvOf hx, toNat_bvOf hy]

/-- What a list of bits compares as, with the sign bit taken off. -/
lemma slt_bvOf {b c : Bool} (hx : (xs ++ [b]).length = n) (hy : (ys ++ [c]).length = n) :
    (bvOf n (xs ++ [b])).slt (bvOf n (ys ++ [c])) =
      ((b && !c) || ((b == c) && decide (toNat xs < toNat ys))) := by
  have hlen : ys.length = xs.length := by
    rw [length_append, List.length_singleton] at hx hy
    omega
  have hltx := toNat_lt xs
  have hlty := toNat_lt ys
  rw [hlen] at hlty
  rw [BitVec.slt_eq_ult, msb_bvOf hx (by simp), msb_bvOf hy (by simp), List.getLast_append_singleton,
    List.getLast_append_singleton, ult_eq_decide, toNat_bvOf hx, toNat_bvOf hy, toNat_append,
    toNat_append, hlen]
  cases b <;> cases c <;> simp <;> omega

lemma exists_sign (hx : xs.length = n) (hn : 0 < n) : ∃ ws b, xs = ws ++ [b] :=
  ⟨_, _, (List.dropLast_append_getLast (ne_nil_of_length_pos (hx ▸ hn))).symm⟩

/-- The strict signed comparison, and `orEqual` for width one only. -/
lemma step_slt (orEqual : Bool) (h : Bits I t xs) (hx : xs.length = n) (hu : Bits I u ys)
    (hy : ys.length = n) (hn : 0 < n) (hr : bvBitblastSlt t u orEqual = some r) :
    value I r = some (Val.bool ((bvOf n xs).slt (bvOf n ys) ||
      (orEqual && decide (n = 1) && decide (xs = ys)))) := by
  obtain ⟨rx, hrx, hbx⟩ := bits_rev h
  obtain ⟨ry, hry, hby⟩ := bits_rev hu
  rw [bvBitblastSlt, hrx, bind_some, hry, bind_some] at hr
  obtain ⟨ws, b, rfl⟩ := exists_sign hx hn
  obtain ⟨zs, c, rfl⟩ := exists_sign hy hn
  have hlenx : ws.length + 1 = n := by simpa using hx
  have hleny : zs.length + 1 = n := by simpa using hy
  rw [List.reverse_append, List.reverse_singleton, List.singleton_append] at hbx hby
  obtain ⟨r', hr', hval⟩ := sltImpl_value orEqual (b := b) (c := c) hbx hby
    (by rw [List.length_reverse, List.length_reverse]; omega)
  cases hr'.symm.trans hr
  rw [hval, slt_bvOf hx hy, List.reverse_reverse, List.reverse_reverse]
  congr 2
  cases ws with
  | nil =>
    obtain rfl : zs = [] := List.eq_nil_of_length_eq_zero (by rw [List.length_nil] at hlenx; omega)
    obtain rfl : n = 1 := by simpa using hlenx.symm
    cases b <;> cases c <;> cases orEqual <;> rfl
  | cons w ws =>
    have hn1 : n ≠ 1 := by
      rw [List.length_cons] at hlenx
      omega
    rw [List.isEmpty_reverse]
    simp [hn1]

lemma value_singleton {b : Term} {x : Bool} (hb : value I b = some (Val.bool x)) :
    value I (bop .fromBools b bvEmpty) = some (Val.bitvec (ofBool x)) := by
  refine (Bits.cons hb .nil).value_eq rfl ?_
  cases x <;> rfl

/-! ## Extract, concat and sign extension -/

lemma step_extract {hi lo : Int} (hlo : 0 ≤ lo) (hle : lo ≤ hi + 1) (h : Bits I t xs)
    (hx : xs.length = n) (hhi : hi < n) (hr : bvBitblastSubsequence lo hi t = some r) :
    value I (.app (bop .extract (.num hi) (.num lo)) t) = value I r := by
  obtain ⟨l, rfl⟩ := Int.eq_ofNat_of_zero_le hlo
  obtain ⟨k, hk⟩ := Int.eq_ofNat_of_zero_le (show 0 ≤ hi - l + 1 by omega)
  obtain ⟨r', hr', hbits⟩ := bits_subsequence h l k
  rw [show (l : Int) + k - 1 = hi by omega] at hr'
  cases hr'.symm.trans hr
  rw [value_top I rfl, value_num, value_num, h.value_bvOf hx]
  refine (hbits.value_eq (x := (bvOf n xs).extractLsb' l (hi - l + 1).toNat) ?_ ?_).symm
  · rw [List.length_take, List.length_drop, hx]
    omega
  · rw [toNat_take, toNat_drop, BitVec.extractLsb'_toNat, toNat_bvOf hx,
      Nat.shiftRight_eq_div_pow, show (hi - l + 1).toNat = k by omega]

variable {as : List Term}

lemma bits_stepConcat (has : ∀ a ∈ as, ∃ ys, Bits I a ys) :
    ∃ r rs, bvMkBitblastStepConcat (prependNAryChildren (.sym .concat) bvEmpty as) = some r ∧
      Bits I r rs ∧
      value I (prependNAryChildren (.sym .concat) bvEmpty as) = value I r := by
  induction as with
  | nil => exact ⟨bvEmpty, [], rfl, .nil, rfl⟩
  | cons a as ih =>
    obtain ⟨ys, hys⟩ := has a (by simp)
    obtain ⟨r, rs, hr, hbits, hval⟩ := ih fun b hb => has b (by simp [hb])
    obtain ⟨r', hr', hbits'⟩ := bits_concat hbits hys
    refine ⟨r', _, ?_, hbits', ?_⟩
    · rw [prependNAryChildren_cons, bvMkBitblastStepConcat, hr, bind_some, hr']
    rw [prependNAryChildren_cons, value_bop I rfl, hval, hys.value_bvOf rfl, hbits.value_bvOf rfl]
    refine (hbits'.value_eq (x := bvOf ys.length ys ++ bvOf rs.length rs) ?_ ?_).symm
    · rw [length_append, Nat.add_comm]
    rw [BitVec.toNat_append, toNat_bvOf rfl, toNat_bvOf rfl, toNat_append,
      ← Nat.shiftLeft_add_eq_or_of_lt (toNat_lt rs), Nat.shiftLeft_eq]
    ring

lemma step_signExtend {k : Nat} (h : Bits I t xs) (hx : xs.length = n) (hn : 0 < n) {s : Term}
    (hs : bvBitblastSignBit t = some s)
    (hr : bvBitblastConcat t (bvBitblastRepeat s k) = some r) :
    value I (bop .signExtend (.num k) t) = value I r := by
  have hne : xs ≠ [] := ne_nil_of_length_pos (hx ▸ hn)
  obtain ⟨s', hs', hval⟩ := bits_signBit h hne
  cases hs'.symm.trans hs
  obtain ⟨r', hr', hbits⟩ := bits_concat h (bits_repeat hval k)
  cases hr'.symm.trans hr
  rw [value_bop I rfl, value_num, h.value_bvOf hx]
  refine (hbits.value_eq (x := (bvOf n xs).signExtend (n + k)) ?_ ?_).symm
  · rw [length_append, length_replicate, hx]
  have hlt := toNat_lt xs
  rw [hx] at hlt
  have hpow : 2 ^ (n + k) = 2 ^ n * 2 ^ k := Nat.pow_add 2 n k
  have hones := toNat_replicate_true k
  rw [BitVec.toNat_signExtend, BitVec.toNat_setWidth, toNat_bvOf hx, msb_bvOf hx hne,
    toNat_append, hx, Nat.mod_eq_of_lt (Nat.lt_of_lt_of_le hlt (Nat.pow_le_pow_right (by decide)
      (Nat.le_add_right n k)))]
  cases xs.getLast hne
  · rw [toNat_replicate_false]
    simp
  · rw [if_pos rfl, hpow, ← hones, Nat.mul_add, Nat.mul_one, Nat.add_sub_cancel]

/-! ## Division and remainder -/

lemma eq_zero_iff (hy : ys.length = n) : ys = List.replicate n false ↔ bvOf n ys = 0#n := by
  rw [← BitVec.toNat_inj, toNat_bvOf hy, BitVec.toNat_ofNat, Nat.zero_mod,
    ← toNat_inj (hy.trans length_replicate.symm), toNat_replicate_false]

lemma step_bvudiv (h : Bits I t xs) (hx : xs.length = n) (hu : Bits I u ys)
    (hy : ys.length = n) (hn : 0 < n) (hr : bvMkBitblastStepUdiv Γ t u = some r) :
    value I (bop .bvudiv t u) = value I r := by
  obtain ⟨sz, hsz, hr⟩ := bind_inv hr
  obtain rfl : sz = n := (h.bvBitwidth hsz).trans hx
  obtain ⟨q, m, qs, ms, hqm, hbq, _, hql, _, hval⟩ := bits_divMod hu h (hx.trans hy.symm)
    (ne_nil_of_length_pos (hx ▸ hn)) sz
  rw [hy] at hqm hql
  obtain ⟨isz, hisz, hzero⟩ := stepEq_value hu (bits_zero (I := I) sz) (by rw [hy, length_replicate])
  obtain ⟨r', hr', hbits⟩ := bits_ite hzero (bits_repeat (value_bool I true) sz) hbq
    (by rw [length_replicate, hql])
  rw [hqm, bind_some, hisz, bind_some] at hr
  cases hr'.symm.trans hr
  have hlt := toNat_lt xs
  rw [hx] at hlt
  rw [value_bits_bop (f := fun _ x y => Val.bitvec (x.smtUDiv y)) rfl rfl h hx hu hy]
  refine (hbits.value_eq (x := (bvOf sz xs).smtUDiv (bvOf sz ys)) ?_ ?_).symm
  · rw [Bool.apply_cond List.length, length_replicate, hql, Bool.cond_self]
  rw [BitVec.smtUDiv_eq]
  by_cases hz : ys = List.replicate sz false
  · have hones := toNat_replicate_true sz
    rw [if_pos ((eq_zero_iff hy).1 hz), decide_eq_true hz, cond_true, BitVec.toNat_allOnes]
    omega
  have hpos : 0 < toNat ys := by
    apply Nat.pos_of_ne_zero
    intro h0
    apply hz
    rw [← toNat_inj (hy.trans length_replicate.symm), toNat_replicate_false, h0]
  rw [if_neg (fun h => hz ((eq_zero_iff hy).2 h)), decide_eq_false hz, cond_false,
    (hval hpos hlt).1, BitVec.toNat_udiv, toNat_bvOf hx, toNat_bvOf hy]

lemma step_bvurem (h : Bits I t xs) (hx : xs.length = n) (hu : Bits I u ys)
    (hy : ys.length = n) (hn : 0 < n) (hr : bvMkBitblastStepUrem Γ t u = some r) :
    value I (bop .bvurem t u) = value I r := by
  obtain ⟨sz, hsz, hr⟩ := bind_inv hr
  obtain rfl : sz = n := (h.bvBitwidth hsz).trans hx
  obtain ⟨q, m, qs, ms, hqm, _, hbm, _, hml, hval⟩ := bits_divMod hu h (hx.trans hy.symm)
    (ne_nil_of_length_pos (hx ▸ hn)) sz
  rw [hy] at hqm hml
  obtain ⟨isz, hisz, hzero⟩ := stepEq_value hu (bits_zero (I := I) sz) (by rw [hy, length_replicate])
  obtain ⟨r', hr', hbits⟩ := bits_ite hzero h hbm (by rw [hx, hml])
  rw [hqm, bind_some, hisz, bind_some] at hr
  cases hr'.symm.trans hr
  have hlt := toNat_lt xs
  rw [hx] at hlt
  rw [value_bits_bop (f := fun _ x y => Val.bitvec (x.umod y)) rfl rfl h hx hu hy]
  refine (hbits.value_eq (x := (bvOf sz xs).umod (bvOf sz ys)) ?_ ?_).symm
  · rw [Bool.apply_cond List.length, hx, hml, Bool.cond_self]
  rw [BitVec.umod_eq, BitVec.toNat_umod, toNat_bvOf hx, toNat_bvOf hy]
  by_cases hz : ys = List.replicate sz false
  · rw [decide_eq_true hz, cond_true, hz, toNat_replicate_false, Nat.mod_zero]
  have hpos : 0 < toNat ys := by
    apply Nat.pos_of_ne_zero
    intro h0
    apply hz
    rw [← toNat_inj (hy.trans length_replicate.symm), toNat_replicate_false, h0]
  rw [decide_eq_false hz, cond_false, (hval hpos hlt).2]

/-! ## Shifts -/

lemma shift_guard (hu : Bits I u ys) (hy : ys.length = n) (hn : 0 < n) {szc lt : Term}
    (hszc : (eoToBin n n).bind bvMkBitblastStepConst = some szc)
    (hlt : bvBitblastUlt u szc false = some lt) :
    value I lt = some (Val.bool (decide (toNat ys < n))) := by
  obtain ⟨c, hc, hszc⟩ := bind_inv hszc
  obtain ⟨-, -, rfl⟩ := eoToBin_inv hc
  rw [Int.toNat_natCast] at hszc
  obtain ⟨r, rs, hr, hbits, hlen, hval⟩ := bits_const (I := I) (BitVec.ofInt n (n : Int))
  cases hr.symm.trans hszc
  obtain ⟨lt', hlt', hvlt⟩ := ult_value false hu hbits (hy.trans hlen.symm)
    (ne_nil_of_length_pos (hy ▸ hn))
  cases hlt'.symm.trans hlt
  rw [hvlt, hval, BitVec.ofInt_natCast, BitVec.toNat_ofNat, Nat.mod_eq_of_lt Nat.lt_two_pow_self]

lemma step_bvshl (h : Bits I t xs) (hx : xs.length = n) (hu : Bits I u ys) (hy : ys.length = n)
    (hn : 0 < n) (hr : bvMkBitblastStepShl Γ t u = some r) :
    value I (bop .bvshl t u) = value I r := by
  obtain ⟨sz, hsz, hr⟩ := bind_inv hr
  obtain rfl : sz = n := (h.bvBitwidth hsz).trans hx
  obtain ⟨l, hl, hr⟩ := bind_inv hr
  obtain ⟨res, hres, hr⟩ := bind_inv hr
  obtain ⟨szc, hszc, hr⟩ := bind_inv hr
  obtain ⟨lt, hlt, hite⟩ := bind_inv hr
  obtain ⟨lsz, rfl, hle⟩ := bvShiftBits_spec hl
  obtain ⟨rs, hrs, hlen, hval⟩ := bits_shlRec (s := 0) hu (Nat.zero_le lsz) h hres
  have hguard := shift_guard hu hy hn hszc hlt
  rw [hx] at hlen
  obtain ⟨r', hr', hbits⟩ := bits_ite hguard hrs (bits_repeat (value_bool I false) sz)
    (by rw [hlen, length_replicate])
  cases hr'.symm.trans hite
  rw [value_bits_bop (f := fun _ x y => Val.bitvec (x <<< y)) rfl rfl h hx hu hy]
  refine (hbits.value_eq (x := bvOf sz xs <<< bvOf sz ys) ?_ ?_).symm
  · rw [Bool.apply_cond List.length, hlen, length_replicate, Bool.cond_self]
  rw [BitVec.shiftLeft_eq', BitVec.toNat_shiftLeft, toNat_bvOf hx, toNat_bvOf hy, Nat.shiftLeft_eq]
  by_cases hlt' : toNat ys < sz
  · rw [decide_eq_true hlt', cond_true, hval, toNat_shl, Nat.pow_zero, Nat.one_mul, Nat.sub_zero,
      Nat.mod_eq_of_lt (by omega : toNat ys < 2 ^ lsz), hx]
  · rw [decide_eq_false hlt', cond_false, toNat_replicate_false,
      ← toNat_shl_of_le (by omega : xs.length ≤ toNat ys), toNat_shl, hx]

lemma bits_stepShr {sbit : Term} {f : Bool} (hf : value I sbit = some (Val.bool f))
    (h : Bits I t xs) (hx : xs.length = n) (hu : Bits I u ys) (hy : ys.length = n) (hn : 0 < n)
    (hr : bvMkBitblastStepShr Γ t u sbit = some r) : Bits I r (shr f (toNat ys) xs) := by
  obtain ⟨sz, hsz, hr⟩ := bind_inv hr
  obtain rfl : sz = n := (h.bvBitwidth hsz).trans hx
  obtain ⟨l, hl, hr⟩ := bind_inv hr
  obtain ⟨res, hres, hr⟩ := bind_inv hr
  obtain ⟨szc, hszc, hr⟩ := bind_inv hr
  obtain ⟨lt, hlt, hite⟩ := bind_inv hr
  obtain ⟨lsz, rfl, hle⟩ := bvShiftBits_spec hl
  have hrs := bits_shrRec (s := 0) hf hu (Nat.zero_le lsz) h hres
  have hguard := shift_guard hu hy hn hszc hlt
  obtain ⟨r', hr', hbits⟩ := bits_ite hguard hrs (bits_repeat hf sz)
    (by rw [length_shr, hx, length_replicate])
  cases hr'.symm.trans hite
  by_cases hlt' : toNat ys < sz
  · rwa [decide_eq_true hlt', cond_true, Nat.pow_zero, Nat.one_mul, Nat.sub_zero,
      Nat.mod_eq_of_lt (by omega : toNat ys < 2 ^ lsz)] at hbits
  · rwa [decide_eq_false hlt', cond_false, ← hx, ← shr_of_le f (by omega : xs.length ≤ toNat ys)]
      at hbits

lemma step_bvlshr (h : Bits I t xs) (hx : xs.length = n) (hu : Bits I u ys)
    (hy : ys.length = n) (hn : 0 < n) (hr : bvMkBitblastStepShr Γ t u (.bool false) = some r) :
    value I (bop .bvlshr t u) = value I r := by
  have hbits := bits_stepShr (value_bool I false) h hx hu hy hn hr
  rw [value_bits_bop (f := fun _ x y => Val.bitvec (x >>> y)) rfl rfl h hx hu hy]
  refine (hbits.value_eq (x := bvOf n xs >>> bvOf n ys) (by rw [length_shr, hx]) ?_).symm
  rw [toNat_shr_false, BitVec.ushiftRight_eq', BitVec.toNat_ushiftRight, toNat_bvOf hx,
    toNat_bvOf hy, Nat.shiftRight_eq_div_pow]

lemma step_bvashr (h : Bits I t xs) (hx : xs.length = n) (hu : Bits I u ys)
    (hy : ys.length = n) (hn : 0 < n) {s : Term} (hs : bvBitblastSignBit t = some s)
    (hr : bvMkBitblastStepShr Γ t u s = some r) : value I (bop .bvashr t u) = value I r := by
  have hne : xs ≠ [] := ne_nil_of_length_pos (hx ▸ hn)
  obtain ⟨s', hs', hval⟩ := bits_signBit h hne
  cases hs'.symm.trans hs
  have hbits := bits_stepShr hval h hx hu hy hn hr
  rw [value_bits_bop (f := fun _ x y => Val.bitvec (x.sshiftRight' y)) rfl rfl h hx hu hy]
  refine (hbits.value_eq (x := (bvOf n xs).sshiftRight' (bvOf n ys)) (by rw [length_shr, hx]) ?_).symm
  have hmsb := msb_bvOf hx hne
  rw [BitVec.sshiftRight_eq', toNat_bvOf hy]
  cases hlast : xs.getLast hne
  · rw [hlast] at hmsb
    rw [BitVec.sshiftRight_eq_of_msb_false hmsb, toNat_shr_false, BitVec.toNat_ushiftRight,
      toNat_bvOf hx, Nat.shiftRight_eq_div_pow]
  · -- shifting in ones is shifting in zeros, complemented
    rw [hlast] at hmsb
    have hcompl := toNat_map_not (shr true (toNat ys) xs)
    have hnot := toNat_map_not xs
    rw [map_not_shr, Bool.not_true, toNat_shr_false, length_shr, hx] at hcompl
    rw [hx] at hnot
    rw [BitVec.sshiftRight_eq_of_msb_true hmsb, toNat_not, BitVec.toNat_ushiftRight,
      toNat_not, toNat_bvOf hx, Nat.shiftRight_eq_div_pow,
      show 2 ^ n - 1 - toNat xs = toNat (xs.map not) by omega]
    omega

/-! ## All operators -/

/-- The term is a list of `n` Boolean terms. -/
def BitArg (Γ : Nat → Ty) (n : Nat) (t : Term) : Prop :=
  ∃ ts, t = prependNAryChildren (.sym .fromBools) bvEmpty ts ∧ ts.length = n ∧
    ∀ b ∈ ts, typeof Γ b = some .bool

/-- The operators of two arguments of one width. -/
def blastBinary : List Sym :=
  [.eq, .bvult, .bvule, .bvslt, .bvsle, .bvxnor, .bvudiv, .bvurem, .bvsub, .bvashr, .bvlshr,
    .bvshl, .bvcomp, .bvultbv, .bvsltbv]

/-- The operators that are written as a list of arguments of one width. -/
def blastNary : List Sym := [.bvor, .bvand, .bvxor, .bvadd, .bvmul]

/-- Applications of the operators that `$bv_mk_bitblast_step` handles to lists
of bits. -/
inductive Blastable (Γ : Nat → Ty) : Term → Prop
  | unary {s : Sym} {n : Nat} {x : Term} (hs : s = .bvnot ∨ s = .bvneg) (hn : 0 < n)
      (hx : BitArg Γ n x) : Blastable Γ (uop s x)
  | binary {s : Sym} {n : Nat} {x y : Term} (hs : s ∈ blastBinary) (hn : 0 < n)
      (hx : BitArg Γ n x) (hy : BitArg Γ n y) : Blastable Γ (bop s x y)
  | nary {s : Sym} {n : Nat} {x a : Term} {xs : List Term} (hs : s ∈ blastNary) (hn : 0 < n)
      (hx : ∀ y ∈ x :: xs, BitArg Γ n y) (ha : mkNary Γ s x xs = some a) : Blastable Γ a
  | concat {x a : Term} {xs : List Term} (hx : ∀ y ∈ x :: xs, ∃ n, 0 < n ∧ BitArg Γ n y)
      (ha : mkNary Γ .concat x xs = some a) : Blastable Γ a
  | extract {n : Nat} {hi lo : Int} {x : Term} (hlo : 0 ≤ lo) (hle : lo ≤ hi + 1) (hhi : hi < n)
      (hx : BitArg Γ n x) : Blastable Γ (.app (bop .extract (.num hi) (.num lo)) x)
  | signExtend {n k : Nat} {x : Term} (hn : 0 < n) (hx : BitArg Γ n x) :
      Blastable Γ (bop .signExtend (.num k) x)
  | ite {n : Nat} {c x y : Term} (hn : 0 < n) (hc : BitArg Γ 1 c) (hx : BitArg Γ n x)
      (hy : BitArg Γ n y) : Blastable Γ (.app (bop .bvite c x) y)

/-- The non-strict comparisons whose step is the strict comparison, at an
interpretation that makes the two arguments equal. -/
def OrEqualLost (I : Interp Γ) (a : Term) : Prop :=
  ∃ x y, (a = bop .bvule x y ∨ (a = bop .bvsle x y ∧ bvBitwidth Γ x ≠ some 1)) ∧
    value I x = value I y

lemma BitArg.bits (h : BitArg Γ n t) (I : Interp Γ) : ∃ xs, Bits I t xs ∧ xs.length = n := by
  obtain ⟨ts, rfl, rfl, hts⟩ := h
  induction ts with
  | nil => exact ⟨[], .nil, rfl⟩
  | cons a ts ih =>
    obtain ⟨x, hx⟩ := value_of_typeof I (hts a (by simp))
    obtain ⟨xs, hxs, hlen⟩ := ih fun b hb => hts b (by simp [hb])
    exact ⟨x :: xs, .cons hx hxs, congrArg Nat.succ hlen⟩

lemma BitArg.typeof (h : BitArg Γ n t) : typeof Γ t = some (.bitvec n) := by
  obtain ⟨ts, rfl, rfl, hts⟩ := h
  induction ts with
  | nil => rfl
  | cons a ts ih =>
    rw [prependNAryChildren_cons, typeof_bop Γ rfl, hts a (by simp),
      ih fun b hb => hts b (by simp [hb])]
    rfl

lemma BitArg.bvBitwidth (h : BitArg Γ n t) : bvBitwidth Γ t = some n := by
  rw [EthosCpc.bvBitwidth, h.typeof]
  rfl

variable {x y : Term}

lemma orEqualLost_bop {s : Sym} : OrEqualLost I (bop s x y) ↔
      (s = .bvule ∨ (s = .bvsle ∧ bvBitwidth Γ x ≠ some 1)) ∧ value I x = value I y := by
  constructor
  · rintro ⟨x', y', heq, hval⟩
    rcases heq with heq | ⟨heq, hw⟩
    · cases heq
      exact ⟨.inl rfl, hval⟩
    · cases heq
      exact ⟨.inr ⟨rfl, hw⟩, hval⟩
  · rintro ⟨hs, hval⟩
    refine ⟨x, y, ?_, hval⟩
    rcases hs with rfl | ⟨rfl, hw⟩
    · exact .inl rfl
    · exact .inr ⟨rfl, hw⟩

lemma not_orEqualLost_bop {s : Sym} (hs : s ≠ .bvule) (hs' : s ≠ .bvsle) :
    ¬ OrEqualLost I (bop s x y) := by
  rw [orEqualLost_bop]
  rintro ⟨h | ⟨h, -⟩, -⟩
  · exact hs h
  · exact hs' h

lemma value_eq_iff (h : Bits I t xs) (hx : xs.length = n) (hu : Bits I u ys)
    (hy : ys.length = n) : value I t = value I u ↔ xs = ys := by
  rw [h.value_bvOf hx, hu.value_bvOf hy, Option.some.injEq, Val.bitvec_inj, eq_iff_bvOf hx hy]

lemma step_bvule (h : Bits I t xs) (hx : xs.length = n) (hu : Bits I u ys) (hy : ys.length = n)
    (hn : 0 < n) (hr : bvBitblastUlt t u true = some r) :
    value I (bop .bvule t u) = value I r ↔ ¬ value I t = value I u := by
  rw [step_ult true h hx hu hy hn hr, value_eq_iff h hx hu hy,
    value_bits_bop (f := fun _ x y => Val.bool (x.ule y)) rfl rfl h hx hu hy, Option.some.injEq,
    Val.bool_inj, BitVec.ule_eq_decide, ult_eq_decide, decide_eq_decide, toNat_bvOf hx,
    toNat_bvOf hy, ← toNat_inj (hx.trans hy.symm)]
  omega

lemma step_bvsle (h : Bits I t xs) (hx : xs.length = n) (hu : Bits I u ys) (hy : ys.length = n)
    (hn : 0 < n) (hr : bvBitblastSlt t u true = some r) :
    value I (bop .bvsle t u) = value I r ↔ ¬ (n ≠ 1 ∧ value I t = value I u) := by
  rw [step_slt true h hx hu hy hn hr, value_eq_iff h hx hu hy,
    value_bits_bop (f := fun _ x y => Val.bool (x.sle y)) rfl rfl h hx hu hy, Option.some.injEq,
    Val.bool_inj, BitVec.sle_eq_slt_or_eq, Bool.true_and]
  have hbeq : (bvOf n xs == bvOf n ys) = decide (xs = ys) := by
    rw [Bool.eq_iff_iff, beq_iff_eq, decide_eq_true_eq, eq_iff_bvOf hx hy]
  rw [hbeq]
  by_cases heq : xs = ys
  swap
  · simp [heq]
  -- equal lists: the strict comparison is false
  subst heq
  have hirr : (bvOf n xs).slt (bvOf n xs) = false := by
    rw [BitVec.slt_eq_decide]
    simp
  by_cases hn1 : n = 1
  · simp [hn1]
  · simp [hn1, hirr]

lemma step_binary_iff {s : Sym} (hs : s ∈ blastBinary) (hn : 0 < n)
    (hx : BitArg Γ n x) (hy : BitArg Γ n y) (hr : bvMkBitblastStepBop Γ s x y = some r) :
    value I (bop s x y) = value I r ↔ ¬ OrEqualLost I (bop s x y) := by
  obtain ⟨xs, hbx, hlx⟩ := hx.bits I
  obtain ⟨ys, hby, hly⟩ := hy.bits I
  simp only [blastBinary, mem_cons, List.not_mem_nil, or_false] at hs
  rcases hs with rfl | rfl | rfl | rfl | rfl | rfl | rfl | rfl | rfl | rfl | rfl | rfl | rfl |
    rfl | rfl
  case inr.inr.inl =>
    rw [step_bvule hbx hlx hby hly hn hr, orEqualLost_bop]
    simp
  case inr.inr.inr.inr.inl =>
    rw [step_bvsle hbx hlx hby hly hn hr, orEqualLost_bop, hx.bvBitwidth]
    simp
  all_goals refine iff_of_true ?_ (not_orEqualLost_bop (by decide) (by decide))
  · exact (step_eq hbx hlx hby hly hr).1
  · rw [step_ult false hbx hlx hby hly hn hr,
      value_bits_bop (f := fun _ x y => Val.bool (x.ult y)) rfl rfl hbx hlx hby hly]
  · rw [step_slt false hbx hlx hby hly hn hr,
      value_bits_bop (f := fun _ x y => Val.bool (x.slt y)) rfl rfl hbx hlx hby hly]
    simp
  · exact step_bvxnor hbx hlx hby hly hr
  · exact step_bvudiv hbx hlx hby hly hn hr
  · exact step_bvurem hbx hlx hby hly hn hr
  · obtain ⟨u', hu', hr⟩ := bind_inv hr
    exact step_bvsub hbx hlx hby hly hu' hr
  · obtain ⟨s, hs, hr⟩ := bind_inv hr
    exact step_bvashr hbx hlx hby hly hn hs hr
  · exact step_bvlshr hbx hlx hby hly hn hr
  · exact step_bvshl hbx hlx hby hly hn hr
  · obtain ⟨b, hb, rfl⟩ := map_inv hr
    rw [value_singleton (step_eq hbx hlx hby hly hb).2,
      value_bits_bop (f := fun _ x y => Val.bitvec (ofBool (x == y))) rfl rfl hbx hlx hby hly]
    congr 3
    rw [Bool.eq_iff_iff, beq_iff_eq, decide_eq_true_eq, eq_iff_bvOf hlx hly]
  · obtain ⟨b, hb, rfl⟩ := map_inv hr
    rw [value_singleton (step_ult false hbx hlx hby hly hn hb),
      value_bits_bop (f := fun _ x y => Val.bitvec (ofBool (x.ult y))) rfl rfl hbx hlx hby hly]
  · obtain ⟨b, hb, rfl⟩ := map_inv hr
    rw [value_singleton (step_slt false hbx hlx hby hly hn hb),
      value_bits_bop (f := fun _ x y => Val.bitvec (ofBool (x.slt y))) rfl rfl hbx hlx hby hly]
    simp

/-- The list of an operator, taken apart. -/
lemma mkNary_inv {s : Sym} {a : Term} (ha : mkNary Γ s x as = some a) :
    ∃ nil, nilFor Γ s x = some nil ∧ a = bop s x (prependNAryChildren (.sym s) nil as) := by
  obtain ⟨nil, hnil, rfl⟩ := map_inv ha
  exact ⟨nil, hnil, rfl⟩

lemma step_nary_value {s : Sym} {a : Term} (hs : s ∈ blastNary)
    (hx : ∀ y ∈ x :: as, BitArg Γ n y) (ha : mkNary Γ s x as = some a)
    (hr : bvMkBitblastStep Γ a = some r) : value I a = value I r := by
  obtain ⟨nil, hnil, rfl⟩ := mkNary_inv ha
  obtain ⟨xs, hbx, hlx⟩ := (hx x (by simp)).bits I
  have has : ∀ y ∈ as, ∃ ys, Bits I y ys ∧ ys.length = n :=
    fun y hy => (hx y (by simp [hy])).bits I
  have htype := (hx x (by simp)).typeof
  simp only [blastNary, mem_cons, List.not_mem_nil, or_false] at hs
  rcases hs with rfl | rfl | rfl | rfl | rfl
  · obtain ⟨v, rfl, hv⟩ := (bvNary_bvor (I := I)).nilFor htype hnil
    exact step_nary bvNary_bvor (P := bvMkBitblastStepBitwise .bvor .or) hv (fun _ => rfl)
      (fun _ _ _ => rfl) gate_or has hbx hlx hr
  · obtain ⟨v, rfl, hv⟩ := (bvNary_bvand (I := I)).nilFor htype hnil
    exact step_nary bvNary_bvand (P := bvMkBitblastStepBitwise .bvand .and) hv (fun _ => rfl)
      (fun _ _ _ => rfl) gate_and has hbx hlx hr
  · obtain ⟨v, rfl, hv⟩ := (bvNary_bvxor (I := I)).nilFor htype hnil
    exact step_nary bvNary_bvxor (P := bvMkBitblastStepBitwise .bvxor .xor) hv (fun _ => rfl)
      (fun _ _ _ => rfl) gate_xor has hbx hlx hr
  · obtain ⟨v, rfl, hv⟩ := (bvNary_bvadd (I := I)).nilFor htype hnil
    exact step_nary bvNary_bvadd (P := bvMkBitblastStepAdd) hv (fun _ => rfl)
      (fun _ _ _ => rfl) adder_add has hbx hlx hr
  obtain ⟨v, rfl, hv⟩ := (bvNary_bvmul (I := I)).nilFor htype hnil
  exact step_nary bvNary_bvmul (P := bvMkBitblastStepMul Γ) hv (fun _ => rfl)
    (fun _ _ _ => rfl) multiplier_mul has hbx hlx hr

lemma step_bvite {c : Term} (hc : BitArg Γ 1 c) (hx : BitArg Γ n x) (hy : BitArg Γ n y)
    (hr : bvMkBitblastStepIte c x y = some r) : value I (.app (bop .bvite c x) y) = value I r := by
  obtain ⟨cs, hbc, hlc⟩ := hc.bits I
  obtain ⟨xs, hbx, hlx⟩ := hx.bits I
  obtain ⟨ys, hby, hly⟩ := hy.bits I
  obtain ⟨b, rfl⟩ := List.length_eq_one_iff.1 hlc
  obtain ⟨c', e, rfl, hcv, he⟩ := hbc.eq_cons
  obtain rfl := he.eq_nil
  obtain ⟨r', hr', hbits⟩ := bits_stepIte hcv hbx hby (hlx.trans hly.symm)
  cases hr'.symm.trans hr
  rw [value_top I rfl, value_singleton hcv, hbx.value_bvOf hlx, hby.value_bvOf hly]
  refine (vBvite_eq (T := .bitvec n) (ofBool b) (bvOf n xs) (bvOf n ys)).trans ?_
  cases b
  · exact (hbits.value_bvOf hly).symm
  · exact (hbits.value_bvOf hlx).symm

/-- One step of bit-blasting keeps the value, unless the term is a non-strict
comparison of equal arguments. -/
theorem bvMkBitblastStep_value_iff {a b : Term} (ha : Blastable Γ a)
    (hb : bvMkBitblastStep Γ a = some b) (I : Interp Γ) :
    value I a = value I b ↔ ¬ OrEqualLost I a := by
  cases ha with
  | @unary s n x hs hn hx =>
    obtain ⟨xs, hbx, hlx⟩ := hx.bits I
    refine iff_of_true ?_ ?_
    · rcases hs with rfl | rfl
      · exact step_bvnot hbx hlx hb
      · obtain ⟨t', ht', hb⟩ := bind_inv hb
        obtain ⟨w, hw, hb⟩ := bind_inv hb
        obtain rfl : w = n := (hbx.bvBitwidth hw).trans hlx
        exact step_bvneg hbx hlx ht' hb
    rintro ⟨x', y', heq | ⟨heq, -⟩, -⟩
    · cases heq
    · cases heq
  | binary hs hn hx hy => exact step_binary_iff hs hn hx hy hb
  | nary hs hn hx ha =>
    refine iff_of_true (step_nary_value hs hx ha hb) ?_
    obtain ⟨nil, -, rfl⟩ := mkNary_inv ha
    exact not_orEqualLost_bop (by rintro rfl; revert hs; decide) (by rintro rfl; revert hs; decide)
  | @concat x a xs hx ha =>
    obtain ⟨nil, hnil, rfl⟩ := mkNary_inv ha
    cases hnil
    refine iff_of_true ?_ (not_orEqualLost_bop (by decide) (by decide))
    have hbits : ∀ y ∈ x :: xs, ∃ ys, Bits I y ys := by
      intro y hy
      obtain ⟨n, _, hn⟩ := hx y hy
      obtain ⟨ys, hys, _⟩ := hn.bits I
      exact ⟨ys, hys⟩
    obtain ⟨r, rs, hr, _, hval⟩ := bits_stepConcat hbits
    cases hr.symm.trans hb
    exact hval
  | extract hlo hle hhi hx =>
    obtain ⟨xs, hbx, hlx⟩ := hx.bits I
    refine iff_of_true (step_extract hlo hle hbx hlx hhi hb) ?_
    rintro ⟨x', y', heq | ⟨heq, -⟩, -⟩
    · cases heq
    · cases heq
  | @signExtend n k x hn hx =>
    obtain ⟨xs, hbx, hlx⟩ := hx.bits I
    refine iff_of_true ?_ (not_orEqualLost_bop (by decide) (by decide))
    have hb' : ((bvBitblastSignBit x).bind fun s =>
        bvBitblastConcat x (bvBitblastRepeat s k)) = some b := by
      simpa [bvMkBitblastStep, bvMkBitblastStepBop] using hb
    obtain ⟨s, hs, hb⟩ := bind_inv hb'
    exact step_signExtend hbx hlx hn hs hb
  | ite hn hc hx hy =>
    refine iff_of_true (step_bvite hc hx hy hb) ?_
    rintro ⟨x', y', heq | ⟨heq, -⟩, -⟩
    · cases heq
    · cases heq

/-- The list of the one bit `true`. -/
abbrev oneBit : Term := bop .fromBools (.bool true) bvEmpty

lemma bitArg_oneBit {Γ : Nat → Ty} : BitArg Γ 1 oneBit := by
  refine ⟨[.bool true], rfl, rfl, ?_⟩
  intro b hb
  rw [List.mem_singleton.1 hb]
  rfl

lemma blastable_oneBit {Γ : Nat → Ty} {s : Sym} (hs : s ∈ blastBinary) :
    Blastable Γ (bop s oneBit oneBit) :=
  .binary hs Nat.one_pos bitArg_oneBit bitArg_oneBit

/-- A strict comparison keeps its value also at equal arguments. -/
theorem bvMkBitblastStep_value_iff_bvult :
    bvMkBitblastStep (fun _ => .int) (bop .bvult oneBit oneBit) =
        some (mkAnd2 (uop .not (.bool true)) (.bool true)) ∧
      value zeroInterp (bop .bvult oneBit oneBit) =
        value zeroInterp (mkAnd2 (uop .not (.bool true)) (.bool true)) :=
  ⟨rfl, (bvMkBitblastStep_value_iff (blastable_oneBit (by decide)) rfl zeroInterp).2
    (not_orEqualLost_bop (by decide) (by decide))⟩

/-- `(bvule 1 1)` is true, and is blasted to a false formula. -/
theorem bvMkBitblastStep_bvule_strict : Blastable (fun _ => .int) (bop .bvule oneBit oneBit) ∧
      bvMkBitblastStep (fun _ => .int) (bop .bvule oneBit oneBit) =
        some (mkAnd2 (uop .not (.bool true)) (.bool true)) ∧
      value zeroInterp (bop .bvule oneBit oneBit) = some (Val.bool true) ∧
      value zeroInterp (mkAnd2 (uop .not (.bool true)) (.bool true)) = some (Val.bool false) := by
  have hone : Bits zeroInterp oneBit [true] := .cons (value_bool _ true) .nil
  refine ⟨blastable_oneBit (by decide), rfl, ?_, ?_⟩
  · rw [value_bits_bop (n := 1) (f := fun _ x y => Val.bool (x.ule y)) rfl rfl hone rfl hone rfl]
    rfl
  · exact value_mkAnd2 (value_not (value_bool _ true)) (value_bool _ true)

end EthosCpc
