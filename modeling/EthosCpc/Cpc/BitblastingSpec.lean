import EthosCpc.Cpc.Bitblasting
import EthosCpc.Cpc.EvaluateSpec
import EthosCpc.Library.BitList

/-!
# Correctness of bit-blasting

Every program of `EthosCpc.Cpc.Bitblasting` is described by what it does to
the values of the bits.  `Bits I t bs` says that the term `t` is a list of
bits with the values `bs`, and the lemma for a program gives the values of
the bits it returns, by the circuits of `EthosCpc.Library.BitList`.  What
the circuits compute as numbers is a matter of that library; this module
only puts the two together, operator by operator.

The one operator family that goes wrong is the non-strict comparison.
`bvMkBitblastStep_value` says exactly when: a `bvule`, or a `bvsle` of
width at least two, is blasted to the strict comparison, so the value is
lost where the two arguments are equal.
-/

namespace EthosCpc

open Bool (cond_self or_comm toNat_false)
open Term (bop uop)
open Library.BitList
open Option (bind_some map_some some.inj)
open Nat (log2 min_eq_left mod_eq_of_lt mul_one mul_zero pow_succ pow_zero sub_self zero_add zero_mod)
open List (length_cons length_drop length_map length_nil length_pos_iff length_replicate
  length_take take_zero)

variable {Γ : Nat → Ty} {I : Interp Γ}

/-! ## Gates -/

section Gates

variable {a b c : Term} {x y z : Bool}

lemma value_not (ha : value I a = some (Val.bool x)) :
    value I (uop .not a) = some (Val.bool (!x)) := by
  rw [value_uop I rfl, ha]
  rfl

lemma value_bool2 {s : Sym} {f : Bool → Bool → Bool} (hs : s.arity = 2)
    (hsym : symVal I s = vBool2 f) (ha : value I a = some (Val.bool x))
    (hb : value I b = some (Val.bool y)) : value I (bop s a b) = some (Val.bool (f x y)) := by
  rw [value_bop I hs, ha, hb, hsym]
  rfl

lemma value_and (ha : value I a = some (Val.bool x)) (hb : value I b = some (Val.bool y)) :
    value I (bop .and a b) = some (Val.bool (x && y)) := value_bool2 rfl rfl ha hb

lemma value_mkOr2 (ha : value I a = some (Val.bool x)) (hb : value I b = some (Val.bool y)) :
    value I (mkOr2 a b) = some (Val.bool (x || y)) := by
  rw [value_bool2 rfl rfl ha (value_bool2 rfl rfl hb (value_bool I false))]
  simp

lemma value_mkAnd2 (ha : value I a = some (Val.bool x)) (hb : value I b = some (Val.bool y)) :
    value I (mkAnd2 a b) = some (Val.bool (x && y)) := by
  rw [value_bool2 rfl rfl ha (value_bool2 rfl rfl hb (value_bool I true))]
  simp

lemma value_xor (ha : value I a = some (Val.bool x)) (hb : value I b = some (Val.bool y)) :
    value I (bop .xor a b) = some (Val.bool (x ^^ y)) := value_bool2 rfl rfl ha hb

lemma value_eq_bool (ha : value I a = some (Val.bool x)) (hb : value I b = some (Val.bool y)) :
    value I (bop .eq a b) = some (Val.bool (x == y)) := by
  have htruth : truth (x = y) = (x == y) := by
    cases x <;> cases y <;> simp [truth]
  rw [value_bop I rfl, ha, hb, ← htruth]
  show vEq [Val.bool x, Val.bool y] = _
  simp only [vEq, dif_pos]
  rfl

lemma value_mkIte (ha : value I a = some (Val.bool x)) (hb : value I b = some (Val.bool y))
    (hc : value I c = some (Val.bool z)) :
    value I (mkIte a b c) = some (Val.bool (bif x then y else z)) := by
  rw [value_top I rfl, ha, hb, hc]
  cases x <;> rfl

end Gates

/-! ## Lists of bits -/

/-- The term is a list of bits with the given values. -/
inductive Bits (I : Interp Γ) : Term → List Bool → Prop
  | nil : Bits I bvEmpty []
  | cons {t r : Term} {b : Bool} {bs : List Bool} (ht : value I t = some (Val.bool b))
      (hr : Bits I r bs) : Bits I (bop .fromBools t r) (b :: bs)

variable {t u r : Term} {xs ys : List Bool}

lemma Bits.eq_nil (h : Bits I t []) : t = bvEmpty := by
  cases h
  rfl

lemma Bits.eq_cons {b : Bool} (h : Bits I t (b :: xs)) :
    ∃ a r, t = bop .fromBools a r ∧ value I a = some (Val.bool b) ∧ Bits I r xs := by
  cases h with
  | cons ht hr => exact ⟨_, _, rfl, ht, hr⟩

lemma Bits.unique (h : Bits I t xs) (h' : Bits I t ys) : xs = ys := by
  induction h generalizing ys with
  | nil =>
    cases h'
    rfl
  | cons ht _ ih =>
    cases h' with
    | cons ht' hr' => rw [ih hr', Val.bool_inj.1 (some.inj (ht.symm.trans ht'))]

lemma Bits.value (h : Bits I t xs) :
    value I t = some (Val.bitvec (BitVec.ofNat xs.length (toNat xs))) := by
  induction h with
  | nil => rfl
  | @cons t r b bs ht hr ih =>
    rw [value_bop I rfl, ht, ih]
    show some (Val.bitvec (BitVec.concat (BitVec.ofNat bs.length (toNat bs)) b)) = _
    congr 2
    have hlt := toNat_lt bs
    have hlt' := toNat_lt (b :: bs)
    rw [length_cons] at hlt'
    apply BitVec.eq_of_toNat_eq
    show _ = (BitVec.ofNat (bs.length + 1) (toNat (b :: bs))).toNat
    rw [BitVec.toNat_concat, BitVec.toNat_ofNat, BitVec.toNat_ofNat, mod_eq_of_lt hlt,
      mod_eq_of_lt hlt', toNat_cons]
    omega

lemma Bits.typeof (h : Bits I t xs) : ∀ {T : Ty}, typeof Γ t = some T → T = .bitvec xs.length := by
  intro T hT
  obtain ⟨x, hx⟩ := value_of_typeof I hT
  exact congrArg Sigma.fst (some.inj (hx.symm.trans h.value))

lemma Bits.bvBitwidth (h : Bits I t xs) {n : Nat} (hn : bvBitwidth Γ t = some n) :
    n = xs.length := by
  obtain ⟨T, hT, hw⟩ := bind_inv hn
  rw [h.typeof hT] at hw
  exact (some.inj hw).symm

lemma Bits.elems (h : Bits I t xs) : ∃ ts, t = prependNAryChildren (.sym .fromBools) bvEmpty ts ∧
      List.Forall₂ (fun s b => EthosCpc.value I s = some (Val.bool b)) ts xs := by
  induction h with
  | nil => exact ⟨[], rfl, .nil⟩
  | cons ht _ ih =>
    obtain ⟨ts, rfl, hts⟩ := ih
    exact ⟨_ :: ts, rfl, .cons ht hts⟩

lemma bits_prepend {ts : List Term} {bs : List Bool}
    (h : List.Forall₂ (fun s b => value I s = some (Val.bool b)) ts bs) (hr : Bits I r xs) :
    Bits I (prependNAryChildren (.sym .fromBools) r ts) (bs ++ xs) := by
  induction h with
  | nil => exact hr
  | cons ht _ ih => exact .cons ht ih

lemma getNAryChildren_fromBools (ts : List Term) : getNAryChildren (.sym .fromBools) bvEmpty
      (prependNAryChildren (.sym .fromBools) bvEmpty ts) = some ts :=
  getNAryChildren_prepend rfl ts

lemma bits_rev (h : Bits I t xs) : ∃ r, bvBitblastRev t = some r ∧ Bits I r xs.reverse := by
  obtain ⟨ts, rfl, hts⟩ := h.elems
  refine ⟨prependNAryChildren (.sym .fromBools) bvEmpty ts.reverse, ?_, ?_⟩
  · rw [bvBitblastRev, eoListRev, getNAryChildren_fromBools]
    rfl
  · have hr := bits_prepend (List.rel_reverse hts) (.nil : Bits I bvEmpty [])
    rwa [List.append_nil] at hr

lemma eoListLen_bits (h : Bits I t xs) :
    eoListLen (.sym .fromBools) bvEmpty t = some xs.length := by
  obtain ⟨ts, rfl, hts⟩ := h.elems
  rw [eoListLen, getNAryChildren_fromBools, map_some, hts.length_eq]

/-! ## Programs on lists of bits

Each program returns a list of bits again.  The existence part says that it
is not stuck on lists of the lengths it is called with.
-/

lemma bits_concat (h : Bits I t xs) (hu : Bits I u ys) :
    ∃ r, bvBitblastConcat t u = some r ∧ Bits I r (xs ++ ys) := by
  induction h with
  | nil => exact ⟨u, rfl, hu⟩
  | cons ht _ ih =>
    obtain ⟨r, hr, hbits⟩ := ih
    exact ⟨_, by rw [bvBitblastConcat, hr]; rfl, .cons ht hbits⟩

lemma bits_repeat {b : Term} {x : Bool} (hb : value I b = some (Val.bool x)) (n : Nat) :
    Bits I (bvBitblastRepeat b n) (List.replicate n x) := by
  induction n with
  | zero => exact .nil
  | succ n ih => exact .cons hb ih

lemma bits_zero (n : Nat) : Bits I (bvBitblastZero n) (List.replicate n false) :=
  bits_repeat (value_bool I false) n

lemma bits_prefix (h : Bits I t xs) (k : Nat) :
    ∃ r, bvBitblastPrefix k t = some r ∧ Bits I r (xs.take k) := by
  induction h generalizing k with
  | nil =>
    refine ⟨bvEmpty, ?_, by rw [List.take_nil]; exact .nil⟩
    rw [bvBitblastPrefix]
    split <;> rfl
  | cons ht _ ih =>
    cases k with
    | zero => exact ⟨bvEmpty, by rw [bvBitblastPrefix]; rfl, .nil⟩
    | succ k =>
      obtain ⟨r, hr, hbits⟩ := ih k
      refine ⟨_, ?_, .cons ht hbits⟩
      rw [bvBitblastPrefix, if_neg (by omega),
        show ((k + 1 : Nat) : Int) + -1 = (k : Int) by omega, hr]
      rfl

lemma bits_subsequence (h : Bits I t xs) (l k : Nat) :
    ∃ r, bvBitblastSubsequence l ((l : Int) + k - 1) t = some r ∧
      Bits I r ((xs.drop l).take k) := by
  induction h generalizing l with
  | nil =>
    refine ⟨bvEmpty, ?_, by rw [List.drop_nil, List.take_nil]; exact .nil⟩
    rw [bvBitblastSubsequence]
  | cons ht hr' ih =>
    cases l with
    | zero =>
      obtain ⟨r, hr, hbits⟩ := bits_prefix (.cons ht hr') k
      refine ⟨r, ?_, hbits⟩
      rw [bvBitblastSubsequence, if_pos (Int.natCast_zero),
        show ((0 : Nat) : Int) + k - 1 + 1 = (k : Int) by omega, hr]
    | succ l =>
      obtain ⟨r, hr, hbits⟩ := ih l
      refine ⟨r, ?_, hbits⟩
      rw [bvBitblastSubsequence, if_neg (by omega),
        show ((l + 1 : Nat) : Int) + -1 = (l : Int) by omega,
        show ((l + 1 : Nat) : Int) + k - 1 + -1 = (l : Int) + k - 1 by omega, hr]

lemma bits_signBit (h : Bits I t xs) (hne : xs ≠ []) :
    ∃ s, bvBitblastSignBit t = some s ∧ value I s = some (Val.bool (xs.getLast hne)) := by
  obtain ⟨r, hr, hbits⟩ := bits_rev h
  have hrev : xs.reverse = xs.getLast hne :: xs.dropLast.reverse := by
    conv_lhs => rw [← List.dropLast_append_getLast hne, List.reverse_append]
    rfl
  rw [hrev] at hbits
  obtain ⟨s, r', rfl, hs, -⟩ := hbits.eq_cons
  exact ⟨s, by rw [bvBitblastSignBit, hr]; rfl, hs⟩

lemma bits_not (h : Bits I t xs) :
    ∃ r, bvBitblastApplyUnary .not t = some r ∧ Bits I r (xs.map not) := by
  induction h with
  | nil => exact ⟨bvEmpty, rfl, .nil⟩
  | cons ht _ ih =>
    obtain ⟨r, hr, hbits⟩ := ih
    exact ⟨_, by rw [bvBitblastApplyUnary, hr]; rfl, .cons (value_not ht) hbits⟩

/-- The gate that `$bv_bitblast_binary_app` builds for a connective. -/
def gate : Sym → Bool → Bool → Bool
  | .and => Bool.and
  | .or => Bool.or
  | .xor => Bool.xor
  | _ => fun x y => x == y

lemma value_binaryApp {f : Sym} (hf : f = .and ∨ f = .or ∨ f = .xor ∨ f = .eq) {a b : Term}
    {x y : Bool} (ha : value I a = some (Val.bool x)) (hb : value I b = some (Val.bool y)) :
    ∃ c, bvBitblastBinaryApp f a b = some c ∧ value I c = some (Val.bool (gate f x y)) := by
  rcases hf with rfl | rfl | rfl | rfl
  · exact ⟨_, rfl, value_mkAnd2 ha hb⟩
  · exact ⟨_, rfl, value_mkOr2 ha hb⟩
  · exact ⟨_, rfl, value_xor ha hb⟩
  · exact ⟨_, rfl, value_eq_bool ha hb⟩

lemma bits_binary {f : Sym} (hf : f = .and ∨ f = .or ∨ f = .xor ∨ f = .eq) (h : Bits I t xs)
    (hu : Bits I u ys) (hlen : xs.length = ys.length) :
    ∃ r, bvBitblastApplyBinary f t u = some r ∧ Bits I r (List.zipWith (gate f) xs ys) := by
  induction h generalizing u ys with
  | nil =>
    cases hu with
    | nil => exact ⟨bvEmpty, rfl, .nil⟩
    | cons _ _ => simp at hlen
  | cons ht _ ih =>
    cases hu with
    | nil => simp at hlen
    | cons hu hus =>
      obtain ⟨r, hr, hbits⟩ := ih hus (by simpa using hlen)
      obtain ⟨c, hc, hval⟩ := value_binaryApp hf ht hu
      exact ⟨_, by rw [bvBitblastApplyBinary, hc, hr]; rfl, .cons hval hbits⟩

lemma bits_ite {c : Term} {b : Bool} (hc : value I c = some (Val.bool b)) (h : Bits I t xs)
    (hu : Bits I u ys) (hlen : xs.length = ys.length) :
    ∃ r, bvBitblastApplyIte c t u = some r ∧ Bits I r (bif b then xs else ys) := by
  rw [← zipWith_cond b hlen]
  induction h generalizing u ys with
  | nil =>
    cases hu with
    | nil => exact ⟨bvEmpty, rfl, .nil⟩
    | cons _ _ => simp at hlen
  | cons ht _ ih =>
    cases hu with
    | nil => simp at hlen
    | cons hu hus =>
      obtain ⟨r, hr, hbits⟩ := ih hus (by simpa using hlen)
      exact ⟨_, by rw [bvBitblastApplyIte, hr]; rfl, .cons (value_mkIte hc ht hu) hbits⟩

lemma bits_rshift_one (h : Bits I t xs) (hne : xs ≠ []) :
    ∃ r, bvBitblastRshift t 1 = some r ∧ Bits I r (shr false 1 xs) := by
  have hlen : 0 < xs.length := length_pos_iff.2 hne
  obtain ⟨s, hs, hbits⟩ := bits_subsequence h 1 xs.length
  obtain ⟨r, hr, hbits'⟩ := bits_concat hbits (bits_repeat (value_bool I false) 1)
  refine ⟨r, ?_, ?_⟩
  · rw [bvBitblastRshift, eoListLen_bits h, bind_some,
      show (xs.length : Int) = ((1 : Nat) : Int) + (xs.length : Nat) - 1 by omega, hs,
      bind_some, hr]
  · rw [List.take_of_length_le (by rw [length_drop]; omega)] at hbits'
    rwa [shr, List.drop_append_of_le_length hlen]

lemma bits_lshift_one (h : Bits I t xs) (hne : xs ≠ []) :
    ∃ r, bvBitblastLshift t 1 = some r ∧ Bits I r (shl 1 xs) := by
  have hlen : 0 < xs.length := length_pos_iff.2 hne
  obtain ⟨s, hs, hbits⟩ := bits_subsequence h 0 (xs.length - 1)
  obtain ⟨r, hr, hbits'⟩ := bits_concat (bits_repeat (value_bool I false) 1) hbits
  refine ⟨r, ?_, ?_⟩
  · rw [bvBitblastLshift, eoListLen_bits h, bind_some,
      show (xs.length : Int) + -(1 : Nat) + -1 = ((0 : Nat) : Int) + (xs.length - 1 : Nat) - 1 by
        omega]
    rw [show (0 : Int) = ((0 : Nat) : Int) from rfl, hs, bind_some, hr]
  rw [List.drop_zero] at hbits'
  rwa [shl, List.take_append, length_replicate, List.take_of_length_le
    (by rw [length_replicate]; exact hlen)]

/-! ## Equality and comparison -/

lemma stepEqRec_value (h : Bits I t xs) (hu : Bits I u ys) (hlen : xs.length = ys.length) :
    ∃ r, bvMkBitblastStepEqRec t u = some r ∧ value I r = some (Val.bool (decide (xs = ys))) ∧
      ∃ rs, r = prependNAryChildren (.sym .and) (.bool true) rs := by
  induction h generalizing u ys with
  | nil =>
    cases hu with
    | nil => exact ⟨.bool true, rfl, rfl, [], rfl⟩
    | cons _ _ => simp at hlen
  | @cons t r b bs ht _ ih =>
    cases hu with
    | nil => simp at hlen
    | @cons u v c cs hu hus =>
      obtain ⟨r, hr, hval, rs, rfl⟩ := ih hus (by simpa using hlen)
      refine ⟨_, by rw [bvMkBitblastStepEqRec, hr]; rfl, ?_, bop .eq t u :: rs, rfl⟩
      rw [prependNAryChildren_cons, value_and (value_eq_bool ht hu) hval]
      cases b <;> cases c <;> simp

lemma stepEq_value (h : Bits I t xs) (hu : Bits I u ys) (hlen : xs.length = ys.length) :
    ∃ r, bvMkBitblastStepEq t u = some r ∧ value I r = some (Val.bool (decide (xs = ys))) := by
  obtain ⟨r, hr, hval, rs, rfl⟩ := stepEqRec_value h hu hlen
  rw [bvMkBitblastStepEq, hr, bind_some, eoListSingletonElim, getNAryChildren_prepend rfl, map_some]
  cases rs with
  | nil => exact ⟨_, rfl, hval⟩
  | cons x rs =>
    cases rs with
    | cons y rs => exact ⟨_, rfl, hval⟩
    | nil =>
      -- the singleton `(and x)` is replaced by its element
      refine ⟨x, rfl, ?_⟩
      obtain ⟨v, v', hx, hv', hand⟩ := value_bop_inv I rfl hval
      obtain ⟨p, q, heq, hpq⟩ := vBool2_inv (show vBool2 Bool.and [v, v'] = _ from hand)
      cases heq
      obtain rfl : true = q := by simpa using hv'
      rw [hx, hpq, Bool.and_true]

variable {q : Bool}

lemma ultRec_value {res : Term} (hres : value I res = some (Val.bool q))
    (h : Bits I t xs) (hu : Bits I u ys) (hlen : xs.length = ys.length) :
    ∃ r, bvBitblastUltRec t u res = some r ∧ value I r = some (Val.bool (ltFold xs ys q)) := by
  induction h generalizing u ys res q with
  | nil =>
    cases hu with
    | nil => exact ⟨res, rfl, hres⟩
    | cons _ _ => simp at hlen
  | cons ht _ ih =>
    cases hu with
    | nil => simp at hlen
    | cons hu hus =>
      exact ih (value_mkOr2 (value_mkAnd2 (value_eq_bool ht hu) hres)
        (value_mkAnd2 (value_not ht) hu)) hus (by simpa using hlen)

lemma ult_value (orEqual : Bool) (h : Bits I t xs) (hu : Bits I u ys)
    (hlen : xs.length = ys.length) (hne : xs ≠ []) :
    ∃ r, bvBitblastUlt t u orEqual = some r ∧
      value I r = some (Val.bool (decide (toNat xs < toNat ys))) := by
  cases h with
  | nil => contradiction
  | @cons t r b bs ht htr =>
    cases hu with
    | nil => simp at hlen
    | @cons u v c cs hu hus =>
      have hlen' : bs.length = cs.length := by simpa using hlen
      obtain ⟨r, hr, hval⟩ :=
        ultRec_value (value_mkAnd2 (value_not ht) hu) htr hus hlen'
      refine ⟨r, hr, ?_⟩
      rw [hval]
      congr 2
      have hiff := ltFold_iff bs cs (!b && c) hlen'
      rw [Bool.eq_iff_iff, hiff, decide_eq_true_eq, toNat_cons, toNat_cons]
      cases b <;> cases c <;> simp <;> omega

/-- What a signed comparison is blasted to, on lists with the sign bit in front:
the strict comparison, except for width one, where `orEqual` is respected. -/
lemma sltImpl_value (orEqual : Bool) {b c : Bool} (h : Bits I t (b :: xs))
    (hu : Bits I u (c :: ys)) (hlen : xs.length = ys.length) :
    ∃ r, bvBitblastSltImpl t u orEqual = some r ∧
      value I r = some (Val.bool ((b && !c) || ((b == c) &&
        ((xs.isEmpty && orEqual) || decide (toNat xs.reverse < toNat ys.reverse))))) := by
  obtain ⟨a, r, rfl, ha, hr⟩ := h.eq_cons
  obtain ⟨a', r', rfl, ha', hr'⟩ := hu.eq_cons
  cases hr with
  | nil =>
    cases hr' with
    | cons _ _ => simp at hlen
    | nil =>
      cases orEqual
      · refine ⟨mkAnd2 a (uop .not a'), rfl, ?_⟩
        rw [value_mkAnd2 ha (value_not ha')]
        simp
      · refine ⟨mkOr2 (bop .eq a a') (mkAnd2 a (uop .not a')), rfl, ?_⟩
        rw [value_mkOr2 (value_eq_bool ha ha') (value_mkAnd2 ha (value_not ha'))]
        simp [Bool.or_comm]
  | cons ht htr =>
    obtain ⟨r1, hr1, hbits1⟩ := bits_rev (.cons ht htr)
    obtain ⟨r2, hr2, hbits2⟩ := bits_rev hr'
    obtain ⟨ures, hures, hval⟩ := ult_value orEqual hbits1 hbits2 (by simpa using hlen) (by simp)
    refine ⟨mkOr2 (mkAnd2 (bop .eq a a') ures) (mkAnd2 a (uop .not a')), ?_, ?_⟩
    · rw [bvBitblastSltImpl, hr1, bind_some, hr2, bind_some, hures]
      · rfl
      · intro _ _ heq
        cases heq
    · rw [value_mkOr2 (value_mkAnd2 (value_eq_bool ha ha') hval) (value_mkAnd2 ha (value_not ha'))]
      simp [Bool.or_comm]

/-! ## Addition -/

variable {zs : List Bool}

lemma rippleCarryAdder2_bits {c acc : Term}
    (hc : value I c = some (Val.bool q)) (hacc : Bits I acc zs) (h : Bits I t xs)
    (hu : Bits I u ys) (hlen : xs.length = ys.length) :
    ∃ co r, bvRippleCarryAdder2 t u c acc = some (co, r) ∧
      value I co = some (Val.bool (adc xs ys q).1) ∧
      Bits I r (zs.reverse ++ (adc xs ys q).2) := by
  induction h generalizing u ys c q acc zs with
  | nil =>
    cases hu with
    | cons _ _ => simp at hlen
    | nil =>
      obtain ⟨r, hr, hbits⟩ := bits_rev hacc
      refine ⟨c, r, by rw [bvRippleCarryAdder2, hr]; rfl, hc, ?_⟩
      rwa [adc_nil, List.append_nil]
  | cons ht _ ih =>
    cases hu with
    | nil => simp at hlen
    | cons hu hus =>
      obtain ⟨co, r, hr, hco, hbits⟩ :=
        ih (value_mkOr2 (value_mkAnd2 ht hu) (value_mkAnd2 (value_xor ht hu) hc))
          (.cons (value_xor (value_xor ht hu) hc) hacc) hus (by simpa using hlen)
      refine ⟨co, r, hr, hco, ?_⟩
      rw [List.reverse_cons, List.append_assoc] at hbits
      exact hbits

lemma rippleCarryAdder2_empty {c : Term} (hc : value I c = some (Val.bool q))
    (h : Bits I t xs) (hu : Bits I u ys) (hlen : xs.length = ys.length) :
    ∃ co r, bvRippleCarryAdder2 t u c bvEmpty = some (co, r) ∧
      value I co = some (Val.bool (adc xs ys q).1) ∧ Bits I r (adc xs ys q).2 :=
  rippleCarryAdder2_bits hc .nil h hu hlen

lemma bits_adder {c : Term} (hc : value I c = some (Val.bool q))
    (h : Bits I t xs) (hu : Bits I u ys) (hlen : xs.length = ys.length) :
    ∃ r, bvRippleCarryAdder t u c = some r ∧ Bits I r (adc xs ys q).2 := by
  obtain ⟨co, r, hr, _, hbits⟩ := rippleCarryAdder2_empty hc h hu hlen
  exact ⟨r, by rw [bvRippleCarryAdder, hr]; rfl, hbits⟩

/-! ## Multiplication -/

lemma multiplierRecStep_zero (b1 b2 a2 br ar carry : Term) :
    bvShiftAddMultiplierRecStep b1 (bop .fromBools b2 a2) 0 (bop .fromBools br ar) carry =
      (bvShiftAddMultiplierRecStep b1 a2 0 ar
        (mkOr2 (mkAnd2 br (mkAnd2 b1 b2)) (mkAnd2 (bop .xor br (mkAnd2 b1 b2)) carry))).map
          (bop .fromBools (bop .xor (bop .xor br (mkAnd2 b1 b2)) carry)) := rfl

lemma multiplierRecStep_succ (b1 a2 br ar carry : Term) (k : Nat) :
    bvShiftAddMultiplierRecStep b1 a2 (k + 1 : Nat) (bop .fromBools br ar) carry =
      (bvShiftAddMultiplierRecStep b1 a2 k ar carry).map (bop .fromBools br) := by
  rw [bvShiftAddMultiplierRecStep, show ((k + 1 : Nat) : Int) + -1 = (k : Int) by omega]
  intro _ _ _ hk
  omega

/-- One row of the multiplier: the masked second factor is added to the
accumulator from the `k`-th bit on. -/
lemma bits_multiplierRecStep {b1 c : Term} {b q : Bool}
    (hb : value I b1 = some (Val.bool b)) (hc : value I c = some (Val.bool q))
    (hu : Bits I u ys) (h : Bits I t zs) (k : Nat) (hk : k ≤ zs.length)
    (hlen : zs.length - k ≤ ys.length) :
    ∃ r, bvShiftAddMultiplierRecStep b1 u k t c = some r ∧ Bits I r (zs.take k ++
        (adc (zs.drop k) ((ys.take (zs.length - k)).map (b && ·)) q).2) := by
  induction h generalizing u ys c q k with
  | nil =>
    obtain rfl : k = 0 := by simpa using hk
    exact ⟨bvEmpty, rfl, .nil⟩
  | cons ht htr ih =>
    cases k with
    | succ k =>
      obtain ⟨r, hr, hbits⟩ := ih hc hu k (by simpa using hk) (by simpa using hlen)
      refine ⟨_, by rw [multiplierRecStep_succ, hr]; rfl, ?_⟩
      rw [List.take_succ_cons, List.drop_succ_cons, length_cons, Nat.add_sub_add_right]
      exact .cons ht hbits
    | zero =>
      cases hu with
      | nil => simp at hlen
      | cons hy hys =>
        have haj := value_mkAnd2 hb hy
        obtain ⟨r, hr, hbits⟩ := ih
          (value_mkOr2 (value_mkAnd2 ht haj) (value_mkAnd2 (value_xor ht haj) hc)) hys 0
          (Nat.zero_le _) (by simpa using hlen)
        exact ⟨_, (multiplierRecStep_zero ..).trans (by rw [← Int.natCast_zero, hr]; rfl),
          .cons (value_xor (value_xor ht haj) hc) hbits⟩

lemma toNat_multiplierRow (b : Bool) {zs ys : List Bool} {k : Nat} (hk : k ≤ zs.length)
    (hlen : ys.length = zs.length) :
    toNat (zs.take k ++ (adc (zs.drop k) ((ys.take (zs.length - k)).map (b && ·)) false).2) =
      (toNat zs + 2 ^ k * (b.toNat * toNat ys)) % 2 ^ zs.length := by
  have hlen' : (zs.drop k).length = ((ys.take (zs.length - k)).map (b && ·)).length := by
    rw [length_drop, length_map, length_take]
    omega
  have hpow : 2 ^ zs.length = 2 ^ k * 2 ^ (zs.length - k) := by
    rw [← Nat.pow_add]
    congr 1
    omega
  have hsum : toNat (zs.take k) + 2 ^ k * toNat (zs.drop k) = toNat zs := by
    have h := toNat_append (zs.take k) (zs.drop k)
    rw [List.take_append_drop, length_take, Nat.min_eq_left hk] at h
    exact h.symm
  have htake := toNat_lt (zs.take k)
  rw [length_take, Nat.min_eq_left hk] at htake
  have hsplit : (toNat (zs.take k) + 2 ^ k * (toNat (zs.drop k) + b.toNat * toNat ys)) %
      (2 ^ k * 2 ^ (zs.length - k)) =
        toNat (zs.take k) + 2 ^ k * ((toNat (zs.drop k) + b.toNat * toNat ys) %
          2 ^ (zs.length - k)) := by
    rw [Nat.mod_mul, Nat.add_mul_mod_self_left, mod_eq_of_lt htake,
      Nat.add_mul_div_left _ _ (Nat.two_pow_pos k), Nat.div_eq_of_lt htake, Nat.zero_add]
  have hmask : (toNat (zs.drop k) + b.toNat * (toNat ys % 2 ^ (zs.length - k))) %
      2 ^ (zs.length - k) = (toNat (zs.drop k) + b.toNat * toNat ys) % 2 ^ (zs.length - k) := by
    rw [Nat.add_mod, Nat.mul_mod_mod, ← Nat.add_mod]
  rw [toNat_append, adc_mod _ _ _ hlen', toNat_map_and, toNat_take ys, length_take,
    Nat.min_eq_left hk, length_drop, Bool.toNat_false, Nat.add_zero, hmask, ← hsplit, ← hpow,
    Nat.mul_add, ← Nat.add_assoc, hsum]

lemma bits_multiplierRec (hu : Bits I u ys) (h : Bits I t xs) {acc : Term}
    (hacc : Bits I acc zs) (hlen : ys.length = zs.length) (k : Nat)
    (hk : k + xs.length ≤ zs.length) :
    ∃ r rs, bvShiftAddMultiplierRec t u k acc = some r ∧ Bits I r rs ∧ rs.length = zs.length ∧
      toNat rs = (toNat zs + 2 ^ k * (toNat xs * toNat ys)) % 2 ^ zs.length := by
  induction h generalizing acc zs k with
  | nil =>
    refine ⟨acc, zs, rfl, hacc, rfl, ?_⟩
    rw [toNat_nil, Nat.zero_mul, mul_zero, Nat.add_zero, mod_eq_of_lt (toNat_lt zs)]
  | @cons t r b bs ht _ ih =>
    rw [length_cons] at hk
    obtain ⟨r', hr', hbits⟩ := bits_multiplierRecStep ht (value_bool I false) hu hacc k
      (by omega) (by omega)
    have hrow := toNat_multiplierRow b (k := k) (by omega) hlen
    have hrowlen : (zs.take k ++
        (adc (zs.drop k) ((ys.take (zs.length - k)).map (b && ·)) false).2).length = zs.length := by
      rw [List.length_append, length_adc, length_take, length_drop]
      · omega
      · rw [length_drop, length_map, length_take]
        omega
    obtain ⟨r, rs, hr, hrs, hrslen, hval⟩ := ih hbits (by omega) (k + 1) (by omega)
    refine ⟨r, rs, ?_, hrs, by omega, ?_⟩
    · rw [bvShiftAddMultiplierRec, hr', bind_some,
        show (k : Int) + 1 = ((k + 1 : Nat) : Int) by omega, hr]
    rw [hval, hrowlen, hrow, Nat.mod_add_mod, toNat_cons, pow_succ]
    congr 1
    ring

lemma bits_multiplier (hu : Bits I u ys) (h : Bits I t xs) (hlen : xs.length = ys.length)
    (hr : bvShiftAddMultiplier Γ u t = some r) :
    ∃ rs, Bits I r rs ∧ rs.length = ys.length ∧ toNat rs = toNat ys * toNat xs % 2 ^ ys.length := by
  cases h with
  | nil => simp [bvShiftAddMultiplier] at hr
  | @cons t v b bs ht hv =>
    obtain ⟨sz, hsz, hr⟩ := bind_inv hr
    obtain rfl := hu.bvBitwidth hsz
    rw [length_cons] at hlen
    obtain ⟨acc, hacc, hbits⟩ := bits_binary (f := .and) (.inl rfl)
      (bits_repeat ht ys.length) hu (by rw [length_replicate])
    rw [hacc, bind_some] at hr
    have hrow : List.zipWith (gate .and) (List.replicate ys.length b) ys = ys.map (b && ·) := by
      clear hsz hacc hbits hr hu hlen
      induction ys with
      | nil => rfl
      | cons y ys ih => rw [length_cons, List.replicate_succ, List.zipWith_cons_cons, ih]; rfl
    rw [hrow] at hbits
    obtain ⟨r', rs, hr', hrs, hrslen, hval⟩ := bits_multiplierRec hu hv hbits
      (by rw [length_map]) 1 (by rw [length_map]; omega)
    rw [length_map] at hrslen hval
    cases hr'.symm.trans hr
    refine ⟨rs, hrs, hrslen, ?_⟩
    rw [hval, toNat_map_and, toNat_cons]
    congr 1
    ring

/-! ## Division and remainder -/

lemma bits_head_tail (h : Bits I t xs) (hne : xs ≠ []) :
    ∃ a r, bvBitblastHead t = some a ∧ bvBitblastTail t = some r ∧
      value I a = some (Val.bool (xs.headD false)) ∧ Bits I r xs.tail := by
  cases h with
  | nil => contradiction
  | cons ht hr => exact ⟨_, _, rfl, rfl, ht, hr⟩

lemma headD_shl_one (hne : xs ≠ []) : (shl 1 xs).headD false = false := by
  cases xs with
  | nil => contradiction
  | cons x xs => rfl

lemma bits_divRow {sz : Nat} {q1 r1 : Term} {qs rs : List Bool} (hu : Bits I u ys)
    (h : Bits I t xs) (hlen : xs.length = ys.length) (hne : xs ≠ [])
    (hz : t ≠ bvBitblastZero ys.length) {ts : Term} (hts : bvBitblastRshift t 1 = some ts)
    (hrec : bvDivModImpl ts u (bvBitblastZero ys.length) sz = some (q1, r1))
    (hq : Bits I q1 qs) (hr : Bits I r1 rs) (hql : qs.length = ys.length)
    (hrl : rs.length = ys.length) :
    ∃ q r, bvDivModImpl t u (bvBitblastZero ys.length) (sz + 1) = some (q, r) ∧
      Bits I q (divRow xs ys qs rs).1 ∧ Bits I r (divRow xs ys qs rs).2 := by
  have hpos : 0 < ys.length := by
    rw [← hlen]
    exact length_pos_iff.2 hne
  have hqne : qs ≠ [] := List.ne_nil_of_length_pos (by omega)
  have hrne : rs ≠ [] := List.ne_nil_of_length_pos (by omega)
  have hzero := bits_zero (I := I) ys.length
  obtain ⟨isodd, _, hodd, _, hoddv, _⟩ := bits_head_tail h hne
  obtain ⟨q1s, hq1s, hbq1s⟩ := bits_lshift_one hq hqne
  obtain ⟨r1s, hr1s, hbr1s⟩ := bits_lshift_one hr hrne
  -- the remainder doubled, with the last bit of the dividend
  have hbit : value I (mkIte (bop .eq isodd (.bool true)) (.bool true) (.bool false)) =
      some (Val.bool (xs.headD false)) := by
    rw [value_mkIte (value_eq_bool hoddv (value_bool I true)) (value_bool I true)
      (value_bool I false)]
    cases xs.headD false <;> rfl
  have hlen1 : (shl 1 rs).length = (List.replicate ys.length false).length := by
    rw [length_shl, length_replicate, hrl]
  obtain ⟨r1sa, hr1sa, hbr1sa⟩ := bits_adder hbit hbr1s hzero hlen1
  have hlensum := length_adc _ _ (xs.headD false) hlen1
  rw [length_shl, hrl] at hlensum
  -- both subtractions of the divisor
  obtain ⟨a2n, ha2n, hba2n⟩ := bits_not hu
  obtain ⟨c1, d1, hc1, hc1v, hd1⟩ := rippleCarryAdder2_empty (value_bool I true) hbr1sa hba2n
    (by rw [hlensum, length_map])
  obtain ⟨c2, d2, hc2, hc2v, _⟩ := rippleCarryAdder2_empty (value_bool I true) h hba2n
    (by rw [hlen, length_map])
  have hlensub := length_adc (adc (shl 1 rs) (List.replicate ys.length false)
    (xs.headD false)).2 (ys.map not) true (by rw [hlensum, length_map])
  -- the new quotient and remainder
  have hq1ne : shl 1 qs ≠ [] := List.ne_nil_of_length_pos (by rw [length_shl]; omega)
  obtain ⟨hqh, hqt, hhead, htail, hheadv, htailv⟩ := bits_head_tail hbq1s hq1ne
  rw [headD_shl_one hqne] at hheadv
  have hq1ss := Bits.cons (value_mkIte (value_not hc1v) hheadv (value_bool I true)) htailv
  obtain ⟨r1sa2, hr1sa2, hbr1sa2⟩ := bits_ite (value_not hc1v) hbr1sa hd1 hlensub.symm
  obtain ⟨q, hq', hbq⟩ := bits_ite (value_not hc2v) hzero hq1ss
    (by simp only [length_replicate, length_cons, List.length_tail, length_shl]; omega)
  have hlenr : (bif !(adc (adc (shl 1 rs) (List.replicate ys.length false)
      (xs.headD false)).2 (ys.map not) true).1 then
        (adc (shl 1 rs) (List.replicate ys.length false) (xs.headD false)).2
      else (adc (adc (shl 1 rs) (List.replicate ys.length false)
        (xs.headD false)).2 (ys.map not) true).2).length = ys.length := by
    rw [Bool.apply_cond List.length, hlensub, hlensum, cond_self]
  obtain ⟨r, hr', hbr⟩ := bits_ite (value_not hc2v) h hbr1sa2 (by rw [hlenr, hlen])
  refine ⟨q, r, ?_, ?_, hbr⟩
  · rw [bvDivModImpl, if_neg hz]
    simp only [hts, hrec, hodd, hq1s, hr1s, hr1sa, ha2n, hc1, hhead, htail, hr1sa2, hc2, hq', hr',
      bind_some, map_some]
  simp only [divRow]
  rwa [show (bif !(adc (adc (shl 1 rs) (List.replicate ys.length false)
    (xs.headD false)).2 (ys.map not) true).1 then false else true) = (adc (adc (shl 1 rs)
      (List.replicate ys.length false) (xs.headD false)).2 (ys.map not) true).1 by
        cases (adc (adc (shl 1 rs) (List.replicate ys.length false)
          (xs.headD false)).2 (ys.map not) true).1 <;> rfl] at hbq

lemma bits_divMod (hu : Bits I u ys) (h : Bits I t xs) (hlen : xs.length = ys.length)
    (hne : xs ≠ []) (sz : Nat) :
    ∃ q r qs rs, bvDivModImpl t u (bvBitblastZero ys.length) sz = some (q, r) ∧
      Bits I q qs ∧ Bits I r rs ∧ qs.length = ys.length ∧ rs.length = ys.length ∧
      (0 < toNat ys → toNat xs < 2 ^ sz →
        toNat qs = toNat xs / toNat ys ∧ toNat rs = toNat xs % toNat ys) := by
  have hzero := bits_zero (I := I) ys.length
  have hzlen := length_replicate (n := ys.length) (a := false)
  have hzval := toNat_replicate_false ys.length
  induction sz generalizing t xs with
  | zero =>
    refine ⟨_, _, _, _, rfl, hzero, hzero, hzlen, hzlen, ?_⟩
    intro _ hlt
    have h0 : toNat xs = 0 := by simpa using hlt
    rw [h0, hzval, Nat.zero_div, zero_mod]
    exact ⟨rfl, rfl⟩
  | succ sz ih =>
    by_cases hz : t = bvBitblastZero ys.length
    · refine ⟨_, _, _, _, by rw [bvDivModImpl, if_pos hz], hzero, hzero, hzlen, hzlen, ?_⟩
      intro _ _
      rw [hz] at h
      rw [h.unique hzero, hzval, Nat.zero_div, zero_mod]
      exact ⟨rfl, rfl⟩
    obtain ⟨ts, hts, hbts⟩ := bits_rshift_one h hne
    obtain ⟨q1, r1, qs, rs, hrec, hq, hr, hql, hrl, hval⟩ :=
      ih hbts (by rw [length_shr, hlen])
        (List.ne_nil_of_length_pos (by rw [length_shr]; exact length_pos_iff.2 hne))
    obtain ⟨q, r, hqr, hbq, hbr⟩ := bits_divRow hu h hlen hne hz hts hrec hq hr hql hrl
    obtain ⟨hlq, hlr⟩ := length_divRow hlen hql hrl (by rw [← hlen]; exact length_pos_iff.2 hne)
    refine ⟨q, r, _, _, hqr, hbq, hbr, hlq, hlr, ?_⟩
    intro hd hlt
    rw [toNat_shr_false, Nat.pow_one] at hval
    obtain ⟨hqs, hrs⟩ := hval hd (by rw [pow_succ] at hlt; omega)
    exact divRow_val hlen hql hrl hd hqs hrs

/-! ## If-then-else and constants -/

lemma bits_stepIte {c : Term} (hc : value I c = some (Val.bool q)) (h : Bits I t xs)
    (hu : Bits I u ys) (hlen : xs.length = ys.length) :
    ∃ r, bvMkBitblastStepIte (bop .fromBools c bvEmpty) t u = some r ∧
      Bits I r (bif q then xs else ys) := by
  rw [← zipWith_cond q hlen]
  induction h generalizing u ys with
  | nil =>
    cases hu with
    | nil => exact ⟨bvEmpty, rfl, .nil⟩
    | cons _ _ => simp at hlen
  | cons ht _ ih =>
    cases hu with
    | nil => simp at hlen
    | cons hu hus =>
      obtain ⟨r, hr, hbits⟩ := ih hus (by simpa using hlen)
      refine ⟨_, by rw [bvMkBitblastStepIte, hr]; rfl, .cons ?_ hbits⟩
      rw [value_mkAnd2 (value_mkOr2 (value_not hc) ht) (value_mkOr2 hc hu)]
      cases q <;> simp

variable {w lsz s : Nat} {b2 sbit : Term}

lemma bvBitSet_bin (v : BitVec w) {i : Nat} (hi : i < w) :
    bvBitSet (.bin w v) i = some (v.toNat.testBit i) := by
  rw [bvBitSet, eoExtract_bin v (Nat.le_refl i) hi, map_some, sub_self, zero_add]
  congr 1
  rw [← BitVec.getLsbD, Bool.eq_iff_iff, decide_eq_true_eq, Term.bin.injEq]
  simp only [heq_eq_eq, true_and]
  constructor
  · intro h
    have hbit := congrArg (fun x : BitVec 1 => x.getLsbD 0) h
    simpa using hbit
  intro h
  apply BitVec.eq_of_getLsbD_eq
  intro j hj
  obtain rfl : j = 0 := by omega
  simpa using h

lemma bits_constRec (v : BitVec w) (i k : Nat) (hik : i + k = w) :
    ∃ r, bvConstToBitlistRec (.bin w v) i k = some r ∧
      Bits I r ((List.range' i k).map v.toNat.testBit) := by
  induction k generalizing i with
  | zero => exact ⟨bvEmpty, rfl, .nil⟩
  | succ k ih =>
    obtain ⟨r, hr, hbits⟩ := ih (i + 1) (by omega)
    refine ⟨bop .fromBools (.bool (v.toNat.testBit i)) r, ?_, .cons (value_bool I _) hbits⟩
    rw [bvConstToBitlistRec, bvBitSet_bin v (by omega), bind_some, hr]
    rfl

lemma bits_const (v : BitVec w) :
    ∃ r rs, bvMkBitblastStepConst (.bin w v) = some r ∧ Bits I r rs ∧ rs.length = w ∧
      toNat rs = v.toNat := by
  obtain ⟨r, hr, hbits⟩ := bits_constRec (I := I) v 0 w (Nat.zero_add w)
  refine ⟨r, _, hr, hbits, by simp, ?_⟩
  rw [toNat_testBits, Nat.pow_zero, Nat.div_one, mod_eq_of_lt v.isLt]

/-! ## Shifts -/

lemma shlRecStep_zero (b1 a1 b1c a1c b2 : Term) :
    bvMkBitblastStepShlRecStep (bop .fromBools b1 a1) (bop .fromBools b1c a1c) 0 b2 =
      (bvMkBitblastStepShlRecStep a1 a1c 0 b2).map (bop .fromBools (mkIte b2 b1c b1)) := rfl

lemma shlRecStep_succ (b1 a1 a1c b2 : Term) (i : Nat) :
    bvMkBitblastStepShlRecStep (bop .fromBools b1 a1) a1c (i + 1 : Nat) b2 =
      (bvMkBitblastStepShlRecStep a1 a1c i b2).map
        (bop .fromBools (mkIte b2 (.bool false) b1)) := by
  rw [bvMkBitblastStepShlRecStep, show ((i + 1 : Nat) : Int) + -1 = (i : Int) by omega]
  intro _ _ _ hi
  omega

lemma bits_shlRecStep (hb : value I b2 = some (Val.bool q))
    (h : Bits I t xs) (hu : Bits I u ys) (i : Nat) (hlen : xs.length ≤ i + ys.length) :
    ∃ r, bvMkBitblastStepShlRecStep t u i b2 = some r ∧
      Bits I r (bif q then (List.replicate i false ++ ys).take xs.length else xs) := by
  induction h generalizing u ys i with
  | nil =>
    refine ⟨bvEmpty, by rw [bvMkBitblastStepShlRecStep], ?_⟩
    rw [length_nil, take_zero, cond_self]
    exact .nil
  | cons ht _ ih =>
    cases i with
    | succ i =>
      obtain ⟨r, hr, hbits⟩ := ih hu i (by rw [length_cons] at hlen; omega)
      refine ⟨_, by rw [shlRecStep_succ, hr]; rfl, ?_⟩
      have hcons := Bits.cons (value_mkIte hb (value_bool I false) ht) hbits
      cases q <;> exact hcons
    | zero =>
      cases hu with
      | nil => simp at hlen
      | cons hy hys =>
        obtain ⟨r, hr, hbits⟩ := ih hys 0 (by simpa using hlen)
        refine ⟨_, (shlRecStep_zero ..).trans (by rw [← Int.natCast_zero, hr]; rfl), ?_⟩
        have hcons := Bits.cons (value_mkIte hb hy ht) hbits
        cases q <;> exact hcons

lemma bits_shlRecStep_self (hb : value I b2 = some (Val.bool q)) (h : Bits I t xs) (i : Nat) :
    ∃ r, bvMkBitblastStepShlRecStep t t i b2 = some r ∧ Bits I r (bif q then shl i xs else xs) :=
  bits_shlRecStep hb h h i (by omega)

lemma stage_add (b : Bool) (bs : List Bool) (hs : s < lsz) :
    2 ^ s * (toNat (b :: bs) % 2 ^ (lsz - s)) =
      2 ^ s * b.toNat + 2 ^ (s + 1) * (toNat bs % 2 ^ (lsz - (s + 1))) := by
  rw [show lsz - s = lsz - (s + 1) + 1 by omega, toNat_cons_mod, pow_succ]
  ring

lemma shlRec_nil (lsz s : Int) (a1 : Term) :
    bvMkBitblastStepShlRec lsz a1 bvEmpty s = if s = lsz then some a1 else none := by
  unfold bvMkBitblastStepShlRec
  rfl

lemma bits_shlRec (hu : Bits I u ys) (hs : s ≤ lsz) (h : Bits I t xs)
    (hr : bvMkBitblastStepShlRec lsz t u s = some r) :
    ∃ rs, Bits I r rs ∧ rs.length = xs.length ∧
      toNat rs = toNat (shl (2 ^ s * (toNat ys % 2 ^ (lsz - s))) xs) := by
  induction hu generalizing t xs s with
  | nil =>
    rw [shlRec_nil] at hr
    split at hr
    · cases hr
      refine ⟨xs, h, rfl, ?_⟩
      rw [toNat_nil, zero_mod, mul_zero, toNat_shl, pow_zero, mul_one, mod_eq_of_lt (toNat_lt xs)]
    · cases hr
  | @cons u v b bs hb _ ih =>
    rw [bvMkBitblastStepShlRec] at hr
    split at hr
    · rename_i heq
      obtain rfl : s = lsz := by omega
      cases hr
      refine ⟨xs, h, rfl, ?_⟩
      rw [sub_self, pow_zero, Nat.mod_one, mul_zero, toNat_shl, pow_zero,
        mul_one, mod_eq_of_lt (toNat_lt xs)]
    rename_i hne
    obtain ⟨r', hr', hbits⟩ := bits_shlRecStep_self hb h (2 ^ s)
    rw [arithEvalIntPow2Num_nat, ← Nat.cast_two, ← Nat.cast_pow, hr', bind_some] at hr
    obtain ⟨rs, hrs, hlen, hval⟩ := ih (s := s + 1) (by omega) hbits hr
    have hlen' : (bif b then shl (2 ^ s) xs else xs).length = xs.length := by
      cases b <;> simp
    refine ⟨rs, hrs, by omega, ?_⟩
    rw [hval, stage_add b bs (by omega)]
    cases b
    · rw [cond_false, toNat_false, mul_zero, zero_add]
    · rw [cond_true, toNat_shl_shl, Bool.toNat_true, mul_one]

lemma shrRecStep_fill {q s : Bool} (hb : value I b2 = some (Val.bool q))
    (hs : value I sbit = some (Val.bool s)) (h : Bits I t xs) :
    ∃ r, bvMkBitblastStepShrRecStep t bvEmpty 0 b2 sbit = some r ∧
      Bits I r (bif q then List.replicate xs.length s else xs) := by
  induction h with
  | nil =>
    refine ⟨bvEmpty, by rw [bvMkBitblastStepShrRecStep], ?_⟩
    rw [length_nil, List.replicate_zero, cond_self]
    exact .nil
  | cons ht _ ih =>
    obtain ⟨r, hr, hbits⟩ := ih
    refine ⟨_, by rw [bvMkBitblastStepShrRecStep, if_pos rfl, hr]; rfl, ?_⟩
    have hcons := Bits.cons (value_mkIte hb hs ht) hbits
    cases q <;> exact hcons

lemma bits_shrRecStep {q s : Bool} (hb : value I b2 = some (Val.bool q))
    (hs : value I sbit = some (Val.bool s)) (hu : Bits I u ys) (h : Bits I t xs) (i : Nat)
    {m : Nat} (hm : xs.length ≤ m) (hr : bvMkBitblastStepShrRecStep t u i b2 sbit = some r) :
    Bits I r (bif q then (ys.drop i ++ List.replicate m s).take xs.length else xs) := by
  induction hu generalizing t xs i r with
  | nil =>
    cases h with
    | nil =>
      rw [bvMkBitblastStepShrRecStep] at hr
      obtain rfl := some.inj hr
      rw [length_nil, take_zero, Bool.cond_self]
      exact .nil
    | cons ht htr =>
      by_cases hi : i = 0
      · subst hi
        obtain ⟨r', hr', hbits⟩ := shrRecStep_fill hb hs (.cons ht htr)
        obtain rfl : r' = r := some.inj (hr'.symm.trans hr)
        rwa [List.drop_nil, List.nil_append, List.take_replicate, Nat.min_eq_left hm]
      · rw [bvMkBitblastStepShrRecStep, if_neg (by omega)] at hr
        contradiction
  | cons hy _ ih =>
    cases h with
    | nil =>
      rw [bvMkBitblastStepShrRecStep] at hr
      obtain rfl := some.inj hr
      rw [length_nil, take_zero, Bool.cond_self]
      exact .nil
    | cons ht htr =>
      rw [bvMkBitblastStepShrRecStep] at hr
      cases i with
      | zero =>
        rw [if_pos Int.natCast_zero] at hr
        obtain ⟨r', hr', rfl⟩ := map_inv hr
        have hcons := Bits.cons (value_mkIte (value_not hb) ht hy) (ih htr 0 (Nat.le_of_succ_le hm) hr')
        cases q <;> exact hcons
      | succ i =>
        rw [if_neg (by omega), show ((i + 1 : Nat) : Int) + -1 = (i : Int) by omega] at hr
        exact ih (.cons ht htr) i hm hr

lemma shrRec_nil (lsz s : Int) (sbit a1 : Term) :
    bvMkBitblastStepShrRec lsz sbit a1 bvEmpty s = if s = lsz then some a1 else none := by
  unfold bvMkBitblastStepShrRec
  rfl

lemma bits_shrRec {f : Bool} (hf : value I sbit = some (Val.bool f))
    (hu : Bits I u ys) (hs : s ≤ lsz) (h : Bits I t xs)
    (hr : bvMkBitblastStepShrRec lsz sbit t u s = some r) :
    Bits I r (shr f (2 ^ s * (toNat ys % 2 ^ (lsz - s))) xs) := by
  induction hu generalizing t xs s with
  | nil =>
    rw [shrRec_nil] at hr
    split at hr
    · obtain rfl := some.inj hr
      rwa [toNat_nil, zero_mod, mul_zero, shr_zero]
    · contradiction
  | @cons u v b bs hb _ ih =>
    rw [bvMkBitblastStepShrRec] at hr
    split at hr
    · obtain rfl : s = lsz := by omega
      obtain rfl := some.inj hr
      rwa [Nat.sub_self, Nat.pow_zero, Nat.mod_one, mul_zero, shr_zero]
    obtain ⟨r', hr', hr⟩ := bind_inv hr
    rw [arithEvalIntPow2Num_nat, ← Nat.cast_two, ← Nat.cast_pow] at hr'
    have hbits := bits_shrRecStep hb hf h h _ (Nat.le_refl _) hr'
    rw [← shr_eq_take] at hbits
    have hrest := ih (s := s + 1) (by omega) hbits hr
    rw [stage_add b bs (by omega)]
    cases b
    · rwa [Bool.toNat_false, mul_zero, Nat.zero_add]
    · rwa [cond_true, shr_shr, ← Nat.mul_one (2 ^ s)] at hrest

lemma bvShiftBits_spec {n : Nat} {l : Int} (h : bvShiftBits n = some l) :
    ∃ k : Nat, l = k ∧ n ≤ 2 ^ k := by
  have hlog : intLog2 (n : Int) = (log2 n : Nat) := by
    rw [intLog2]
    split
    · rw [show n = 0 by omega]
      rfl
    · rw [Int.toNat_natCast]
  rw [bvShiftBits, arithEvalIntLog2_num, arithEvalIntIsPow2, if_neg (by omega),
    arithEvalIntLog2_num, hlog, map_some, arithEvalIntPow2, arithEvalIntPow2Num_nat] at h
  simp only [Term.num.injEq, decide_eq_true_eq, Option.some.injEq] at h
  split at h
  · rename_i hpow
    refine ⟨log2 n, h.symm, ?_⟩
    exact_mod_cast hpow.le
  · refine ⟨log2 n + 1, by rw [← h]; push_cast; rfl, ?_⟩
    exact Nat.lt_log2_self.le

/-! ## Operators on lists of bits -/

def bvOf (n : Nat) (xs : List Bool) : BitVec n := BitVec.ofNat n (toNat xs)

lemma toNat_bvOf {n : Nat} (hx : xs.length = n) : (bvOf n xs).toNat = toNat xs := by
  have hlt := toNat_lt xs
  rw [hx] at hlt
  rw [bvOf, BitVec.toNat_ofNat, mod_eq_of_lt hlt]

lemma Bits.value_bvOf {n : Nat} (h : Bits I t xs) (hx : xs.length = n) :
    EthosCpc.value I t = some (Val.bitvec (bvOf n xs)) := by
  subst hx
  exact h.value

lemma Bits.value_eq {n : Nat} {x : BitVec n} (h : Bits I t xs) (hx : xs.length = n)
    (hval : toNat xs = x.toNat) : EthosCpc.value I t = some (Val.bitvec x) := by
  rw [h.value_bvOf hx]
  congr 2
  apply BitVec.eq_of_toNat_eq
  rw [toNat_bvOf hx, hval]

section Operators

variable {n : Nat}

lemma value_bits_bop {s : Sym} {f : ∀ w, BitVec w → BitVec w → Val I.U} (hs : s.arity = 2)
    (hsym : symVal I s = vBv2 f) (h : Bits I t xs) (hx : xs.length = n) (hu : Bits I u ys)
    (hy : ys.length = n) : value I (bop s t u) = some (f n (bvOf n xs) (bvOf n ys)) := by
  rw [value_bop I hs, h.value_bvOf hx, hu.value_bvOf hy, hsym]
  exact dif_pos rfl

lemma msb_bvOf (hx : xs.length = n) (hne : xs ≠ []) : (bvOf n xs).msb = xs.getLast hne := by
  rw [BitVec.msb_eq_getLsbD_last, BitVec.getLsbD, toNat_bvOf hx, testBit_toNat, List.getLast_eq_getElem,
    List.getD_eq_getElem?_getD, ← hx, List.getElem?_eq_getElem]
  rfl

lemma eq_iff_bvOf (hx : xs.length = n) (hy : ys.length = n) : bvOf n xs = bvOf n ys ↔ xs = ys := by
  rw [← BitVec.toNat_inj, toNat_bvOf hx, toNat_bvOf hy, toNat_inj (hx.trans hy.symm)]

end Operators

end EthosCpc
