import EthosCpc.Cpc.BitblastStepSpec
import EthosCpc.Cvc5.BitblastStrategies

/-!
# The strategies of cvc5 and the programs of CPC build the same formulas

Each program of `programs/Bitblasting.eo`, on lists of bits, returns the list
that the strategy of cvc5 builds, connective by connective.  The exception are
the non-strict comparisons: the program computes the start value for `bvule`
and goes on with the one for `bvult`.
-/

namespace EthosCpc.Cvc5

open List (getLast length_append length_range range' take_nil zipWith zipWith_cons_cons)
open Term (bop uop)
open Library.BitList (cons_of_length)
open Option (bind_some map_map map_some)
open Nat (clog log2 min_self zero_le)
open List (eq_nil_of_length_eq_zero foldl_cons length_cons length_drop length_map length_pos_iff
  length_replicate map_cons ne_nil_of_length_pos replicate_succ)

variable {Γ : Nat → Ty} {a b c as bs : List Term} {t u r : Term} {n k : Nat}

/-! ## Lists of bits -/

section Lists

@[simp] lemma fromBools_nil : fromBools [] = bvEmpty := rfl

@[simp] lemma fromBools_cons (t : Term) (a : List Term) :
    fromBools (t :: a) = bop .fromBools t (fromBools a) := rfl

lemma fromBools_inj : fromBools a = fromBools b ↔ a = b := by
  constructor
  · intro h
    induction a generalizing b with
    | nil =>
      cases b with
      | nil => rfl
      | cons t b => cases h
    | cons t a ih =>
      cases b with
      | nil => cases h
      | cons u b =>
        injection h with h1 h2
        injection h1 with _ h3
        rw [h3, ih h2]
  · rintro rfl
    rfl

lemma bvBitblastRepeat_eq (t : Term) (n : Nat) :
    bvBitblastRepeat t n = fromBools (List.replicate n t) := by
  induction n with
  | zero => rfl
  | succ n ih => rw [bvBitblastRepeat, ih, replicate_succ, fromBools_cons]

lemma bvBitblastZero_eq (n : Nat) : bvBitblastZero n = fromBools (makeZero n) :=
  bvBitblastRepeat_eq _ n

lemma bvBitblastRev_eq (a : List Term) : bvBitblastRev (fromBools a) = some (fromBools a.reverse) := by
  rw [bvBitblastRev, eoListRev, fromBools, getNAryChildren_fromBools]
  rfl

lemma bvBitblastConcat_eq (a b : List Term) :
    bvBitblastConcat (fromBools a) (fromBools b) = some (fromBools (a ++ b)) := by
  induction a with
  | nil => rfl
  | cons t a ih =>
    rw [fromBools_cons, bvBitblastConcat, ih]
    rfl

lemma eoListLen_eq (a : List Term) :
    eoListLen (.sym .fromBools) bvEmpty (fromBools a) = some a.length := by
  rw [eoListLen, fromBools, getNAryChildren_fromBools, map_some]

lemma bvBitblastPrefix_eq (a : List Term) (k : Nat) :
    bvBitblastPrefix k (fromBools a) = some (fromBools (a.take k)) := by
  induction a generalizing k with
  | nil =>
    rw [fromBools_nil, bvBitblastPrefix, take_nil]
    split <;> rfl
  | cons t a ih =>
    cases k with
    | zero =>
      rw [fromBools_cons, bvBitblastPrefix]
      rfl
    | succ k =>
      rw [fromBools_cons, bvBitblastPrefix, if_neg (by omega),
        show ((k + 1 : Nat) : Int) + -1 = (k : Int) by omega, ih]
      rfl

lemma bvBitblastSubsequence_eq (a : List Term) (l k : Nat) :
    bvBitblastSubsequence l ((l : Int) + k - 1) (fromBools a) =
      some (fromBools ((a.drop l).take k)) := by
  induction a generalizing l with
  | nil => rw [fromBools_nil, bvBitblastSubsequence, List.drop_nil, take_nil, fromBools_nil]
  | cons t a ih =>
    cases l with
    | zero =>
      rw [fromBools_cons, bvBitblastSubsequence, if_pos (Int.natCast_zero),
        show ((0 : Nat) : Int) + k - 1 + 1 = (k : Int) by omega, ← fromBools_cons,
        bvBitblastPrefix_eq, List.drop_zero]
    | succ l =>
      rw [fromBools_cons, bvBitblastSubsequence, if_neg (by omega),
        show ((l + 1 : Nat) : Int) + -1 = (l : Int) by omega,
        show ((l + 1 : Nat) : Int) + k - 1 + -1 = (l : Int) + k - 1 by omega, ih,
        List.drop_succ_cons]

lemma bvBitblastHead_eq (ha : a ≠ []) : bvBitblastHead (fromBools a) = some (a.headD mkFalse) := by
  cases a with
  | nil => contradiction
  | cons t a => rfl

lemma bvBitblastTail_eq (ha : a ≠ []) : bvBitblastTail (fromBools a) = some (fromBools a.tail) := by
  cases a with
  | nil => contradiction
  | cons t a => rfl

lemma bvBitblastSignBit_eq (a : List Term) : bvBitblastSignBit (fromBools a) = a.getLast? := by
  rw [bvBitblastSignBit, bvBitblastRev_eq, bind_some, ← List.head?_reverse]
  cases a.reverse <;> rfl

lemma bvBitblastApplyUnary_eq (f : Sym) (a : List Term) :
    bvBitblastApplyUnary f (fromBools a) = some (fromBools (a.map (uop f))) := by
  induction a with
  | nil => rfl
  | cons t a ih =>
    rw [fromBools_cons, bvBitblastApplyUnary, ih]
    rfl

lemma bvBitblastNot_eq (a : List Term) :
    bvBitblastApplyUnary .not (fromBools a) = some (fromBools (negateBits a)) :=
  bvBitblastApplyUnary_eq .not a

lemma bvBitblastApplyBinary_eq {f : Sym} {gate : Term → Term → Term}
    (hgate : ∀ t u, bvBitblastBinaryApp f t u = some (gate t u)) (hlen : a.length = b.length) :
    bvBitblastApplyBinary f (fromBools a) (fromBools b) = some (fromBools (zipWith gate a b)) := by
  induction a generalizing b with
  | nil =>
    rw [eq_nil_of_length_eq_zero hlen.symm]
    rfl
  | cons t a ih =>
    obtain ⟨u, b, rfl, hlen'⟩ := cons_of_length hlen
    rw [fromBools_cons, fromBools_cons, bvBitblastApplyBinary, hgate, ih hlen']
    rfl

lemma bvBitblastApplyIte_eq (c : Term) (hlen : a.length = b.length) :
    bvBitblastApplyIte c (fromBools a) (fromBools b) =
      some (fromBools (zipWith (mkIte c) a b)) := by
  induction a generalizing b with
  | nil =>
    rw [eq_nil_of_length_eq_zero hlen.symm]
    rfl
  | cons t a ih =>
    obtain ⟨u, b, rfl, hlen'⟩ := cons_of_length hlen
    rw [fromBools_cons, fromBools_cons, bvBitblastApplyIte, ih hlen']
    rfl

lemma bvBitblastRshift_eq (ha : a ≠ []) :
    bvBitblastRshift (fromBools a) 1 = some (fromBools (rshift a 1)) := by
  have hpos := length_pos_iff.2 ha
  rw [bvBitblastRshift, eoListLen_eq, bind_some,
    show (a.length : Int) = ((1 : Nat) : Int) + (a.length : Nat) - 1 by omega,
    bvBitblastSubsequence_eq, bind_some, bvBitblastRepeat_eq, bvBitblastConcat_eq,
    List.take_of_length_le (by rw [length_drop]; omega)]
  rfl

lemma bvBitblastLshift_eq (ha : a ≠ []) :
    bvBitblastLshift (fromBools a) 1 = some (fromBools (lshift a 1)) := by
  have hpos := length_pos_iff.2 ha
  rw [bvBitblastLshift, eoListLen_eq, bind_some,
    show (a.length : Int) + -(1 : Nat) + -1 = ((0 : Nat) : Int) + (a.length - 1 : Nat) - 1 by omega,
    show (0 : Int) = ((0 : Nat) : Int) from rfl, bvBitblastSubsequence_eq, bind_some,
    bvBitblastRepeat_eq, bvBitblastConcat_eq, List.drop_zero]
  rfl

end Lists

/-! ## Equality and comparison -/

section Comparison

lemma bvMkBitblastStepEqRec_eq (hlen : a.length = b.length) :
    bvMkBitblastStepEqRec (fromBools a) (fromBools b) = some (mkAnd (zipWith mkIff a b)) := by
  induction a generalizing b with
  | nil =>
    rw [eq_nil_of_length_eq_zero hlen.symm]
    rfl
  | cons t a ih =>
    obtain ⟨u, b, rfl, hlen'⟩ := cons_of_length hlen
    rw [fromBools_cons, fromBools_cons, bvMkBitblastStepEqRec, ih hlen']
    rfl

lemma bvMkBitblastStepEq_eq (hlen : a.length = b.length) (ha : a ≠ []) :
    bvMkBitblastStepEq (fromBools a) (fromBools b) = defaultEqBB a b := by
  have hchildren : ∀ ts : List Term, getNAryChildren (.sym .and) (.bool true) (mkAnd ts) = some ts :=
    fun ts => getNAryChildren_prepend rfl ts
  have hne : zipWith mkIff a b ≠ [] := by
    refine ne_nil_of_length_pos ?_
    rw [List.length_zipWith, ← hlen, min_self]
    exact length_pos_iff.2 ha
  rw [bvMkBitblastStepEq, bvMkBitblastStepEqRec_eq hlen, bind_some, eoListSingletonElim,
    hchildren, map_some, defaultEqBB]
  generalize zipWith mkIff a b = ts at hne
  rcases ts with _ | ⟨_, _ | ⟨_, _⟩⟩
  · contradiction
  · rfl
  · rfl

lemma bvBitblastUltRec_eq (hlen : a.length = b.length) (res : Term) :
    bvBitblastUltRec (fromBools a) (fromBools b) res = some (uLessThanLoop a b res) := by
  induction a generalizing b res with
  | nil =>
    rw [eq_nil_of_length_eq_zero hlen.symm]
    rfl
  | cons t a ih =>
    obtain ⟨u, b, rfl, hlen'⟩ := cons_of_length hlen
    rw [fromBools_cons, fromBools_cons, bvBitblastUltRec, ih hlen']
    rfl

/-- The program ignores whether the comparison is strict. -/
lemma bvBitblastUlt_eq (hlen : a.length = b.length) (orEqual : Bool) :
    bvBitblastUlt (fromBools a) (fromBools b) orEqual = uLessThanBB a b false := by
  cases a with
  | nil =>
    rw [eq_nil_of_length_eq_zero hlen.symm]
    rfl
  | cons t a =>
    obtain ⟨u, b, rfl, hlen'⟩ := cons_of_length hlen
    rw [fromBools_cons, fromBools_cons, bvBitblastUlt, bvBitblastUltRec_eq hlen']
    rfl

lemma bvBitblastSltImpl_eq {an bn : Term} (hlen : a.length = b.length) (orEqual : Bool) :
    bvBitblastSltImpl (fromBools (an :: a)) (fromBools (bn :: b)) orEqual =
      sLessThanBB (a.reverse ++ [an]) (b.reverse ++ [bn]) (orEqual && a.isEmpty) := by
  unfold sLessThanBB
  rw [List.getLast?_concat, List.getLast?_concat]
  cases a with
  | nil =>
    rw [eq_nil_of_length_eq_zero hlen.symm]
    cases orEqual <;> rfl
  | cons t a =>
    obtain ⟨u, b, rfl, hlen'⟩ := cons_of_length hlen
    dsimp only
    have hne : ¬ ((t :: a).reverse ++ [an]).length = 1 := by simp
    rw [if_neg hne, List.dropLast_concat, List.dropLast_concat, List.isEmpty_cons, Bool.and_false]
    change bvBitblastSltImpl (bop .fromBools an (fromBools (t :: a)))
      (bop .fromBools bn (fromBools (u :: b))) orEqual = _
    rw [bvBitblastSltImpl, bvBitblastRev_eq, bind_some,
      bvBitblastRev_eq, bind_some, bvBitblastUlt_eq (by simpa using hlen')]
    intro _ _ heq
    cases heq

/-- The program for the signed comparisons is strict but for one bit. -/
lemma bvBitblastSlt_eq (hlen : a.length = b.length) (orEqual : Bool) :
    bvBitblastSlt (fromBools a) (fromBools b) orEqual =
      sLessThanBB a b (orEqual && decide (a.length = 1)) := by
  rw [bvBitblastSlt, bvBitblastRev_eq, bind_some, bvBitblastRev_eq, bind_some]
  induction a using List.reverseRecOn with
  | nil =>
    rw [eq_nil_of_length_eq_zero hlen.symm]
    rfl
  | append_singleton a an =>
    induction b using List.reverseRecOn with
    | nil => simp at hlen
    | append_singleton b bn =>
      rw [List.reverse_append, List.reverse_append]
      change bvBitblastSltImpl (fromBools (an :: a.reverse)) (fromBools (bn :: b.reverse)) _ = _
      have hempty : a.reverse.isEmpty = decide ((a ++ [an]).length = 1) := by
        cases a <;> simp
      rw [bvBitblastSltImpl_eq (by simpa using hlen), List.reverse_reverse,
        List.reverse_reverse, hempty]

end Comparison

/-! ## Bitwise operators -/

section Bitwise

/-- A program that goes through the arguments one by one, with the fold that the strategy is. -/
lemma fold_eq {s : Sym} {P : Term → Term → Option Term} {step : List Term → List Term → List Term}
    {nil : Term} (hnil : ∀ ac, P nil ac = some ac)
    (hcons : ∀ {ac b : List Term} (rest : Term), ac.length = b.length →
      P (bop s (fromBools b) rest) (fromBools ac) = P rest (fromBools (step ac b)))
    (hstep : ∀ {ac b : List Term}, ac.length = b.length → (step ac b).length = ac.length)
    {bs : List (List Term)} (hbs : ∀ b ∈ bs, b.length = a.length) :
    P (prependNAryChildren (.sym s) nil (bs.map fromBools)) (fromBools a) =
      some (fromBools (bs.foldl step a)) := by
  induction bs generalizing a with
  | nil => exact hnil _
  | cons b bs ih =>
    obtain ⟨hb, hbs⟩ := List.forall_mem_cons.1 hbs
    rw [map_cons, prependNAryChildren_cons, hcons _ hb.symm,
      ih (by simpa [hstep hb.symm] using hbs), foldl_cons]

lemma bvMkBitblastStepBitwise_eq {bf f : Sym} {gate : Term → Term → Term} {nil : Term}
    (hnil : ∀ ac, bvMkBitblastStepBitwise bf f nil ac = some ac)
    (hgate : ∀ t u, bvBitblastBinaryApp f t u = some (gate t u)) {bs : List (List Term)}
    (hbs : ∀ b ∈ bs, b.length = a.length) :
    bvMkBitblastStepBitwise bf f (prependNAryChildren (.sym bf) nil (bs.map fromBools))
      (fromBools a) = some (fromBools (bitwiseBB gate a bs)) := by
  refine fold_eq (P := bvMkBitblastStepBitwise bf f) hnil ?_ ?_ hbs
  · intro ac b rest hlen
    rw [bvMkBitblastStepBitwise, if_pos rfl, bvBitblastApplyBinary_eq hgate hlen, bind_some]
  · intro ac b hlen
    rw [List.length_zipWith, hlen, min_self]

end Bitwise

/-! ## Addition and multiplication -/

section Arithmetic

lemma length_rippleCarryAdder (hlen : a.length = b.length) (carry : Term) :
    (rippleCarryAdder a b carry).2.length = a.length := by
  induction a generalizing b carry with
  | nil =>
    rw [eq_nil_of_length_eq_zero hlen.symm]
    rfl
  | cons t a ih =>
    obtain ⟨u, b, rfl, hlen'⟩ := cons_of_length hlen
    rw [rippleCarryAdder, length_cons, length_cons, ih hlen']

lemma bvRippleCarryAdder2_eq (hlen : a.length = b.length) (carry : Term) (res : List Term) :
    bvRippleCarryAdder2 (fromBools a) (fromBools b) carry (fromBools res) =
      some ((rippleCarryAdder a b carry).1,
        fromBools (res.reverse ++ (rippleCarryAdder a b carry).2)) := by
  induction a generalizing b carry res with
  | nil =>
    rw [eq_nil_of_length_eq_zero hlen.symm, fromBools_nil, bvRippleCarryAdder2,
      bvBitblastRev_eq, rippleCarryAdder, List.append_nil]
    · rfl
    · intro _ _ _ _ h
      cases h
  | cons t a ih =>
    obtain ⟨u, b, rfl, hlen'⟩ := cons_of_length hlen
    rw [fromBools_cons, fromBools_cons, bvRippleCarryAdder2, ← fromBools_cons,
      ih hlen', rippleCarryAdder, List.reverse_cons, List.append_assoc]
    rfl

lemma bvRippleCarryAdder2_nil (hlen : a.length = b.length) (carry : Term) :
    bvRippleCarryAdder2 (fromBools a) (fromBools b) carry bvEmpty =
      some ((rippleCarryAdder a b carry).1, fromBools (rippleCarryAdder a b carry).2) :=
  bvRippleCarryAdder2_eq hlen carry []

lemma bvRippleCarryAdder_eq (hlen : a.length = b.length) (carry : Term) :
    bvRippleCarryAdder (fromBools a) (fromBools b) carry =
      some (fromBools (rippleCarryAdder a b carry).2) := by
  rw [bvRippleCarryAdder, bvRippleCarryAdder2_nil hlen]
  rfl

lemma bvMkBitblastStepAdd_eq {nil : Term} (hnil : ∀ ac, bvMkBitblastStepAdd nil ac = some ac)
    {bs : List (List Term)} (hbs : ∀ b ∈ bs, b.length = a.length) :
    bvMkBitblastStepAdd (prependNAryChildren (.sym .bvadd) nil (bs.map fromBools)) (fromBools a) =
      some (fromBools (defaultAddBB a bs)) := by
  refine fold_eq (P := bvMkBitblastStepAdd) hnil ?_ ?_ hbs
  · intro ac b rest hlen
    rw [bvMkBitblastStepAdd, bvRippleCarryAdder_eq hlen, bind_some]
  · intro ac b hlen
    exact length_rippleCarryAdder hlen _

variable {res : List Term}

lemma bvShiftAddMultiplierRecStep_eq (b1 : Term) (k : Nat) (carry : Term)
    (hk : k ≤ res.length) (hlen : res.length - k ≤ a.length) :
    bvShiftAddMultiplierRecStep b1 (fromBools a) k (fromBools res) carry =
      some (fromBools (res.take k ++ addRow b1 (res.drop k) a carry)) := by
  induction res generalizing a k carry with
  | nil =>
    obtain rfl : k = 0 := by simpa using hk
    rfl
  | cons r res ih =>
    cases k with
    | succ k =>
      rw [fromBools_cons, multiplierRecStep_succ, ih k carry (by simpa using hk)
        (by simpa using hlen)]
      rfl
    | zero =>
      cases a with
      | nil => simp at hlen
      | cons t a =>
        rw [fromBools_cons, fromBools_cons, Int.natCast_zero, multiplierRecStep_zero,
          ← Int.natCast_zero, ih 0 _ (zero_le _) (by simpa using hlen)]
        rfl

lemma length_addRow (bk : Term) (carry : Term) (hlen : res.length ≤ a.length) :
    (addRow bk res a carry).length = res.length := by
  induction res generalizing a carry with
  | nil => rfl
  | cons r res ih =>
    cases a with
    | nil => simp at hlen
    | cons t a => rw [addRow, length_cons, length_cons, ih _ (by simpa using hlen)]

lemma length_row (bk : Term) (k : Nat) (hlen : res.length = a.length) :
    (res.take k ++ addRow bk (res.drop k) a mkFalse).length = a.length := by
  rw [length_append, length_addRow _ _ (by rw [length_drop]; omega), List.length_take,
    length_drop]
  omega

lemma length_addRows (b : List Term) (k : Nat) (hlen : res.length = a.length) :
    (addRows a k b res).length = a.length := by
  induction b generalizing k res with
  | nil => exact hlen
  | cons t b ih =>
    rw [addRows]
    exact ih (k + 1) (length_row t k hlen)

lemma bvShiftAddMultiplierRec_eq (b : List Term) (k : Nat)
    (hlen : res.length = a.length) (hk : k + b.length ≤ a.length) :
    bvShiftAddMultiplierRec (fromBools b) (fromBools a) k (fromBools res) =
      some (fromBools (addRows a k b res)) := by
  induction b generalizing k res with
  | nil => rfl
  | cons t b ih =>
    rw [length_cons] at hk
    rw [fromBools_cons, bvShiftAddMultiplierRec,
      bvShiftAddMultiplierRecStep_eq t k (.bool false) (by omega) (by omega), bind_some,
      show (k : Int) + 1 = ((k + 1 : Nat) : Int) by omega,
      ih (k + 1) (length_row t k hlen) (by omega)]
    rfl

lemma zipWith_replicate (t : Term) (a : List Term) :
    zipWith mkAnd2 (List.replicate a.length t) a = a.map (mkAnd2 t) := by
  induction a with
  | nil => rfl
  | cons u a ih => rw [length_cons, replicate_succ, zipWith_cons_cons, ih, map_cons]

lemma bvBitblastBinaryApp_and (t u : Term) : bvBitblastBinaryApp .and t u = some (mkAnd2 t u) :=
  rfl

lemma bvShiftAddMultiplier_eq (hw : bvBitwidth Γ (fromBools a) = some a.length)
    (hlen : a.length = b.length) :
    bvShiftAddMultiplier Γ (fromBools a) (fromBools b) =
      (shiftAddMultiplier a b).map fromBools := by
  cases b with
  | nil => rfl
  | cons t b =>
    rw [length_cons] at hlen
    rw [fromBools_cons, bvShiftAddMultiplier, hw, bind_some, bvBitblastRepeat_eq,
      bvBitblastApplyBinary_eq bvBitblastBinaryApp_and length_replicate, bind_some, zipWith_replicate,
      show (1 : Int) = ((1 : Nat) : Int) from rfl,
      bvShiftAddMultiplierRec_eq b 1 (by rw [length_map]) (by omega), shiftAddMultiplier,
      map_some]

end Arithmetic

/-! ## Division and remainder -/

section Division

lemma isZero_iff : isZero a = true ↔ a = makeZero a.length := by
  rw [isZero, List.all_eq_true, makeZero, List.eq_replicate_iff]
  simp

lemma length_rshift (ha : a ≠ []) : (rshift a 1).length = a.length := by
  have hpos := length_pos_iff.2 ha
  rw [rshift, length_append, length_drop, makeZero, length_replicate]
  omega

lemma length_lshift (ha : a ≠ []) : (lshift a 1).length = a.length := by
  have hpos := length_pos_iff.2 ha
  rw [lshift, length_append, List.length_take, makeZero, length_replicate]
  omega

lemma length_makeZero (n : Nat) : (makeZero n).length = n := length_replicate

lemma length_negateBits (a : List Term) : (negateBits a).length = a.length := length_map _

lemma zipWith_replicate_ite (c t : Term) (ha : a.length = n) :
    zipWith (mkIte c) (List.replicate n t) a = a.map (mkIte c t) := by
  subst ha
  induction a with
  | nil => rfl
  | cons u a ih => rw [length_cons, replicate_succ, zipWith_cons_cons, ih, map_cons]

lemma length_adder (hlen : a.length = b.length) (carry : Term) (hn : a.length = n) :
    (rippleCarryAdder a b carry).2.length = n := (length_rippleCarryAdder hlen carry).trans hn

lemma length_zipWith_eq (f : Term → Term → Term) (ha : a.length = n) (hb : b.length = n) :
    (zipWith f a b).length = n := by
  rw [List.length_zipWith, ha, hb, min_self]

lemma divModStep_eq {q1 r1 : List Term} (hb : b.length = a.length) (hne : a ≠ [])
    (hq : q1.length = a.length) (hr : r1.length = a.length) :
    (uDivModStep a b q1 r1).1.length = a.length ∧ (uDivModStep a b q1 r1).2.length = a.length ∧
    ((bvBitblastHead (fromBools a)).bind fun isodd =>
      (bvBitblastLshift (fromBools q1) 1).bind fun q1s =>
      (bvBitblastLshift (fromBools r1) 1).bind fun r1s =>
      (bvRippleCarryAdder r1s (fromBools (makeZero a.length))
        (mkIte (bop .eq isodd (.bool true)) (.bool true) (.bool false))).bind fun r1sa =>
      (bvBitblastApplyUnary .not (fromBools b)).bind fun a2n =>
      (bvRippleCarryAdder2 r1sa a2n (.bool true) bvEmpty).bind fun cares1 =>
      (bvBitblastHead q1s).bind fun hq =>
      (bvBitblastTail q1s).bind fun tq =>
      let q1ss := bop .fromBools (mkIte (uop .not cares1.1) hq (.bool true)) tq
      (bvBitblastApplyIte (uop .not cares1.1) r1sa cares1.2).bind fun r1sa2 =>
      (bvRippleCarryAdder2 (fromBools a) a2n (.bool true) bvEmpty).bind fun cares2 =>
      (bvBitblastApplyIte (uop .not cares2.1) (fromBools (makeZero a.length)) q1ss).bind fun q =>
      (bvBitblastApplyIte (uop .not cares2.1) (fromBools a) r1sa2).map fun r => (q, r)) =
        some (fromBools (uDivModStep a b q1 r1).1, fromBools (uDivModStep a b q1 r1).2) := by
  have hpos := length_pos_iff.2 hne
  have hqs := (length_lshift (ne_nil_of_length_pos (by omega : 0 < q1.length))).trans hq
  have hrs := (length_lshift (ne_nil_of_length_pos (by omega : 0 < r1.length))).trans hr
  have hqne : lshift q1 1 ≠ [] := ne_nil_of_length_pos (by omega)
  have hzero := length_makeZero a.length
  have hnot := (length_negateBits b).trans hb
  have hsum := length_adder (hrs.trans hzero.symm)
    (mkIte (mkIff (a.headD mkFalse) mkTrue) mkTrue mkFalse) hrs
  have hsub := length_adder (hsum.trans hnot.symm) mkTrue hsum
  -- the head of the shifted quotient is replaced
  have hset : ∀ t : Term, fromBools ((lshift q1 1).set 0 t) =
      bop .fromBools t (fromBools (lshift q1 1).tail) := by
    intro t
    cases hql : lshift q1 1 with
    | nil => exact absurd hql hqne
    | cons u q => rfl
  have hqset : ∀ t : Term, ((lshift q1 1).set 0 t).length = a.length := fun t => by
    rw [List.length_set, hqs]
  simp only [uDivModStep, hb]
  refine ⟨?_, ?_, ?_⟩
  · rw [length_map, hqset]
  · exact length_zipWith_eq _ rfl (length_zipWith_eq _ hsum hsub)
  rw [bvBitblastHead_eq hne, bind_some,
    bvBitblastLshift_eq (ne_nil_of_length_pos (by omega)), bind_some,
    bvBitblastLshift_eq (ne_nil_of_length_pos (by omega)), bind_some,
    bvRippleCarryAdder_eq (hrs.trans hzero.symm), bind_some, bvBitblastNot_eq,
    bind_some, bvRippleCarryAdder2_nil (hsum.trans hnot.symm), bind_some,
    bvBitblastHead_eq hqne, bind_some, bvBitblastTail_eq hqne, bind_some,
    bvBitblastApplyIte_eq _ (hsum.trans hsub.symm), bind_some,
    bvRippleCarryAdder2_nil hnot.symm, bind_some, ← hset,
    bvBitblastApplyIte_eq _ (hzero.trans (hqset _).symm), bind_some,
    bvBitblastApplyIte_eq _ (length_zipWith_eq _ hsum hsub).symm, map_some]
  rw [makeZero, zipWith_replicate_ite _ _ (hqset _)]

lemma bvDivModImpl_eq (hlen : b.length = a.length) (hne : a ≠ []) (w : Nat) :
    (uDivModRec b a w).1.length = a.length ∧ (uDivModRec b a w).2.length = a.length ∧
    bvDivModImpl (fromBools a) (fromBools b) (fromBools (makeZero a.length)) w =
      some (fromBools (uDivModRec b a w).1, fromBools (uDivModRec b a w).2) := by
  induction w generalizing a with
  | zero => exact ⟨length_makeZero _, length_makeZero _, rfl⟩
  | succ w ih =>
    rw [bvDivModImpl, uDivModRec]
    by_cases hz : isZero a = true
    · rw [if_pos (congrArg fromBools (isZero_iff.1 hz)), if_pos hz]
      exact ⟨length_makeZero _, length_makeZero _, rfl⟩
    rw [if_neg fun h => hz (isZero_iff.2 (fromBools_inj.1 h)), if_neg hz]
    have hshift := length_rshift hne
    have hpos := length_pos_iff.2 hne
    obtain ⟨hq, hr, hrec⟩ := ih (hlen.trans hshift.symm) (ne_nil_of_length_pos (by omega))
    rw [hshift] at hq hr hrec
    obtain ⟨hq', hr', hstep⟩ := divModStep_eq hlen hne hq hr
    refine ⟨hq', hr', ?_⟩
    rw [bvBitblastRshift_eq hne, bind_some, hrec, bind_some]
    exact hstep

lemma isz_eq (hlen : b.length = n) (hn : 0 < n) :
    bvMkBitblastStepEq (fromBools b) (bvBitblastZero n) =
      mkAndVector (b.map fun bi => mkIff bi mkFalse) := by
  have hzip : zipWith mkIff b (makeZero n) = b.map fun bi => mkIff bi mkFalse := by
    subst hlen
    clear hn
    induction b with
    | nil => rfl
    | cons t b ih =>
      rw [length_cons, makeZero, replicate_succ, zipWith_cons_cons]
      exact congrArg _ ih
  rw [bvBitblastZero_eq, bvMkBitblastStepEq_eq (hlen.trans (length_makeZero _).symm)
    (ne_nil_of_length_pos (hlen ▸ hn)), defaultEqBB, hzip]

lemma bvMkBitblastStepUdiv_eq (hw : bvBitwidth Γ (fromBools a) = some a.length)
    (hlen : b.length = a.length) (hne : a ≠ []) :
    bvMkBitblastStepUdiv Γ (fromBools a) (fromBools b) =
      (udivUremBB a b).map fun r => fromBools r.1 := by
  obtain ⟨hq, _, hdiv⟩ := bvDivModImpl_eq hlen hne a.length
  rw [bvMkBitblastStepUdiv, hw, bind_some, isz_eq hlen (length_pos_iff.2 hne),
    bvBitblastZero_eq, hdiv, bind_some, udivUremBB, map_map]
  cases mkAndVector (b.map fun bi => mkIff bi mkFalse) with
  | none => rfl
  | some c =>
    rw [bind_some, bvBitblastRepeat_eq, bvBitblastApplyIte_eq _
      (length_replicate.trans hq.symm), zipWith_replicate_ite _ _ hq]
    rfl

lemma bvMkBitblastStepUrem_eq (hw : bvBitwidth Γ (fromBools a) = some a.length)
    (hlen : b.length = a.length) (hne : a ≠ []) :
    bvMkBitblastStepUrem Γ (fromBools a) (fromBools b) =
      (udivUremBB a b).map fun r => fromBools r.2 := by
  obtain ⟨_, hr, hdiv⟩ := bvDivModImpl_eq hlen hne a.length
  rw [bvMkBitblastStepUrem, hw, bind_some, isz_eq hlen (length_pos_iff.2 hne),
    bvBitblastZero_eq, hdiv, bind_some, udivUremBB, map_map]
  cases mkAndVector (b.map fun bi => mkIff bi mkFalse) with
  | none => rfl
  | some c =>
    rw [bind_some, bvBitblastApplyIte_eq _ hr.symm]
    rfl

end Division

/-! ## If-then-else and constants -/

section Constants

lemma bvMkBitblastStepIte_eq (c : Term) (hlen : a.length = b.length) :
    bvMkBitblastStepIte (fromBools [c]) (fromBools a) (fromBools b) =
      (defaultIteBB [c] a b).map fromBools := by
  rw [defaultIteBB, map_some]
  induction a generalizing b with
  | nil =>
    rw [eq_nil_of_length_eq_zero hlen.symm]
    rfl
  | cons t a ih =>
    obtain ⟨u, b, rfl, hlen'⟩ := cons_of_length hlen
    have hrec := ih (b := b) hlen'
    rw [fromBools_cons, fromBools_nil] at hrec ⊢
    rw [fromBools_cons, fromBools_cons, bvMkBitblastStepIte, hrec]
    rfl

lemma bvConstToBitlistRec_eq {w : Nat} (v : BitVec w) (i k : Nat) (hik : i + k = w) :
    bvConstToBitlistRec (.bin w v) i k =
      some (fromBools ((range' i k).map fun j => .bool (v.toNat.testBit j))) := by
  induction k generalizing i with
  | zero => rfl
  | succ k ih =>
    rw [bvConstToBitlistRec, bvBitSet_bin v (by omega), bind_some, ih (i + 1) (by omega)]
    rfl

lemma bvMkBitblastStepConst_eq {w : Nat} (v : BitVec w) :
    bvMkBitblastStepConst (.bin w v) = some (fromBools (defaultConstBB w v)) := by
  rw [bvMkBitblastStepConst, bvConstToBitlistRec_eq v 0 w (Nat.zero_add w), defaultConstBB,
    List.range_eq_range']

end Constants

/-! ## Shifts -/

section Shifts

lemma bvShiftBits_eq (hn : 0 < n) : bvShiftBits n = some ((clog 2 n : Nat) : Int) := by
  have hlog : intLog2 (n : Int) = (log2 n : Nat) := by
    rw [intLog2, if_neg (by omega), Int.toNat_natCast]
  rw [bvShiftBits, arithEvalIntLog2_num, arithEvalIntIsPow2, if_neg (by omega),
    arithEvalIntLog2_num, hlog, map_some, arithEvalIntPow2, arithEvalIntPow2Num_nat]
  simp only [Term.num.injEq, decide_eq_true_eq]
  split
  · rename_i hpow
    have hn2 : n = 2 ^ log2 n := by exact_mod_cast hpow
    rw [congrArg (clog 2) hn2, Nat.clog_pow _ _ (by decide)]
  rename_i hpow
  have hn2 : n ≠ 2 ^ log2 n := fun h => hpow (by exact_mod_cast h)
  have hlo : 2 ^ log2 n ≤ n := Nat.log2_self_le (by omega)
  have hhi : n < 2 ^ (log2 n + 1) := Nat.lt_log2_self
  have hle : clog 2 n ≤ log2 n + 1 := Nat.clog_le_of_le_pow hhi.le
  have hlt : log2 n < clog 2 n :=
    (Nat.lt_clog_iff_pow_lt (by decide)).2 (by omega)
  rw [show clog 2 n = log2 n + 1 by omega]
  rfl

lemma length_shlStage (t : Term) (k : Nat) (a : List Term) :
    (shlStage t k a).length = a.length := by
  rw [shlStage, length_map, length_range]

lemma length_shrStage (f t : Term) (k : Nat) (a : List Term) :
    (shrStage f t k a).length = a.length := by
  rw [shrStage, length_map, length_range]

lemma shlRecStep_eq (t : Term) (k : Nat) (hlen : a.length ≤ k + b.length) :
    bvMkBitblastStepShlRecStep (fromBools a) (fromBools b) k t =
      some (fromBools ((List.range a.length).map fun i =>
        if i < k then mkIte t mkFalse (a.getD i mkFalse)
        else mkIte t (b.getD (i - k) mkFalse) (a.getD i mkFalse))) := by
  induction a generalizing b k with
  | nil => rw [fromBools_nil, bvMkBitblastStepShlRecStep]; rfl
  | cons u a ih =>
    rw [length_cons] at hlen
    rw [length_cons, List.range_succ_eq_map, map_cons, List.map_map]
    cases k with
    | succ k =>
      rw [fromBools_cons, shlRecStep_succ, ih k (by omega), map_some, if_pos (by omega),
        fromBools_cons]
      congr 4
      funext i
      simp
    | zero =>
      cases b with
      | nil => simp at hlen
      | cons v b =>
        rw [fromBools_cons, fromBools_cons, Int.natCast_zero, shlRecStep_zero,
          ← Int.natCast_zero, ih 0 (by simpa using hlen), map_some, if_neg (by omega),
          fromBools_cons]
        congr 4

lemma shlStage_eq (t : Term) (k : Nat) (a : List Term) :
    bvMkBitblastStepShlRecStep (fromBools a) (fromBools a) k t = some (fromBools (shlStage t k a)) :=
  shlRecStep_eq t k (by omega)

lemma shrRecStep_zero (f t : Term) (a b : List Term) :
    bvMkBitblastStepShrRecStep (fromBools a) (fromBools b) 0 t f =
      some (fromBools ((List.range a.length).map fun i =>
        if b.length ≤ i then mkIte t f (a.getD i mkFalse)
        else mkIte (mkNot t) (a.getD i mkFalse) (b.getD i mkFalse))) := by
  induction a generalizing b with
  | nil => rw [fromBools_nil, bvMkBitblastStepShrRecStep]; rfl
  | cons u a ih =>
    rw [length_cons, List.range_succ_eq_map, map_cons, List.map_map]
    cases b with
    | nil =>
      rw [fromBools_cons, fromBools_nil, bvMkBitblastStepShrRecStep, if_pos rfl]
      change Option.map _ (bvMkBitblastStepShrRecStep (fromBools a) (fromBools []) 0 t f) = _
      rw [ih [], map_some, List.length_nil, if_pos (zero_le _), fromBools_cons]
      congr 4
    | cons v b =>
      rw [fromBools_cons, fromBools_cons, bvMkBitblastStepShrRecStep, if_pos rfl, ih b,
        map_some, if_neg (by simp), fromBools_cons]
      congr 4
      funext i
      simp

lemma shrRecStep_eq (f t : Term) (ha : a ≠ []) (k : Nat) (hk : k ≤ b.length) :
    bvMkBitblastStepShrRecStep (fromBools a) (fromBools b) k t f =
      bvMkBitblastStepShrRecStep (fromBools a) (fromBools (b.drop k)) 0 t f := by
  induction k generalizing b with
  | zero => rfl
  | succ k ih =>
    cases b with
    | nil => simp at hk
    | cons v b =>
      obtain ⟨u, a, rfl⟩ := List.exists_cons_of_ne_nil ha
      rw [List.drop_succ_cons, ← ih (by simpa using hk)]
      conv_lhs => rw [fromBools_cons, fromBools_cons, bvMkBitblastStepShrRecStep,
        if_neg (by omega), show ((k + 1 : Nat) : Int) + -1 = (k : Int) by omega]
      rfl

lemma shrStage_eq (f t : Term) {k : Nat} (ha : a ≠ []) (hk : k ≤ a.length) :
    bvMkBitblastStepShrRecStep (fromBools a) (fromBools a) k t f =
      some (fromBools (shrStage f t k a)) := by
  rw [shrRecStep_eq f t ha k hk, shrRecStep_zero, shrStage]
  refine congrArg (fun l => some (fromBools l)) (List.map_congr_left fun i _ => ?_)
  have hget : (a.drop k).getD i mkFalse = a.getD (i + k) mkFalse := by
    simp [List.getD_eq_getElem?_getD, List.getElem?_drop, Nat.add_comm]
  rw [length_drop, hget]
  by_cases hi : a.length ≤ i + k
  · rw [if_pos hi, if_pos (by omega)]
  · rw [if_neg hi, if_neg (by omega)]

variable {stage : Term → Nat → List Term → List Term}

lemma stages_eq {P : Term → Term → Int → Option Term}
    {lsz : Nat} (hlast : ∀ t u, P t u lsz = some t)
    (hstep : ∀ {a : List Term} (t rest : Term) {s : Nat}, s < lsz → a.length = n →
      P (fromBools a) (bop .fromBools t rest) s = P (fromBools (stage t (2 ^ s) a)) rest (s + 1 : Nat))
    (hstage : ∀ t k (a : List Term), (stage t k a).length = a.length) (hb : lsz ≤ b.length)
    {s : Nat} (hs : s ≤ lsz) (ha : a.length = n) :
    P (fromBools a) (fromBools (b.drop s)) s = some (fromBools ((range' s (lsz - s)).foldl
      (fun res s => stage (b.getD s mkFalse) (2 ^ s) res) a)) := by
  induction hm : lsz - s generalizing s a with
  | zero =>
    obtain rfl : s = lsz := by omega
    rw [hlast]
    rfl
  | succ m ih =>
    have hlt : s < b.length := by omega
    rw [List.drop_eq_getElem_cons hlt, fromBools_cons, hstep _ _ (by omega) ha,
      ih (by omega) ((hstage _ _ _).trans ha) (by omega), List.range'_succ, foldl_cons,
      List.getD_eq_getElem _ _ hlt]

lemma clog_le_length {m : Nat} : clog 2 m ≤ m :=
  Nat.clog_le_of_le_pow Nat.lt_two_pow_self.le

lemma shlRec_eq (hb : b.length = a.length) :
    bvMkBitblastStepShlRec ((clog 2 a.length : Nat) : Int) (fromBools a) (fromBools b) 0 =
      some (fromBools ((List.range (clog 2 a.length)).foldl
        (fun res s => shlStage (b.getD s mkFalse) (2 ^ s) res) a)) := by
  have hle : clog 2 a.length ≤ b.length := hb ▸ clog_le_length
  generalize clog 2 a.length = lsz at hle
  rw [List.range_eq_range']
  refine stages_eq (n := a.length) (s := 0) (P := bvMkBitblastStepShlRec lsz) ?_ ?_ length_shlStage
    hle (zero_le _) rfl
  · intro t u
    unfold bvMkBitblastStepShlRec
    exact if_pos rfl
  intro a' t rest s hs _
  rw [bvMkBitblastStepShlRec, if_neg (by omega), arithEvalIntPow2Num_nat, ← Nat.cast_two,
    ← Nat.cast_pow, shlStage_eq, bind_some]
  rfl

lemma shrRec_eq (f : Term) (ha : a ≠ []) (hb : b.length = a.length) :
    bvMkBitblastStepShrRec ((clog 2 a.length : Nat) : Int) f (fromBools a) (fromBools b) 0 =
      some (fromBools ((List.range (clog 2 a.length)).foldl
        (fun res s => shrStage f (b.getD s mkFalse) (2 ^ s) res) a)) := by
  have hpos := length_pos_iff.2 ha
  have hle : clog 2 a.length ≤ b.length := hb ▸ clog_le_length
  have hpow : ∀ s < clog 2 a.length, 2 ^ s < a.length := fun s =>
    (Nat.lt_clog_iff_pow_lt (by decide)).1
  generalize clog 2 a.length = lsz at hle hpow
  rw [List.range_eq_range']
  refine stages_eq (n := a.length) (s := 0) (P := bvMkBitblastStepShrRec lsz f) ?_ ?_
    (length_shrStage f) hle (zero_le _) rfl
  · intro t u
    unfold bvMkBitblastStepShrRec
    exact if_pos rfl
  intro a' t rest s hs ha'
  have hlt := hpow s hs
  rw [bvMkBitblastStepShrRec, if_neg (by omega), arithEvalIntPow2Num_nat, ← Nat.cast_two,
    ← Nat.cast_pow, shrStage_eq f t (ne_nil_of_length_pos (by omega)) (by omega),
    bind_some]
  rfl

lemma length_stages
    (hstage : ∀ t k (a : List Term), (stage t k a).length = a.length) (ss : List Nat)
    (a b : List Term) :
    (ss.foldl (fun res s => stage (b.getD s mkFalse) (2 ^ s) res) a).length = a.length := by
  induction ss generalizing a with
  | nil => rfl
  | cons s ss ih => rw [foldl_cons, ih, hstage]

/-- The guard against large amounts. -/
lemma shift_eq {res fill : Term}
    (hstage : ∀ t k (a : List Term), (stage t k a).length = a.length) (ha : 0 < a.length)
    (hmax : a.length < maxWidth) (hb : b.length = a.length)
    (hres : res = fromBools ((List.range (clog 2 a.length)).foldl
      (fun res s => stage (b.getD s mkFalse) (2 ^ s) res) a)) :
    (((eoToBin a.length a.length).bind bvMkBitblastStepConst).bind fun szc =>
      (bvBitblastUlt (fromBools b) szc false).bind fun lt =>
        bvBitblastApplyIte lt res (bvBitblastRepeat fill a.length)) =
      (shiftBB stage fill a b).map fromBools := by
  have hconst : (defaultConstBB a.length (BitVec.ofNat a.length a.length)).length = a.length := by
    rw [defaultConstBB, length_map, length_range]
  have hzip : ∀ (c : Term) (l : List Term), l.length = a.length →
      zipWith (mkIte c) l (List.replicate a.length fill) = l.map fun r => mkIte c r fill := by
    intro c l hl
    rw [← hl]
    clear hl
    induction l with
    | nil => rfl
    | cons u l ih => rw [length_cons, replicate_succ, zipWith_cons_cons, ih, map_cons]
  have hlen := length_stages hstage (List.range (clog 2 a.length)) a b
  rw [eoToBin, if_pos ⟨by omega, by exact_mod_cast hmax⟩, bind_some, Int.toNat_natCast,
    BitVec.ofInt_natCast, bvMkBitblastStepConst_eq, bind_some,
    bvBitblastUlt_eq (hb.trans hconst.symm), shiftBB, map_map]
  cases uLessThanBB b (defaultConstBB a.length (BitVec.ofNat a.length a.length)) false with
  | none => rfl
  | some c =>
    rw [bind_some, hres, bvBitblastRepeat_eq, bvBitblastApplyIte_eq _
      (hlen.trans length_replicate.symm), hzip c _ hlen]
    rfl

lemma bvMkBitblastStepShl_eq (hw : bvBitwidth Γ (fromBools a) = some a.length)
    (ha : 0 < a.length) (hmax : a.length < maxWidth) (hb : b.length = a.length) :
    bvMkBitblastStepShl Γ (fromBools a) (fromBools b) = (defaultShlBB a b).map fromBools := by
  rw [bvMkBitblastStepShl, hw, bind_some, bvShiftBits_eq ha, bind_some, shlRec_eq hb, bind_some]
  exact shift_eq length_shlStage ha hmax hb rfl

lemma bvMkBitblastStepShr_eq (f : Term) (hw : bvBitwidth Γ (fromBools a) = some a.length)
    (ha : 0 < a.length) (hmax : a.length < maxWidth) (hb : b.length = a.length) :
    bvMkBitblastStepShr Γ (fromBools a) (fromBools b) f =
      (shiftBB (shrStage f) f a b).map fromBools := by
  rw [bvMkBitblastStepShr, hw, bind_some, bvShiftBits_eq ha, bind_some,
    shrRec_eq f (ne_nil_of_length_pos ha) hb, bind_some]
  exact shift_eq (length_shrStage f) ha hmax hb rfl

end Shifts

end EthosCpc.Cvc5
