import EthosCpc.Cpc.ArithLinearSpec
import EthosCpc.Cvc5.BitblastStrategiesSpec

/-!
# Bit-blasting steps of cvc5

The terms whose steps cvc5 emits are the applications of bit-vector operators to
lists of bits.  On each of them the program of CPC returns what the strategy of
cvc5 builds, but for the non-strict comparisons; and what the strategy builds
has the value of the term.
-/

namespace EthosCpc.Cvc5

open Term (bop uop)
open Library.BitList
open Option (bind_some some.inj)
open List (forall_mem_cons getLast length_pos_iff map_cons mem_cons mem_map ne_nil_of_length_pos not_mem_nil)

variable {Γ : Nat → Ty} {a b c bs : List Term} {as : List (List Term)} {t u r : Term} {n k : Nat}

/-! ## Typed bits -/

/-- The bits of a term of width `n`, where a width is a `uint32_t` that is not zero. -/
structure IsBits (Γ : Nat → Ty) (n : Nat) (a : List Term) : Prop where
  length_eq : a.length = n
  pos : 0 < n
  lt_max : n < maxWidth
  typed : ∀ b ∈ a, typeof Γ b = some .bool

lemma IsBits.bitArg (h : IsBits Γ n a) : BitArg Γ n (fromBools a) := ⟨a, rfl, h.length_eq, h.typed⟩

lemma IsBits.ne_nil (h : IsBits Γ n a) : a ≠ [] :=
  ne_nil_of_length_pos (h.length_eq ▸ h.pos)

lemma IsBits.length_eq_length (ha : IsBits Γ n a) (hb : IsBits Γ n b) : a.length = b.length :=
  ha.length_eq.trans hb.length_eq.symm

lemma IsBits.width (h : IsBits Γ n a) : bvBitwidth Γ (fromBools a) = some a.length := by
  rw [h.bitArg.bvBitwidth, h.length_eq]

variable {s : Sym}

lemma typeof_bool2 (hs : s.arity = 2)
    (htype : symTy s [(t, .bool), (u, .bool)] = some .bool) (ht : typeof Γ t = some .bool)
    (hu : typeof Γ u = some .bool) : typeof Γ (bop s t u) = some .bool := by
  rw [typeof_bop Γ hs, ht, hu]
  exact htype

lemma typeof_mkAnd2 (ht : typeof Γ t = some .bool) (hu : typeof Γ u = some .bool) :
    typeof Γ (mkAnd2 t u) = some .bool :=
  typeof_bool2 rfl rfl ht (typeof_bool2 rfl rfl hu rfl)

lemma typeof_mkOr2 (ht : typeof Γ t = some .bool) (hu : typeof Γ u = some .bool) :
    typeof Γ (mkOr2 t u) = some .bool :=
  typeof_bool2 rfl rfl ht (typeof_bool2 rfl rfl hu rfl)

lemma typeof_mkXor (ht : typeof Γ t = some .bool) (hu : typeof Γ u = some .bool) :
    typeof Γ (mkXor t u) = some .bool :=
  typeof_bool2 rfl rfl ht hu

lemma addRow_typed (ht : typeof Γ t = some .bool) {res : List Term} {carry : Term}
    (hcarry : typeof Γ carry = some .bool) (hres : ∀ b ∈ res, typeof Γ b = some .bool)
    (ha : ∀ b ∈ a, typeof Γ b = some .bool) :
    ∀ b ∈ addRow t res a carry, typeof Γ b = some .bool := by
  induction res generalizing a carry with
  | nil =>
    rw [addRow]
    · simp
    · simp
  | cons r res ih =>
    cases a with
    | nil =>
      rw [addRow]
      · simp
      · simp
    | cons u a =>
      obtain ⟨hr, hres⟩ := forall_mem_cons.1 hres
      obtain ⟨hu, ha⟩ := forall_mem_cons.1 ha
      have haj := typeof_mkAnd2 ht hu
      rw [addRow]
      refine forall_mem_cons.2 ⟨typeof_mkXor (typeof_mkXor hr haj) hcarry, ?_⟩
      exact ih (typeof_mkOr2 (typeof_mkAnd2 hr haj) (typeof_mkAnd2 (typeof_mkXor hr haj) hcarry))
        hres ha

lemma addRows_typed (ha : ∀ b ∈ a, typeof Γ b = some .bool) (k : Nat) {res : List Term}
    (hb : ∀ t ∈ b, typeof Γ t = some .bool) (hres : ∀ t ∈ res, typeof Γ t = some .bool) :
    ∀ t ∈ addRows a k b res, typeof Γ t = some .bool := by
  induction b generalizing k res with
  | nil => exact hres
  | cons u b ih =>
    obtain ⟨hu, hb⟩ := forall_mem_cons.1 hb
    rw [addRows]
    refine ih (k + 1) hb ?_
    intro t ht
    rcases List.mem_append.1 ht with ht | ht
    · exact hres t (List.mem_of_mem_take ht)
    · exact addRow_typed hu rfl (fun t ht => hres t (List.mem_of_mem_drop ht)) ha t ht

/-- A product has the width of its factors. -/
lemma shiftAddMultiplier_isBits (ha : IsBits Γ n a) (hb : IsBits Γ n b) :
    ∃ r, shiftAddMultiplier a b = some r ∧ IsBits Γ n r := by
  obtain ⟨u, b, rfl⟩ := List.exists_cons_of_ne_nil hb.ne_nil
  obtain ⟨hu, hbs⟩ := forall_mem_cons.1 hb.typed
  refine ⟨_, rfl, ?_, ha.pos, ha.lt_max, ?_⟩
  · rw [length_addRows _ _ (by rw [List.length_map]), ha.length_eq]
  refine addRows_typed ha.typed 1 hbs ?_
  intro t ht
  obtain ⟨v, hv, rfl⟩ := mem_map.1 ht
  exact typeof_mkAnd2 hu (ha.typed v hv)

/-! ## The remaining programs -/

lemma bvMkBitblastStepConcat_eq (as : List (List Term)) :
    bvMkBitblastStepConcat (prependNAryChildren (.sym .concat) bvEmpty (as.map fromBools)) =
      some (fromBools (defaultConcatBB as)) := by
  induction as with
  | nil => rfl
  | cons a as ih =>
    rw [map_cons, prependNAryChildren_cons, bvMkBitblastStepConcat, ih, bind_some,
      bvBitblastConcat_eq, defaultConcatBB, defaultConcatBB, List.reverse_cons,
      List.flatten_append, List.flatten_singleton]

lemma bvMkBitblastStepMul_eq {nil : Term} (hnil : ∀ ac, bvMkBitblastStepMul Γ nil ac = some ac)
    (ha : IsBits Γ n a) (has : ∀ b ∈ as, IsBits Γ n b) :
    bvMkBitblastStepMul Γ (prependNAryChildren (.sym .bvmul) nil (as.map fromBools)) (fromBools a) =
      (defaultMultBB a as).map fromBools := by
  induction as generalizing a with
  | nil => exact hnil _
  | cons b as ih =>
    obtain ⟨hb, has⟩ := forall_mem_cons.1 has
    obtain ⟨r, hr, hbits⟩ := shiftAddMultiplier_isBits ha hb
    rw [map_cons, prependNAryChildren_cons, bvMkBitblastStepMul,
      bvShiftAddMultiplier_eq ha.width (ha.length_eq_length hb), hr, Option.map_some,
      bind_some, ih hbits has, defaultMultBB, defaultMultBB, List.foldlM_cons, hr]
    rfl

lemma defaultMultBB_isSome (ha : IsBits Γ n a) (has : ∀ b ∈ as, IsBits Γ n b) :
    ∃ r, defaultMultBB a as = some r := by
  induction as generalizing a with
  | nil => exact ⟨a, rfl⟩
  | cons b as ih =>
    obtain ⟨hb, has⟩ := forall_mem_cons.1 has
    obtain ⟨r, hr, hbits⟩ := shiftAddMultiplier_isBits ha hb
    obtain ⟨r', hr'⟩ := ih hbits has
    exact ⟨r', by rw [defaultMultBB, List.foldlM_cons, hr]; exact hr'⟩

lemma bvMkBitblastStepNeg_eq (ha : IsBits Γ n a) :
    bvMkBitblastStep Γ (uop .bvneg (fromBools a)) = some (fromBools (defaultNegBB a)) := by
  rw [bvMkBitblastStep, bvBitblastNot_eq, bind_some, ha.width, bind_some,
    bvBitblastZero_eq, bvRippleCarryAdder_eq ((length_negateBits a).trans (length_makeZero _).symm)]
  rfl

lemma bvMkBitblastStepSub_eq (hlen : a.length = b.length) :
    bvMkBitblastStepBop Γ .bvsub (fromBools a) (fromBools b) =
      some (fromBools (defaultSubBB a b)) := by
  rw [bvMkBitblastStepBop, bvBitblastNot_eq, bind_some,
    bvRippleCarryAdder_eq (hlen.trans (length_negateBits b).symm)]
  rfl

lemma bvMkBitblastStepSignExtend_eq (a : List Term) (k : Nat) :
    bvMkBitblastStepBop Γ .signExtend (.num k) (fromBools a) =
      (defaultSignExtendBB k a).map fromBools := by
  have hk : ¬ (k : Int) < 0 := by omega
  rw [bvMkBitblastStepBop]
  simp only [if_neg hk, bvBitblastSignBit_eq, defaultSignExtendBB, Option.map_map,
    Int.toNat_natCast, bvBitblastRepeat_eq, bvBitblastConcat_eq]
  cases a.getLast? <;> rfl

lemma bvMkBitblastStepExtract_eq {high low : Nat} (hle : low ≤ high) :
    bvMkBitblastStepExtract (.num high) (.num low) (fromBools a) =
      some (fromBools (defaultExtractBB high low a)) := by
  rw [bvMkBitblastStepExtract, show (high : Int) = (low : Int) + (high + 1 - low : Nat) - 1 by omega,
    bvBitblastSubsequence_eq, defaultExtractBB]

/-! ## Steps -/

/-- The term that a step of cvc5 is about: an operator on lists of bits, as it is printed. -/
inductive Printed (Γ : Nat → Ty) : BVApp → Term → Prop
  | unary {s : Sym} {n : Nat} {a : List Term} (hs : s = .bvnot ∨ s = .bvneg) (ha : IsBits Γ n a) :
      Printed Γ (.unary s a) (uop s (fromBools a))
  | binary {s : Sym} {n : Nat} {a b : List Term} (hs : s ∈ blastBinary) (ha : IsBits Γ n a)
      (hb : IsBits Γ n b) : Printed Γ (.binary s a b) (bop s (fromBools a) (fromBools b))
  | nary {s : Sym} {n : Nat} {a : List Term} {as : List (List Term)} {t : Term}
      (hs : s ∈ blastNary) (ha : ∀ b ∈ a :: as, IsBits Γ n b)
      (ht : mkNary Γ s (fromBools a) (as.map fromBools) = some t) : Printed Γ (.nary s a as) t
  | concat {a : List Term} {as : List (List Term)} {t : Term}
      (ha : ∀ b ∈ a :: as, ∃ n, IsBits Γ n b)
      (ht : mkNary Γ .concat (fromBools a) (as.map fromBools) = some t) :
      Printed Γ (.nary .concat a as) t
  | extract {n high low : Nat} {a : List Term} (hle : low ≤ high) (hlt : high < n)
      (ha : IsBits Γ n a) : Printed Γ (.extract high low a)
        (.app (bop .extract (.num high) (.num low)) (fromBools a))
  | ite {n : Nat} {c a b : List Term} (hc : IsBits Γ 1 c) (ha : IsBits Γ n a)
      (hb : IsBits Γ n b) : Printed Γ (.ite c a b)
        (.app (bop .bvite (fromBools c) (fromBools a)) (fromBools b))
  | signExtend {n amount : Nat} {a : List Term} (ha : IsBits Γ n a) :
      Printed Γ (.signExtend amount a) (bop .signExtend (.num amount) (fromBools a))

/-- The non-strict comparisons for which CPC goes on with the strict start value. -/
def StartLost : BVApp → Prop
  | .binary .bvule _ _ => True
  | .binary .bvsle a _ => a.length ≠ 1
  | _ => False

lemma bvMkBitblastStep_bop (hs : s ∈ blastBinary ∨ s = .signExtend) (t u : Term) :
    bvMkBitblastStep Γ (bop s t u) = bvMkBitblastStepBop Γ s t u := by
  rcases hs with hs | rfl
  · simp only [blastBinary, mem_cons, not_mem_nil, or_false] at hs
    rcases hs with rfl | rfl | rfl | rfl | rfl | rfl | rfl | rfl | rfl | rfl | rfl | rfl | rfl |
      rfl | rfl <;> rfl
  · rfl

lemma bvMkBitblastStepBop_eq (hs : s ∈ blastBinary) (ha : IsBits Γ n a)
    (hb : IsBits Γ n b) (hlost : ¬ StartLost (.binary s a b)) :
    bvMkBitblastStepBop Γ s (fromBools a) (fromBools b) = bitblast (.binary s a b) := by
  have hlen := ha.length_eq_length hb
  have hpos : 0 < a.length := ha.length_eq ▸ ha.pos
  have hmax : a.length < maxWidth := ha.length_eq ▸ ha.lt_max
  have hlt := bvBitblastUlt_eq hlen false
  have hslt := bvBitblastSlt_eq hlen false
  simp only [blastBinary, mem_cons, not_mem_nil, or_false] at hs
  rcases hs with rfl | rfl | rfl | rfl | rfl | rfl | rfl | rfl | rfl | rfl | rfl | rfl | rfl |
    rfl | rfl
  · exact bvMkBitblastStepEq_eq hlen ha.ne_nil
  · exact hlt
  · exact absurd trivial hlost
  · exact hslt
  · have hone : a.length = 1 := not_not.1 hlost
    have hsle := bvBitblastSlt_eq hlen true
    rw [decide_eq_true hone] at hsle
    exact hsle
  · exact bvBitblastApplyBinary_eq (fun _ _ => rfl) hlen
  · exact bvMkBitblastStepUdiv_eq ha.width hlen.symm ha.ne_nil
  · exact bvMkBitblastStepUrem_eq ha.width hlen.symm ha.ne_nil
  · exact bvMkBitblastStepSub_eq hlen
  · rw [bvMkBitblastStepBop, bvBitblastSignBit_eq,
      show bitblast (.binary .bvashr a b) = (defaultAshrBB a b).map fromBools from rfl,
      defaultAshrBB]
    cases a.getLast? with
    | none => rfl
    | some f => exact bvMkBitblastStepShr_eq f ha.width hpos hmax hlen.symm
  · exact bvMkBitblastStepShr_eq _ ha.width hpos hmax hlen.symm
  · exact bvMkBitblastStepShl_eq ha.width hpos hmax hlen.symm
  · rw [bvMkBitblastStepBop, bvMkBitblastStepEq_eq hlen ha.ne_nil]
    rfl
  · rw [bvMkBitblastStepBop, hlt]
    rfl
  · rw [bvMkBitblastStepBop, hslt]
    rfl

/-- The operators on lists of arguments. -/
lemma bvMkBitblastStep_nary (hs : s ∈ blastNary) (ha : ∀ b ∈ a :: as, IsBits Γ n b)
    (ht : mkNary Γ s (fromBools a) (as.map fromBools) = some t) :
    bvMkBitblastStep Γ t = bitblast (.nary s a as) := by
  obtain ⟨ha, has⟩ := forall_mem_cons.1 ha
  have hlen : ∀ b ∈ as, b.length = a.length := fun b hb => ((has b hb).length_eq_length ha)
  have htype := ha.bitArg.typeof
  obtain ⟨nil, hnil, rfl⟩ := mkNary_inv ht
  simp only [blastNary, mem_cons, not_mem_nil, or_false] at hs
  rcases hs with rfl | rfl | rfl | rfl | rfl
  · obtain ⟨v, rfl, -⟩ := (bvNary_bvor (I := badInterp Γ)).nilFor htype hnil
    exact bvMkBitblastStepBitwise_eq (fun _ => rfl) (fun _ _ => rfl) hlen
  · obtain ⟨v, rfl, -⟩ := (bvNary_bvand (I := badInterp Γ)).nilFor htype hnil
    exact bvMkBitblastStepBitwise_eq (fun _ => rfl) (fun _ _ => rfl) hlen
  · obtain ⟨v, rfl, -⟩ := (bvNary_bvxor (I := badInterp Γ)).nilFor htype hnil
    exact bvMkBitblastStepBitwise_eq (fun _ => rfl) (fun _ _ => rfl) hlen
  · obtain ⟨v, rfl, -⟩ := (bvNary_bvadd (I := badInterp Γ)).nilFor htype hnil
    exact bvMkBitblastStepAdd_eq (fun _ => rfl) hlen
  · obtain ⟨v, rfl, -⟩ := (bvNary_bvmul (I := badInterp Γ)).nilFor htype hnil
    exact bvMkBitblastStepMul_eq (fun _ => rfl) ha has

variable {app : BVApp}

/-- The program returns what the strategy builds. -/
lemma bvMkBitblastStep_eq (h : Printed Γ app t) (hlost : ¬ StartLost app) :
    bvMkBitblastStep Γ t = bitblast app := by
  cases h with
  | unary hs ha =>
    rcases hs with rfl | rfl
    · exact bvBitblastNot_eq _
    · exact bvMkBitblastStepNeg_eq ha
  | binary hs ha hb =>
    rw [bvMkBitblastStep_bop (.inl hs)]
    exact bvMkBitblastStepBop_eq hs ha hb hlost
  | nary hs ha ht => exact bvMkBitblastStep_nary hs ha ht
  | @concat a as t ha ht =>
    obtain ⟨nil, hnil, rfl⟩ := mkNary_inv ht
    cases hnil
    exact bvMkBitblastStepConcat_eq (a :: as)
  | extract hle hlt ha => exact bvMkBitblastStepExtract_eq hle
  | @ite n c a b hc ha hb =>
    obtain ⟨u, rfl⟩ := List.length_eq_one_iff.1 hc.length_eq
    exact bvMkBitblastStepIte_eq u (ha.length_eq_length hb)
  | signExtend ha =>
    rw [bvMkBitblastStep_bop (.inr rfl)]
    exact bvMkBitblastStepSignExtend_eq _ _

/-! ## Start values -/

/-- A larger formula is another one. -/
lemma mkOr2_ne (t u : Term) : mkOr2 t u ≠ t := by
  intro h
  have hsize := congrArg sizeOf h
  simp only [mkOr2, bop, Term.app.sizeOf_spec] at hsize
  omega

lemma mkOr2_mkAnd2_inj {c d : Term} : mkOr2 (mkAnd2 c t) d = mkOr2 (mkAnd2 c u) d ↔ t = u := by
  simp [mkOr2, mkAnd2]

lemma uLessThanLoop_inj (hlen : a.length = b.length) :
    uLessThanLoop a b t = uLessThanLoop a b u ↔ t = u := by
  refine ⟨fun h => ?_, fun h => h ▸ rfl⟩
  induction a generalizing b t u with
  | nil =>
    rw [List.eq_nil_of_length_eq_zero hlen.symm] at h
    exact h
  | cons x a ih =>
    obtain ⟨y, b, rfl, hlen'⟩ := cons_of_length hlen
    exact mkOr2_mkAnd2_inj.1 (ih hlen' h)

lemma uLessThanBB_start (hlen : a.length = b.length) (ha : a ≠ []) :
    ∃ r r', uLessThanBB a b true = some r ∧ uLessThanBB a b false = some r' ∧ r' ≠ r := by
  obtain ⟨x, a, rfl⟩ := List.exists_cons_of_ne_nil ha
  obtain ⟨y, b, rfl, hlen'⟩ := cons_of_length hlen
  refine ⟨_, _, rfl, rfl, fun h => ?_⟩
  exact mkOr2_ne _ _ ((uLessThanLoop_inj hlen').1 h).symm

lemma sLessThanBB_start (hlen : a.length = b.length) (ha : a ≠ []) (hone : a.length ≠ 1) :
    ∃ r r', sLessThanBB a b true = some r ∧ sLessThanBB a b false = some r' ∧ r' ≠ r := by
  have hb : b ≠ [] := ne_nil_of_length_pos (hlen ▸ length_pos_iff.2 ha)
  have hpos := length_pos_iff.2 ha
  obtain ⟨r, r', hr, hr', hne⟩ := uLessThanBB_start (a := a.dropLast) (b := b.dropLast)
    (by rw [List.length_dropLast, List.length_dropLast, hlen])
    (ne_nil_of_length_pos (by rw [List.length_dropLast]; omega))
  unfold sLessThanBB
  rw [List.getLast?_eq_getLast_of_ne_nil ha, List.getLast?_eq_getLast_of_ne_nil hb]
  dsimp only
  rw [if_neg hone, if_neg hone, hr, hr']
  exact ⟨_, _, rfl, rfl, fun h => hne (mkOr2_mkAnd2_inj.1 h)⟩

/-! ## The steps of cvc5 and of CPC -/

lemma uLessThanBB_isSome (hlen : a.length = b.length) (ha : a ≠ []) (orEqual : Bool) :
    ∃ r, uLessThanBB a b orEqual = some r := by
  obtain ⟨r, r', hr, hr', _⟩ := uLessThanBB_start hlen ha
  cases orEqual
  · exact ⟨r', hr'⟩
  · exact ⟨r, hr⟩

lemma sLessThanBB_isSome (hlen : a.length = b.length) (ha : a ≠ []) (orEqual : Bool) :
    ∃ r, sLessThanBB a b orEqual = some r := by
  by_cases hone : a.length = 1
  · have hb : b ≠ [] := ne_nil_of_length_pos (hlen ▸ length_pos_iff.2 ha)
    unfold sLessThanBB
    rw [List.getLast?_eq_getLast_of_ne_nil ha, List.getLast?_eq_getLast_of_ne_nil hb]
    dsimp only
    rw [if_pos hone]
    exact ⟨_, rfl⟩
  obtain ⟨r, r', hr, hr', -⟩ := sLessThanBB_start hlen ha hone
  cases orEqual
  · exact ⟨r', hr'⟩
  · exact ⟨r, hr⟩

lemma mkAndVector_isSome {as : List Term} (has : as ≠ []) : ∃ r, mkAndVector as = some r := by
  match as, has with
  | [a], _ => exact ⟨a, rfl⟩
  | _ :: _ :: _, _ => exact ⟨_, rfl⟩

lemma defaultEqBB_isSome (hlen : a.length = b.length) (ha : a ≠ []) :
    ∃ r, defaultEqBB a b = some r := by
  refine mkAndVector_isSome (ne_nil_of_length_pos ?_)
  rw [List.length_zipWith, ← hlen, Nat.min_self]
  exact length_pos_iff.2 ha

lemma udivUremBB_isSome (hb : b ≠ []) : ∃ r, udivUremBB a b = some r := by
  have hne : (b.map fun bi => mkIff bi mkFalse) ≠ [] := by simpa using hb
  obtain ⟨r, hr⟩ := mkAndVector_isSome hne
  exact ⟨_, by rw [udivUremBB, hr]; rfl⟩

lemma shiftBB_isSome (stage : Term → Nat → List Term → List Term) (fill : Term)
    (hlen : a.length = b.length) (hb : b ≠ []) : ∃ r, shiftBB stage fill a b = some r := by
  obtain ⟨r, hr⟩ := uLessThanBB_isSome (a := b)
    (b := defaultConstBB a.length (BitVec.ofNat a.length a.length))
    (by rw [defaultConstBB, List.length_map, List.length_range, hlen]) hb false
  exact ⟨_, by rw [shiftBB, hr]; rfl⟩

lemma map_isSome {α β : Type} {o : Option α} (f : α → β) (h : ∃ r, o = some r) :
    ∃ r, o.map f = some r := by
  obtain ⟨r, rfl⟩ := h
  exact ⟨f r, rfl⟩

/-- Every strategy returns. -/
lemma bitblast_isSome (h : Printed Γ app t) : ∃ r, bitblast app = some r := by
  cases h with
  | unary hs ha => rcases hs with rfl | rfl <;> exact ⟨_, rfl⟩
  | binary hs ha hb =>
    have hlen := ha.length_eq_length hb
    simp only [blastBinary, mem_cons, not_mem_nil, or_false] at hs
    rcases hs with rfl | rfl | rfl | rfl | rfl | rfl | rfl | rfl | rfl | rfl | rfl | rfl | rfl |
      rfl | rfl
    · exact defaultEqBB_isSome hlen ha.ne_nil
    · exact uLessThanBB_isSome hlen ha.ne_nil false
    · exact uLessThanBB_isSome hlen ha.ne_nil true
    · exact sLessThanBB_isSome hlen ha.ne_nil false
    · exact sLessThanBB_isSome hlen ha.ne_nil true
    · exact ⟨_, rfl⟩
    · exact map_isSome _ (udivUremBB_isSome hb.ne_nil)
    · exact map_isSome _ (udivUremBB_isSome hb.ne_nil)
    · exact ⟨_, rfl⟩
    · show ∃ r, (defaultAshrBB _ _).map fromBools = some r
      rw [defaultAshrBB, List.getLast?_eq_getLast_of_ne_nil ha.ne_nil]
      exact map_isSome _ (shiftBB_isSome _ _ hlen hb.ne_nil)
    · exact map_isSome _ (shiftBB_isSome _ _ hlen hb.ne_nil)
    · exact map_isSome _ (shiftBB_isSome _ _ hlen hb.ne_nil)
    · exact map_isSome _ (defaultEqBB_isSome hlen ha.ne_nil)
    · exact map_isSome _ (uLessThanBB_isSome hlen ha.ne_nil false)
    · exact map_isSome _ (sLessThanBB_isSome hlen ha.ne_nil false)
  | nary hs ha ht =>
    obtain ⟨ha, has⟩ := forall_mem_cons.1 ha
    simp only [blastNary, mem_cons, not_mem_nil, or_false] at hs
    rcases hs with rfl | rfl | rfl | rfl | rfl
    · exact ⟨_, rfl⟩
    · exact ⟨_, rfl⟩
    · exact ⟨_, rfl⟩
    · exact ⟨_, rfl⟩
    · exact map_isSome _ (defaultMultBB_isSome ha has)
  | concat ha ht => exact ⟨_, rfl⟩
  | extract hle hlt ha => exact ⟨_, rfl⟩
  | ite hc ha hb =>
    obtain ⟨u, rfl⟩ := List.length_eq_one_iff.1 hc.length_eq
    exact ⟨_, rfl⟩
  | signExtend ha =>
    show ∃ r, (defaultSignExtendBB _ _).map fromBools = some r
    rw [defaultSignExtendBB, List.getLast?_eq_getLast_of_ne_nil ha.ne_nil]
    exact ⟨_, rfl⟩

lemma bvMkBitblastStep_ne (h : Printed Γ app t) (hlost : StartLost app) :
    ∃ r r', bitblast app = some r ∧ bvMkBitblastStep Γ t = some r' ∧ r' ≠ r := by
  cases h with
  | binary hs ha hb =>
    have hlen := ha.length_eq_length hb
    simp only [blastBinary, mem_cons, not_mem_nil, or_false] at hs
    rcases hs with rfl | rfl | rfl | rfl | rfl | rfl | rfl | rfl | rfl | rfl | rfl | rfl | rfl |
      rfl | rfl
    case inr.inr.inl =>
      obtain ⟨r, r', hr, hr', hne⟩ := uLessThanBB_start hlen ha.ne_nil
      exact ⟨r, r', hr, (bvBitblastUlt_eq hlen true).trans hr', hne⟩
    case inr.inr.inr.inr.inl =>
      obtain ⟨r, r', hr, hr', hne⟩ := sLessThanBB_start hlen ha.ne_nil hlost
      refine ⟨r, r', hr, (bvBitblastSlt_eq hlen true).trans ?_, hne⟩
      rw [decide_eq_false hlost]
      exact hr'
    all_goals exact hlost.elim
  | unary hs ha => exact hlost.elim
  | nary hs ha ht => exact hlost.elim
  | concat ha ht => exact hlost.elim
  | extract hle hlt ha => exact hlost.elim
  | ite hc ha hb => exact hlost.elim
  | signExtend ha => exact hlost.elim

lemma isBits_true : IsBits Γ 1 [mkTrue] where
  length_eq := rfl
  pos := Nat.one_pos
  lt_max := by decide
  typed := by
    intro b hb
    rw [List.mem_singleton.1 hb]
    rfl

section Values

variable {I : Interp Γ} {xs ys : List Bool} {x y q : Bool}

lemma uLessThanLoop_value (ht : value I t = some (Val.bool q)) (ha : Bits I (fromBools a) xs)
    (hb : Bits I (fromBools b) ys) (hlen : a.length = b.length) (hxy : xs.length = ys.length) :
    value I (uLessThanLoop a b t) = some (Val.bool (ltFold xs ys q)) := by
  obtain ⟨r, hr, hval⟩ := ultRec_value ht ha hb hxy
  rw [bvBitblastUltRec_eq hlen] at hr
  rw [some.inj hr]
  exact hval

lemma uLessThanBB_value (ha : Bits I (fromBools a) xs) (hb : Bits I (fromBools b) ys)
    (hlen : a.length = b.length) (hxy : xs.length = ys.length) (hr : uLessThanBB a b true = some r) :
    value I r = some (Val.bool (decide (toNat xs ≤ toNat ys))) := by
  cases a with
  | nil => cases hr
  | cons t a =>
    obtain ⟨u, b, rfl, hab⟩ := cons_of_length hlen
    cases hr
    cases ha with
    | @cons _ _ x xs ht ha =>
      cases hb with
      | @cons _ _ y ys hu hb =>
        have hlen' : xs.length = ys.length := by simpa using hxy
        have hstart := value_mkOr2 (value_mkAnd2 (value_not ht) hu) (value_eq_bool ht hu)
        rw [if_pos rfl, uLessThanLoop_value hstart ha hb hab hlen']
        congr 2
        rw [Bool.eq_iff_iff, ltFold_iff _ _ _ hlen', decide_eq_true_eq, toNat_cons, toNat_cons]
        cases x <;> cases y <;> simp <;> omega

lemma bitblast_bvule_value (ha : IsBits Γ n a) (hb : IsBits Γ n b)
    (hr : uLessThanBB a b true = some r) (I : Interp Γ) :
    value I (bop .bvule (fromBools a) (fromBools b)) = value I r := by
  obtain ⟨xs, hbx, hlx⟩ := ha.bitArg.bits I
  obtain ⟨ys, hby, hly⟩ := hb.bitArg.bits I
  rw [uLessThanBB_value hbx hby (ha.length_eq_length hb) (hlx.trans hly.symm) hr,
    value_bits_bop (f := fun _ x y => Val.bool (x.ule y)) rfl rfl hbx hlx hby hly,
    BitVec.ule_eq_decide, toNat_bvOf hlx, toNat_bvOf hly]

lemma exists_bits (ha : ∀ b ∈ a, typeof Γ b = some .bool) (I : Interp Γ) :
    ∃ xs, Bits I (fromBools a) xs ∧ xs.length = a.length :=
  BitArg.bits (n := a.length) ⟨a, rfl, rfl, ha⟩ I

lemma bits_append (ha : Bits I (fromBools a) xs) (hb : Bits I (fromBools b) ys) :
    Bits I (fromBools (a ++ b)) (xs ++ ys) := by
  obtain ⟨r, hr, hbits⟩ := bits_concat ha hb
  rw [bvBitblastConcat_eq] at hr
  cases hr
  exact hbits

/-- The signed comparison compares the sign bits, and the other bits where these agree. -/
lemma sLessThanBB_concat (hne : a ≠ []) (t u : Term) :
    sLessThanBB (a ++ [t]) (b ++ [u]) true = (uLessThanBB a b true).map fun ures =>
      mkOr2 (mkAnd2 (mkIff t u) ures) (mkAnd2 t (mkNot u)) := by
  have hlen : ¬ (a ++ [t]).length = 1 := by simpa using hne
  unfold sLessThanBB
  rw [List.getLast?_concat, List.getLast?_concat]
  dsimp only
  rw [if_neg hlen, List.dropLast_concat, List.dropLast_concat]

lemma bitblast_bvsle_value (ha : IsBits Γ n a) (hb : IsBits Γ n b) (hone : a.length ≠ 1)
    (hr : sLessThanBB a b true = some r) (I : Interp Γ) :
    value I (bop .bvsle (fromBools a) (fromBools b)) = value I r := by
  obtain ⟨as, t, rfl⟩ : ∃ as t, a = as ++ [t] :=
    ⟨_, _, (List.dropLast_append_getLast ha.ne_nil).symm⟩
  obtain ⟨bs, u, rfl⟩ : ∃ bs u, b = bs ++ [u] :=
    ⟨_, _, (List.dropLast_append_getLast hb.ne_nil).symm⟩
  have hlen : as.length = bs.length := by simpa using ha.length_eq_length hb
  have hne : as ≠ [] := by simpa using hone
  obtain ⟨(x : Bool), ht⟩ := value_of_typeof I (ha.typed t (by simp))
  obtain ⟨(y : Bool), hu⟩ := value_of_typeof I (hb.typed u (by simp))
  obtain ⟨xs, hxs, hlx⟩ := exists_bits (a := as) (fun c hc => ha.typed c (by simp [hc])) I
  obtain ⟨ys, hys, hly⟩ := exists_bits (a := bs) (fun c hc => hb.typed c (by simp [hc])) I
  have hlenxy : xs.length = ys.length := by omega
  -- the bits with the sign bit at the end
  have hbx : Bits I (fromBools (as ++ [t])) (xs ++ [x]) := bits_append hxs (.cons ht .nil)
  have hby : Bits I (fromBools (bs ++ [u])) (ys ++ [y]) := bits_append hys (.cons hu .nil)
  have hwx : (xs ++ [x]).length = n := by simpa [hlx] using ha.length_eq
  have hwy : (ys ++ [y]).length = n := by simpa [hly] using hb.length_eq
  rw [sLessThanBB_concat hne] at hr
  obtain ⟨v, hv, rfl⟩ := map_inv hr
  have hval := uLessThanBB_value hxs hys hlen hlenxy hv
  rw [value_mkOr2 (value_mkAnd2 (value_eq_bool ht hu) hval) (value_mkAnd2 ht (value_not hu)),
    value_bits_bop (f := fun _ x y => Val.bool (x.sle y)) rfl rfl hbx hwx hby hwy,
    BitVec.sle_eq_slt_or_eq, slt_bvOf hwx hwy]
  have happend : xs ++ [x] = ys ++ [y] ↔ x = y ∧ xs = ys := by
    rw [List.append_eq_append_iff_of_size_eq_left hlenxy, List.singleton_inj, and_comm]
  have hbeq : (bvOf n (xs ++ [x]) == bvOf n (ys ++ [y])) =
      ((x == y) && decide (toNat xs = toNat ys)) := by
    rw [Bool.eq_iff_iff, beq_iff_eq, eq_iff_bvOf hwx hwy, happend, Bool.and_eq_true, beq_iff_eq,
      decide_eq_true_eq, toNat_inj hlenxy]
  rw [hbeq]
  congr 2
  rcases Nat.lt_trichotomy (toNat xs) (toNat ys) with h | h | h
  · simp [h, h.le, h.ne, Bool.or_comm]
  · simp [h, Bool.or_comm]
  · simp [h.not_gt, h.not_ge, h.ne', Bool.or_comm]

lemma Printed.blastable {app : BVApp} (h : Printed Γ app t) : Blastable Γ t := by
  cases h with
  | unary hs ha => exact .unary hs ha.pos ha.bitArg
  | binary hs ha hb => exact .binary hs ha.pos ha.bitArg hb.bitArg
  | @nary s n a as t hs ha ht =>
    refine .nary hs (ha a (by simp)).pos ?_ ht
    intro y hy
    obtain ⟨b, hb, rfl⟩ := mem_map.1 (show y ∈ (a :: as).map fromBools from hy)
    exact (ha b hb).bitArg
  | @concat a as t ha ht =>
    refine .concat ?_ ht
    intro y hy
    obtain ⟨b, hb, rfl⟩ := mem_map.1 (show y ∈ (a :: as).map fromBools from hy)
    obtain ⟨n, hn⟩ := ha b hb
    exact ⟨n, hn.pos, hn.bitArg⟩
  | extract hle hlt ha => exact .extract (by omega) (by omega) (by omega) ha.bitArg
  | ite hc ha hb => exact .ite ha.pos hc.bitArg ha.bitArg hb.bitArg
  | signExtend ha => exact .signExtend ha.pos ha.bitArg

/-- Where the start value is kept, no comparison becomes strict. -/
lemma Printed.not_orEqualLost {app : BVApp} (h : Printed Γ app t) (hlost : ¬ StartLost app) :
    ¬ OrEqualLost I t := by
  cases h with
  | binary hs ha hb =>
    rw [orEqualLost_bop, ha.width]
    rintro ⟨rfl | ⟨rfl, hne⟩, -⟩
    · exact hlost trivial
    · exact hne (congrArg some (not_not.1 hlost))
  | nary hs ha ht =>
    obtain ⟨nil, -, rfl⟩ := mkNary_inv ht
    exact not_orEqualLost_bop (by rintro rfl; revert hs; decide) (by rintro rfl; revert hs; decide)
  | concat ha ht =>
    obtain ⟨nil, -, rfl⟩ := mkNary_inv ht
    exact not_orEqualLost_bop (by decide) (by decide)
  | signExtend ha => exact not_orEqualLost_bop (by decide) (by decide)
  | unary hs ha =>
    rintro ⟨x', y', heq | ⟨heq, -⟩, -⟩
    · cases heq
    · cases heq
  | extract hle hlt ha =>
    rintro ⟨x', y', heq | ⟨heq, -⟩, -⟩
    · cases heq
    · cases heq
  | ite hc ha hb =>
    rintro ⟨x', y', heq | ⟨heq, -⟩, -⟩
    · cases heq
    · cases heq

end Values

end EthosCpc.Cvc5
