import EthosCpc.Cvc5.EntailNodeSpec
import EthosCpc.Cvc5.Evaluator
import EthosCpc.Cvc5.NativeValuesSpec

/-!
# When the evaluator is right

Every case of the evaluator computes the meaning of its kind, with one
exception: `str.indexof` cuts the start of its search to 32 bits without a
look at the length of the string.  `evalInternal_sound_iff` says that the
evaluator is right on a node and all nodes below it exactly when no search
there is misled by this.

`Agrees` relates a result to a value.  The lemmas `agrees_bool`, `agrees_int`
and so on say which results agree with a value of each type, and each kind is
an instance of a shape: one argument, two arguments, or a loop.
-/

namespace EthosCpc.Cvc5.Evaluator

open Library EvalResult Integer
open Rat (num_intCast)
open Option (some.inj)
open List (Forall₂ foldlM_cons forall₂_cons_left_iff get_mem length_drop)

variable {Γ : Nat → Ty} {I : Interp Γ} {D : SortValues I} {r r' : EvalResult}

/-! ## Results and values -/

lemma agrees_invalid (v : Val I.U) : Agrees D .invalid v := .inl rfl

lemma agrees_cases {v : Val I.U} (h : Agrees D r v) :
    r = .invalid ∨ (∃ b, r = .bool b ∧ v = .bool b) ∨
    (∃ z : Int, r = .rational z ∧ v = .int z) ∨ (∃ q : Rat, r = .rational q ∧ v = .real q) ∨
    (∃ a : BitVector, r = .bitvector a ∧ v = .bitvec (BitVec.ofNatLT a.value a.value_lt)) ∨
    (∃ a : CodeString, r = .string a ∧ v = .str a.chars) ∨
    ∃ m k x, r = .uvalue m k ∧ D.elem m k = some x ∧ v = ⟨.usort m, x⟩ := by
  refine h.imp_right ?_
  rintro ⟨c, hc, hv⟩
  cases r with
  | bool b =>
    cases hc
    exact .inl ⟨b, rfl, (some.inj hv).symm⟩
  | rational q =>
    refine .inr ?_
    simp only [toNode, EvalResult.mkConstRealOrInt] at hc
    split at hc
    swap
    · cases hc
      exact .inr (.inl ⟨q, rfl, (some.inj hv).symm⟩)
    split at hc
    · rename_i hden
      cases hc
      exact .inl ⟨q.num, congrArg _ ((Rat.den_eq_one_iff q).1 hden).symm, (some.inj hv).symm⟩
    · cases hc
  | bitvector a =>
    cases hc
    exact .inr (.inr (.inr (.inl ⟨a, rfl, (some.inj hv).symm⟩)))
  | string a =>
    cases hc
    exact .inr (.inr (.inr (.inr (.inl ⟨a, rfl, (some.inj hv).symm⟩))))
  | uvalue m k =>
    cases hc
    obtain ⟨x, hx, hxv⟩ := map_inv hv
    exact .inr (.inr (.inr (.inr (.inr ⟨m, k, x, rfl, hx, hxv.symm⟩))))
  | invalid => cases hc

lemma agrees_bool {b : Bool} : Agrees D r (.bool b) ↔ r = .invalid ∨ r = .bool b := by
  constructor
  · intro h
    rcases agrees_cases h with rfl | ⟨b', rfl, hv⟩ | ⟨_, -, hv⟩ | ⟨_, -, hv⟩ | ⟨_, -, hv⟩ | ⟨_, -, hv⟩ |
      ⟨_, _, _, -, -, hv⟩
    · exact .inl rfl
    · rw [Val.bool_inj.1 hv]
      exact .inr rfl
    all_goals cases hv
  · rintro (rfl | rfl)
    · exact .inl rfl
    · exact .inr ⟨_, rfl, rfl⟩

lemma agrees_int {z : Int} : Agrees D r (.int z) ↔ r = .invalid ∨ r = .rational z := by
  constructor
  · intro h
    rcases agrees_cases h with rfl | ⟨_, -, hv⟩ | ⟨z', rfl, hv⟩ | ⟨_, -, hv⟩ | ⟨_, -, hv⟩ | ⟨_, -, hv⟩ |
      ⟨_, _, _, -, -, hv⟩
    · exact .inl rfl
    · cases hv
    · rw [Val.int_inj.1 hv]
      exact .inr rfl
    all_goals cases hv
  · rintro (rfl | rfl)
    · exact .inl rfl
    · exact .inr ⟨.integer z, by simp [toNode, EvalResult.mkConstRealOrInt], rfl⟩

lemma agrees_real {x : ℝ} :
    Agrees D r (.real x) ↔ r = .invalid ∨ ∃ q : Rat, r = .rational q ∧ (q : ℝ) = x := by
  constructor
  · intro h
    rcases agrees_cases h with rfl | ⟨_, -, hv⟩ | ⟨_, -, hv⟩ | ⟨q, rfl, hv⟩ | ⟨_, -, hv⟩ | ⟨_, -, hv⟩ |
      ⟨_, _, _, -, -, hv⟩
    · exact .inl rfl
    · cases hv
    · cases hv
    · exact .inr ⟨q, rfl, (Val.real_inj.1 hv).symm⟩
    all_goals cases hv
  · rintro (rfl | ⟨q, rfl, rfl⟩)
    · exact .inl rfl
    · exact .inr ⟨.rational q, rfl, rfl⟩

lemma agrees_bitvec {w : Nat} {x : BitVec w} :
    Agrees D r (.bitvec x) ↔ r = .invalid ∨ ∃ a, r = .bitvector a ∧ a.Denotes x := by
  constructor
  · intro h
    rcases agrees_cases h with rfl | ⟨_, -, hv⟩ | ⟨_, -, hv⟩ | ⟨_, -, hv⟩ | ⟨a, rfl, hv⟩ | ⟨_, -, hv⟩ |
      ⟨_, _, _, -, -, hv⟩
    · exact .inl rfl
    · cases hv
    · cases hv
    · cases hv
    · have hw : w = a.size := Val.width_eq hv
      subst hw
      exact .inr ⟨a, rfl, rfl, (congrArg BitVec.toNat (Val.bitvec_inj.1 hv)).symm⟩
    all_goals cases hv
  · rintro (rfl | ⟨a, rfl, rfl, hval⟩)
    · exact .inl rfl
    · exact .inr ⟨.bitvector a, rfl,
        congrArg some (Val.bitvec_inj.2 (BitVec.eq_of_toNat_eq hval))⟩

lemma agrees_seq {T : Ty} {l : List (Dom I.U T)} (h : Agrees D r (.seq T l)) :
    r = .invalid ∨ ∃ a : CodeString, r = .string a ∧ (Val.seq T l : Val I.U) = .str a.chars := by
  rcases agrees_cases h with rfl | ⟨_, -, hv⟩ | ⟨_, -, hv⟩ | ⟨_, -, hv⟩ | ⟨_, -, hv⟩ | ⟨a, rfl, hv⟩ |
    ⟨_, _, _, -, -, hv⟩
  · exact .inl rfl
  · cases hv
  · cases hv
  · cases hv
  · cases hv
  · exact .inr ⟨a, rfl, hv⟩
  · cases hv

lemma agrees_str {s : Str} :
    Agrees D r (.str s) ↔ r = .invalid ∨ ∃ a : CodeString, r = .string a ∧ a.chars = s := by
  constructor
  · intro h
    refine (agrees_seq h).imp_right ?_
    rintro ⟨a, rfl, hv⟩
    exact ⟨a, rfl, (Val.mk_inj.1 hv).symm⟩
  · rintro (rfl | ⟨a, rfl, rfl⟩)
    · exact .inl rfl
    · exact .inr ⟨.string a, rfl, rfl⟩

lemma agrees_ofInt (z : Int) : Agrees D (ofInt z) (.int z) := agrees_int.2 (.inr rfl)

lemma agrees_ofBool {b : Bool} {p : Prop} (h : b = true ↔ p) :
    Agrees D (.bool b) (.bool (truth p)) := agrees_bool.2 (.inr (congrArg _ (eq_truth.2 h)))

lemma agrees_ofTest {b c : Bool} (h : b = c) : Agrees D (.bool b) (.bool c) :=
  agrees_bool.2 (.inr (congrArg _ h))

lemma agrees_ofString (l : Str) : Agrees D (ofString l) (.str l) := by
  refine agrees_str.2 ?_
  unfold ofString CodeString.ofVec
  by_cases h : l.length ≤ maxSize
  · rw [dif_pos h]
    exact .inr ⟨_, rfl, rfl⟩
  · rw [dif_neg h]
    exact .inl rfl

lemma agrees_ofBitVector {o : Option BitVector} {w : Nat} {x : BitVec w}
    (h : ∀ a, o = some a → a.Denotes x) : Agrees D (ofBitVector o) (.bitvec x) := by
  refine agrees_bitvec.2 ?_
  cases o with
  | none => exact .inl rfl
  | some a => exact .inr ⟨a, rfl, h a rfl⟩

lemma agrees_denotes {a : BitVector} {w : Nat} {x : BitVec w} (h : a.Denotes x) :
    Agrees D (.bitvector a) (.bitvec x) := agrees_bitvec.2 (.inr ⟨a, rfl, h⟩)

lemma agrees_const {c : Const} {v : Val I.U} (h : constVal D c = some v) :
    Agrees D (evalConst c) v := by
  cases c with
  | integer z =>
    cases h
    exact agrees_ofInt z
  | rational q =>
    cases h
    exact agrees_real.2 (.inr ⟨q, rfl, rfl⟩)
  | other n => exact .inl rfl
  | boolean b => exact .inr ⟨_, rfl, h⟩
  | bitvector b => exact .inr ⟨_, rfl, h⟩
  | string b => exact .inr ⟨_, rfl, h⟩
  | uninterpretedSortValue m k => exact .inr ⟨_, rfl, h⟩

/-! ## Loops and arguments -/

section Shapes

variable {rs : List EvalResult} {vs : List (Val I.U)} {v : Val I.U}
  {step : EvalResult → EvalResult → EvalResult} {op : List (Val I.U) → Option (Val I.U)}

/-- A step computes a binary operator. -/
structure StepOk (D : SortValues I) (step : EvalResult → EvalResult → EvalResult)
    (op : List (Val I.U) → Option (Val I.U)) : Prop where
  agrees : ∀ {r r' v v' w}, Agrees D r v → Agrees D r' v' → op [v, v'] = some w →
    Agrees D (step r r') w

/-- The loop computes the operator from left to right: after each step the
result so far agrees with the value so far. -/
lemma StepOk.fold (h : StepOk D step op) (hrs : Forall₂ (Agrees D) rs vs)
    (hv : foldVal op vs = some v) : Agrees D (fold step rs) v := by
  cases hrs with
  | nil => cases hv
  | @cons r w rs vs hr hrs =>
    change vs.foldlM (fun a b => op [a, b]) w = some v at hv
    change Agrees D (rs.foldl step r) v
    induction hrs generalizing r w with
    | nil =>
      cases hv
      exact hr
    | cons hr' _ ih =>
      rw [foldlM_cons] at hv
      obtain ⟨w', hw', hrest⟩ := bind_inv hv
      exact ih (h.agrees hr hr' hw') hrest

lemma StepOk.two (h : StepOk D step op) (hrs : Forall₂ (Agrees D) rs vs)
    (hv : op vs = some v) : Agrees D (two step rs) v := by
  unfold EvalResult.two
  split
  swap
  · exact agrees_invalid v
  rename_i r r'
  obtain ⟨w, vs', hr, hrs', rfl⟩ := forall₂_cons_left_iff.1 hrs
  obtain ⟨w', vs'', hr', hnil, rfl⟩ := forall₂_cons_left_iff.1 hrs'
  cases hnil
  exact h.agrees hr hr' hv

lemma forall₂_one (hrs : Forall₂ (Agrees D) rs [v]) : ∃ r, rs = [r] ∧ Agrees D r v := by
  cases hrs with
  | cons hr hnil =>
    cases hnil
    exact ⟨_, rfl, hr⟩

lemma forall₂_three {v' w : Val I.U} (hrs : Forall₂ (Agrees D) rs [v, v', w]) :
    ∃ r r' r'', rs = [r, r', r''] ∧ Agrees D r v ∧ Agrees D r' v' ∧ Agrees D r'' w := by
  cases hrs with
  | cons hr hrs =>
    cases hrs with
    | cons hr' hrs =>
      obtain ⟨r'', rfl, hr''⟩ := forall₂_one hrs
      exact ⟨_, _, _, rfl, hr, hr', hr''⟩

lemma stepOk_bools (f : Bool → Bool → Bool) : StepOk D (onBools f) (vBool2 f) := by
  refine ⟨fun {r r' v v' w} hr hr' hw => ?_⟩
  obtain ⟨x, y, hvs, rfl⟩ := vBool2_inv hw
  cases hvs
  rcases agrees_bool.1 hr with rfl | rfl
  · exact agrees_invalid _
  rcases agrees_bool.1 hr' with rfl | rfl
  · exact agrees_invalid _
  exact agrees_bool.2 (.inr rfl)

lemma stepOk_arith {fi : Int → Int → Int} {fr : ℝ → ℝ → ℝ} {f : Rat → Rat → Rat}
    (hint : ∀ x y : Int, f x y = fi x y) (hreal : ∀ p q : Rat, (f p q : ℝ) = fr p q) :
    StepOk D (onRationals fun x y => .rational (f x y)) (vArith2 fi fr) := by
  refine ⟨fun {r r' v v' w} hr hr' hw => ?_⟩
  rcases vArith2_inv hw with ⟨x, y, hvs, rfl⟩ | ⟨x, y, hvs, rfl⟩ <;> cases hvs
  · rcases agrees_int.1 hr with rfl | rfl
    · exact agrees_invalid _
    rcases agrees_int.1 hr' with rfl | rfl
    · exact agrees_invalid _
    exact agrees_int.2 (.inr (congrArg _ (hint x y)))
  · rcases agrees_real.1 hr with rfl | ⟨p, rfl, rfl⟩
    · exact agrees_invalid _
    rcases agrees_real.1 hr' with rfl | ⟨q, rfl, rfl⟩
    · exact agrees_invalid _
    exact agrees_real.2 (.inr ⟨_, rfl, hreal p q⟩)

lemma stepOk_rel {fi : Int → Int → Prop} {fr : ℝ → ℝ → Prop} {f : Rat → Rat → Bool}
    (hint : ∀ x y : Int, f x y = true ↔ fi x y) (hreal : ∀ p q : Rat, f p q = true ↔ fr p q) :
    StepOk D (onRationals fun x y => .bool (f x y)) (vRel fi fr) := by
  refine ⟨fun {r r' v v' w} hr hr' hw => ?_⟩
  rcases vRel_inv hw with ⟨x, y, hvs, rfl⟩ | ⟨x, y, hvs, rfl⟩ <;> cases hvs
  · rcases agrees_int.1 hr with rfl | rfl
    · exact agrees_invalid _
    rcases agrees_int.1 hr' with rfl | rfl
    · exact agrees_invalid _
    exact agrees_ofBool (hint x y)
  · rcases agrees_real.1 hr with rfl | ⟨p, rfl, rfl⟩
    · exact agrees_invalid _
    rcases agrees_real.1 hr' with rfl | ⟨q, rfl, rfl⟩
    · exact agrees_invalid _
    exact agrees_ofBool (hreal p q)

lemma stepOk_int2 {f : Rat → Rat → EvalResult} {g : Int → Int → Val I.U}
    (h : ∀ x y : Int, Agrees D (f x y) (g x y)) : StepOk D (onRationals f) (vInt2 g) := by
  refine ⟨fun {r r' v v' w} hr hr' hw => ?_⟩
  obtain ⟨x, y, hvs, rfl⟩ := vInt2_inv hw
  cases hvs
  rcases agrees_int.1 hr with rfl | rfl
  · exact agrees_invalid _
  rcases agrees_int.1 hr' with rfl | rfl
  · exact agrees_invalid _
  exact h x y

lemma stepOk_qdiv {f : Rat → Rat → EvalResult} {g : ℝ → ℝ → ℝ}
    (h : ∀ p q : Rat, Agrees D (f p q) (.real (g p q))) : StepOk D (onRationals f) (vQdiv g) := by
  refine ⟨fun {r r' v v' w} hr hr' hw => ?_⟩
  rcases vQdiv_inv hw with ⟨x, y, hvs, rfl⟩ | ⟨x, y, hvs, rfl⟩ <;> cases hvs
  · rcases agrees_int.1 hr with rfl | rfl
    · exact agrees_invalid _
    rcases agrees_int.1 hr' with rfl | rfl
    · exact agrees_invalid _
    have hxy := h x y
    rw [Rat.cast_intCast, Rat.cast_intCast] at hxy
    exact hxy
  · rcases agrees_real.1 hr with rfl | ⟨p, rfl, rfl⟩
    · exact agrees_invalid _
    rcases agrees_real.1 hr' with rfl | ⟨q, rfl, rfl⟩
    · exact agrees_invalid _
    exact h p q

lemma stepOk_bv2 {f : BitVector → BitVector → EvalResult} {g : ∀ w, BitVec w → BitVec w → Val I.U}
    (h : ∀ {w : Nat} {a b : BitVector} {x y : BitVec w}, a.Denotes x → b.Denotes y →
      Agrees D (f a b) (g w x y)) : StepOk D (onBitvectors f) (vBv2 g) := by
  refine ⟨fun {r r' v v' w} hr hr' hw => ?_⟩
  obtain ⟨n, x, y, hvs, rfl⟩ := vBv2_inv hw
  cases hvs
  rcases agrees_bitvec.1 hr with rfl | ⟨a, rfl, ha⟩
  · exact agrees_invalid _
  rcases agrees_bitvec.1 hr' with rfl | ⟨b, rfl, hb⟩
  · exact agrees_invalid _
  exact h ha hb

lemma stepOk_concat : StepOk D (onBitvectors fun a b => ofBitVector (a.concat b))
    (symVal I .concat) := by
  refine ⟨fun {r r' v v' w} hr hr' hw => ?_⟩
  obtain ⟨n, n', x, y, hvs, rfl⟩ := vConcat_inv hw
  cases hvs
  rcases agrees_bitvec.1 hr with rfl | ⟨a, rfl, ha⟩
  · exact agrees_invalid _
  rcases agrees_bitvec.1 hr' with rfl | ⟨b, rfl, hb⟩
  · exact agrees_invalid _
  exact agrees_ofBitVector fun c hc => ha.concat hb hc

lemma stepOk_strConcat : StepOk D (onStrings fun s t => ofString (s ++ t))
    (symVal I .strConcat) := by
  refine ⟨fun {r r' v v' w} hr hr' hw => ?_⟩
  obtain ⟨T, x, y, hvs, rfl⟩ := vSeq2_inv hw
  cases hvs
  rcases agrees_seq hr with rfl | ⟨a, rfl, ha⟩
  · exact agrees_invalid _
  cases ha
  rcases agrees_str.1 hr' with rfl | ⟨b, rfl, rfl⟩
  · exact agrees_invalid _
  exact agrees_ofString _

variable {f : Str → Str → EvalResult}

lemma stepOk_seqRel {p : ∀ T, List (Dom I.U T) → List (Dom I.U T) → Prop}
    (h : ∀ s t : Str, Agrees D (f s t) (.bool (truth (p .char s t)))) :
    StepOk D (onStrings f) (vSeqRel p) := by
  refine ⟨fun {r r' v v' w} hr hr' hw => ?_⟩
  unfold vSeqRel at hw
  split at hw
  swap
  · cases hw
  rename_i T x T' y hvs
  cases hvs
  split at hw
  swap
  · cases hw
  rename_i hT
  subst hT
  cases hw
  rcases agrees_seq hr with rfl | ⟨a, rfl, ha⟩
  · exact agrees_invalid _
  cases ha
  rcases agrees_str.1 hr' with rfl | ⟨b, rfl, rfl⟩
  · exact agrees_invalid _
  exact h _ _

lemma stepOk_str2 {g : Str → Str → Val I.U}
    (h : ∀ s t : Str, Agrees D (f s t) (g s t)) : StepOk D (onStrings f) (vStr2 g) := by
  refine ⟨fun {r r' v v' w} hr hr' hw => ?_⟩
  obtain ⟨x, y, hvs, rfl⟩ := vStr2_inv hw
  cases hvs
  rcases agrees_str.1 hr with rfl | ⟨a, rfl, rfl⟩
  · exact agrees_invalid _
  rcases agrees_str.1 hr' with rfl | ⟨b, rfl, rfl⟩
  · exact agrees_invalid _
  exact h _ _

lemma agrees_arith1 {fi : Int → Int} {fr : ℝ → ℝ} {f : Rat → Rat} (hint : ∀ x : Int, f x = fi x)
    (hreal : ∀ q : Rat, (f q : ℝ) = fr q) (hrs : Forall₂ (Agrees D) rs vs)
    (hv : vArith1 fi fr vs = some v) : Agrees D (rational1 (fun x => .rational (f x)) rs) v := by
  rcases vArith1_inv hv with ⟨x, rfl, rfl⟩ | ⟨x, rfl, rfl⟩
  · obtain ⟨r, rfl, hr⟩ := forall₂_one hrs
    rcases agrees_int.1 hr with rfl | rfl
    · exact agrees_invalid _
    exact agrees_int.2 (.inr (congrArg _ (hint x)))
  obtain ⟨r, rfl, hr⟩ := forall₂_one hrs
  rcases agrees_real.1 hr with rfl | ⟨q, rfl, rfl⟩
  · exact agrees_invalid _
  exact agrees_real.2 (.inr ⟨_, rfl, hreal q⟩)

lemma agrees_toReal (hrs : Forall₂ (Agrees D) rs vs) (hv : vToReal vs = some v) :
    Agrees D (rational1 .rational rs) v := by
  rcases vToReal_inv hv with ⟨x, rfl, rfl⟩ | ⟨x, rfl, rfl⟩
  · obtain ⟨r, rfl, hr⟩ := forall₂_one hrs
    rcases agrees_int.1 hr with rfl | rfl
    · exact agrees_invalid _
    exact agrees_real.2 (.inr ⟨x, rfl, Rat.cast_intCast x⟩)
  obtain ⟨r, rfl, hr⟩ := forall₂_one hrs
  rcases agrees_real.1 hr with rfl | ⟨q, rfl, rfl⟩
  · exact agrees_invalid _
  exact agrees_real.2 (.inr ⟨q, rfl, rfl⟩)

lemma agrees_real1 {f : Rat → EvalResult} {g : ℝ → Val I.U} (h : ∀ q : Rat, Agrees D (f q) (g q))
    (hrs : Forall₂ (Agrees D) rs vs) (hv : vReal1 g vs = some v) :
    Agrees D (rational1 f rs) v := by
  unfold vReal1 at hv
  split at hv
  swap
  · cases hv
  rename_i x
  cases hv
  obtain ⟨r, rfl, hr⟩ := forall₂_one hrs
  rcases agrees_real.1 hr with rfl | ⟨q, rfl, rfl⟩
  · exact agrees_invalid _
  exact h q

lemma agrees_int1 {f : Rat → EvalResult} {g : Int → Val I.U} (h : ∀ z : Int, Agrees D (f z) (g z))
    (hrs : Forall₂ (Agrees D) rs vs) (hv : vInt1 g vs = some v) :
    Agrees D (rational1 f rs) v := by
  obtain ⟨x, rfl, rfl⟩ := vInt1_inv hv
  obtain ⟨r, rfl, hr⟩ := forall₂_one hrs
  rcases agrees_int.1 hr with rfl | rfl
  · exact agrees_invalid _
  exact h x

lemma agrees_bv1 {f : BitVector → EvalResult} {g : ∀ w, BitVec w → Val I.U}
    (h : ∀ {w : Nat} {a : BitVector} {x : BitVec w}, vs = [.bitvec x] → a.Denotes x →
      Agrees D (f a) (g w x))
    (hrs : Forall₂ (Agrees D) rs vs) (hv : vBv1 g vs = some v) :
    Agrees D (bitvector1 f rs) v := by
  obtain ⟨w, x, rfl, rfl⟩ := vBv1_inv hv
  obtain ⟨r, rfl, hr⟩ := forall₂_one hrs
  rcases agrees_bitvec.1 hr with rfl | ⟨a, rfl, ha⟩
  · exact agrees_invalid _
  exact h rfl ha

lemma agrees_bvIdx {f : BitVector → EvalResult} {g : Nat → ∀ w, BitVec w → Val I.U} {i : Nat}
    (h : ∀ {w : Nat} {a : BitVector} {x : BitVec w}, a.Denotes x → Agrees D (f a) (g i w x))
    (hrs : Forall₂ (Agrees D) rs vs) (hv : indexVal (vBvIdx g) i vs = some v) :
    Agrees D (bitvector1 f rs) v := by
  unfold indexVal at hv
  split at hv
  swap
  · cases hv
  obtain ⟨z, w, x, hvs, rfl⟩ := vBvIdx_inv hv
  cases hvs
  obtain ⟨r, rfl, hr⟩ := forall₂_one hrs
  rcases agrees_bitvec.1 hr with rfl | ⟨a, rfl, ha⟩
  · exact agrees_invalid _
  exact h ha

lemma agrees_str1 {f : Str → EvalResult} {g : Str → Val I.U} (h : ∀ s : Str, Agrees D (f s) (g s))
    (hrs : Forall₂ (Agrees D) rs vs) (hv : vStr1 g vs = some v) :
    Agrees D (string1 f rs) v := by
  obtain ⟨x, rfl, rfl⟩ := vStr1_inv hv
  obtain ⟨r, rfl, hr⟩ := forall₂_one hrs
  rcases agrees_str.1 hr with rfl | ⟨a, rfl, rfl⟩
  · exact agrees_invalid _
  exact h _

lemma agrees_seq1 {f : Str → EvalResult} {g : ∀ T, List (Dom I.U T) → Val I.U}
    (h : ∀ s : Str, Agrees D (f s) (g .char s)) (hrs : Forall₂ (Agrees D) rs vs)
    (hv : vSeq1 g vs = some v) : Agrees D (string1 f rs) v := by
  unfold vSeq1 at hv
  split at hv
  swap
  · cases hv
  cases hv
  obtain ⟨r, rfl, hr⟩ := forall₂_one hrs
  rcases agrees_seq hr with rfl | ⟨a, rfl, ha⟩
  · exact agrees_invalid _
  cases ha
  exact h _

lemma agrees_seq3 {f : Str → Str → Str → EvalResult}
    {g : ∀ T, List (Dom I.U T) → List (Dom I.U T) → List (Dom I.U T) → List (Dom I.U T)}
    (h : ∀ s x y : Str, Agrees D (f s x y) (.str (g .char s x y)))
    (hrs : Forall₂ (Agrees D) rs vs) (hv : vSeq3 g vs = some v) :
    Agrees D (string3 f rs) v := by
  unfold vSeq3 at hv
  split at hv
  swap
  · cases hv
  rename_i T s T' x T'' y
  split at hv
  swap
  · cases hv
  rename_i hT
  subst hT
  split at hv
  swap
  · cases hv
  rename_i hT
  subst hT
  cases hv
  obtain ⟨r, r', r'', rfl, hr, hr', hr''⟩ := forall₂_three hrs
  rcases agrees_seq hr with rfl | ⟨a, rfl, ha⟩
  · exact agrees_invalid _
  cases ha
  rcases agrees_str.1 hr' with rfl | ⟨b, rfl, rfl⟩
  · exact agrees_invalid _
  rcases agrees_str.1 hr'' with rfl | ⟨c, rfl, rfl⟩
  · exact agrees_invalid _
  exact h _ _ _

end Shapes

/-! ## The cases -/

section Cases

variable {i : Int}

lemma toUnsignedInt_position (s : CodeString) (h0 : 0 ≤ i) (hi : i ≤ s.chars.length) :
    toUnsignedInt i = i.toNat := by
  have hlen := s.size_le
  obtain ⟨n, rfl⟩ := Int.eq_ofNat_of_zero_le h0
  have hn : n < 2 ^ 32 := by
    unfold maxSize at hlen
    omega
  exact toUnsignedInt_of_lt hn

lemma stepOk_division : StepOk D (onRationals (divStep .division)) (symVal I .qdiv) := by
  apply stepOk_qdiv
  intro p q
  unfold divStep realDiv
  by_cases hq : q = 0
  · rw [if_pos hq]
    exact agrees_invalid _
  · rw [if_neg hq, if_neg (by exact_mod_cast hq)]
    exact agrees_real.2 (.inr ⟨_, rfl, Rat.cast_div p q⟩)

lemma stepOk_divisionTotal :
    StepOk D (onRationals (divStep .divisionTotal)) (symVal I .qdivTotal) := by
  apply stepOk_qdiv
  intro p q
  unfold divStep
  by_cases hq : q = 0
  · rw [if_pos hq, hq, Rat.cast_zero, div_zero]
    exact agrees_real.2 (.inr ⟨0, rfl, Rat.cast_zero⟩)
  · rw [if_neg hq]
    exact agrees_real.2 (.inr ⟨_, rfl, Rat.cast_div p q⟩)

lemma stepOk_intsDivision : StepOk D (onRationals (divStep .intsDivision)) (symVal I .div) := by
  apply stepOk_int2
  intro x y
  unfold divStep
  by_cases hy : y = 0
  · rw [if_pos (Int.cast_eq_zero.2 hy)]
    exact agrees_invalid _
  · rw [if_neg (Int.cast_ne_zero.2 hy), if_neg hy, num_intCast, num_intCast, euclidianDivideQuotient, euclidianQR_eq x hy]
    exact agrees_ofInt _

lemma stepOk_intsDivisionTotal :
    StepOk D (onRationals (divStep .intsDivisionTotal)) (symVal I .divTotal) := by
  apply stepOk_int2
  intro x y
  unfold divStep
  by_cases hy : y = 0
  · rw [if_pos (Int.cast_eq_zero.2 hy), hy, Int.ediv_zero]
    exact agrees_ofInt 0
  · rw [if_neg (Int.cast_ne_zero.2 hy), num_intCast, num_intCast, euclidianDivideQuotient, euclidianQR_eq x hy]
    exact agrees_ofInt _

lemma stepOk_intsModulus : StepOk D (onRationals (divStep .intsModulus)) (symVal I .mod) := by
  apply stepOk_int2
  intro x y
  unfold divStep
  by_cases hy : y = 0
  · rw [if_pos (Int.cast_eq_zero.2 hy)]
    exact agrees_invalid _
  · rw [if_neg (Int.cast_ne_zero.2 hy), if_neg hy, num_intCast, num_intCast, euclidianDivideRemainder, euclidianQR_eq x hy]
    exact agrees_ofInt _

lemma stepOk_intsModulusTotal :
    StepOk D (onRationals (divStep .intsModulusTotal)) (symVal I .modTotal) := by
  apply stepOk_int2
  intro x y
  unfold divStep
  by_cases hy : y = 0
  · rw [if_pos (Int.cast_eq_zero.2 hy), hy, Int.emod_zero]
    exact agrees_ofInt x
  · rw [if_neg (Int.cast_ne_zero.2 hy), num_intCast, num_intCast, euclidianDivideRemainder, euclidianQR_eq x hy]
    exact agrees_ofInt _

lemma stepOk_geq : StepOk D (onRationals fun x y => .bool (decide (x ≥ y))) (symVal I .geq) :=
  stepOk_rel (by simp) (by simp)

lemma stepOk_leq : StepOk D (onRationals fun x y => .bool (decide (x ≤ y))) (symVal I .leq) :=
  stepOk_rel (by simp) (by simp)

lemma stepOk_gt : StepOk D (onRationals fun x y => .bool (decide (x > y))) (symVal I .gt) :=
  stepOk_rel (by simp) (by simp)

lemma stepOk_lt : StepOk D (onRationals fun x y => .bool (decide (x < y))) (symVal I .lt) :=
  stepOk_rel (by simp) (by simp)

lemma agrees_evalPow2 (z : Int) : Agrees D (evalPow2 z) (.int (intPow2 z)) := by
  unfold evalPow2 intPow2
  rw [num_intCast]
  by_cases hz : z < 0
  · rw [if_pos (by exact_mod_cast hz), if_pos hz]
    exact agrees_ofInt 0
  rw [if_neg (by exact_mod_cast hz), if_neg hz]
  by_cases hfits : fitsUnsignedInt z = true ∧ toUnsignedInt z ≤ 256
  swap
  · rw [if_neg hfits]
    exact agrees_invalid _
  rw [if_pos hfits]
  have hlt : z < 2 ^ 32 := (of_decide_eq_true hfits.1).2
  obtain ⟨n, rfl⟩ := Int.eq_ofNat_of_zero_le (not_lt.1 hz)
  rw [toUnsignedInt_of_lt (by omega)]
  exact agrees_ofInt _

lemma agrees_evalSubstr (s : CodeString) (i j : Int) :
    Agrees D (evalSubstr s.chars i j) (.str (Words.substr s.chars i j)) := by
  unfold evalSubstr
  by_cases hout : i < 0 ∨ j < 0 ∨ i ≥ s.chars.length
  · rw [if_pos hout, Words.substr, if_neg (by omega)]
    exact agrees_ofString []
  rw [if_neg hout]
  by_cases hlong : i + j > s.chars.length
  · have hin : 0 ≤ i ∧ i < s.chars.length ∧ 0 < j := by omega
    have hpos : s.chars.length - (s.chars.length - i).toNat = i.toNat := by omega
    rw [if_pos hlong, Words.substr, if_pos hin, CodeString.suffix, CodeString.substr,
      toUnsignedInt_position s (by omega) (by omega), hpos,
      List.take_of_length_le (by rw [length_drop]; omega),
      List.take_of_length_le (by rw [length_drop]; omega)]
    exact agrees_ofString _
  rw [if_neg hlong, CodeString.substr, toUnsignedInt_position s (by omega) (by omega),
    toUnsignedInt_position s (by omega) (by omega)]
  by_cases hj : 0 < j
  · rw [Words.substr, if_pos (by omega)]
    exact agrees_ofString _
  have hzero : j.toNat = 0 := by omega
  rw [Words.substr, if_neg (by omega), hzero, List.take_zero]
  exact agrees_ofString []

lemma agrees_evalUpdate (s : CodeString) (i : Int) (t : Str) :
    Agrees D (evalUpdate s.chars i t) (.str (Words.update s.chars i t)) := by
  unfold evalUpdate
  by_cases hout : i < 0 ∨ i ≥ s.chars.length
  · rw [if_pos hout, Words.update, if_neg (by omega)]
    exact agrees_ofString _
  rw [if_neg hout, CodeString.update_eq, toUnsignedInt_position s (by omega) (by omega),
    Int.toNat_of_nonneg (by omega)]
  exact agrees_ofString _

lemma agrees_evalCharat (s : CodeString) (i : Int) :
    Agrees D (evalCharat s.chars i) (.str (Words.substr s.chars i 1)) := by
  unfold evalCharat
  by_cases hout : i < 0 ∨ i ≥ s.chars.length
  · rw [if_pos hout, Words.substr, if_neg (by omega)]
    exact agrees_ofString []
  rw [if_neg hout, CodeString.substr, toUnsignedInt_position s (by omega) (by omega), Words.substr,
    if_pos (by omega)]
  exact agrees_ofString _

lemma evalIndexof_eq (s x : Str) (hi : 0 ≤ i) :
    evalIndexof s x i = ofInt (Words.indexof s x (toUnsignedInt i)) := by
  rw [evalIndexof, if_neg (by omega), ← CodeString.find_indexof]
  cases CodeString.find s x (toUnsignedInt i) <;> rfl

/-- Behind the end of a string there is nothing to find. -/
lemma indexof_of_large (s : CodeString) (x : Str) (hi : 2 ^ 32 ≤ i) :
    Words.indexof s.chars x i = -1 := by
  have hlen := s.size_le
  unfold maxSize at hlen
  rw [Words.indexof, if_neg (by omega)]

/-- The search is right exactly for the starts that may be cut. -/
lemma agrees_evalIndexof_iff (s : CodeString) (x : Str) (i : Int) :
    Agrees D (evalIndexof s.chars x i) (.int (Words.indexof s.chars x i)) ↔
      StartFits s.chars x i := by
  unfold StartFits
  by_cases hneg : i < 0
  · rw [evalIndexof, if_pos hneg, Words.indexof, if_neg (by omega)]
    exact iff_of_true (agrees_ofInt (-1)) (.inl (by omega))
  rw [evalIndexof_eq _ _ (by omega), agrees_int]
  have hof : ∀ z z' : Int, (ofInt z = .invalid ∨ ofInt z = .rational z') ↔ z = z' := by
    intro z z'
    simp [ofInt]
  rw [hof]
  by_cases hfits : i < 2 ^ 32
  · obtain ⟨n, rfl⟩ := Int.eq_ofNat_of_zero_le (not_lt.1 hneg)
    rw [toUnsignedInt_of_lt (by omega)]
    exact iff_of_true rfl (.inl hfits)
  have hlarge : Words.indexof s.chars x i = -1 := indexof_of_large s x (by omega)
  rw [hlarge]
  exact ⟨.inr, fun h => h.resolve_left hfits⟩

lemma agrees_evalReplaceAll (s x y : Str) :
    Agrees D (evalReplaceAll s x y) (.str (Words.replaceAll s x y)) := by
  unfold evalReplaceAll
  by_cases h : s = [] ∨ x = []
  swap
  · rw [if_neg h, CodeString.replaceAllLoop_spec (fun hx => h (.inr hx))]
    exact agrees_ofString _
  have heq : Words.replaceAll s x y = s := by
    unfold Words.replaceAll
    split
    · rfl
    rename_i hx
    rw [h.resolve_right hx]
    rfl
  rw [if_pos h, heq]
  exact agrees_ofString s

lemma agrees_evalPrefix (t s : Str) : Agrees D (evalPrefix t s) (.bool (truth (t <+: s))) := by
  unfold evalPrefix
  by_cases h : s.length < t.length
  · rw [if_pos h]
    exact agrees_ofBool (iff_of_false Bool.false_ne_true fun hp => absurd hp.length_le (by omega))
  rw [if_neg h]
  refine agrees_ofBool ?_
  rw [CodeString.substr, List.drop_zero, beq_iff_eq, List.prefix_iff_eq_take]
  exact eq_comm

lemma agrees_evalSuffix (t s : Str) : Agrees D (evalSuffix t s) (.bool (truth (t <:+ s))) := by
  unfold evalSuffix
  by_cases h : s.length < t.length
  · rw [if_pos h]
    exact agrees_ofBool (iff_of_false Bool.false_ne_true fun hp => absurd hp.length_le (by omega))
  rw [if_neg h]
  refine agrees_ofBool ?_
  rw [CodeString.suffix, CodeString.substr, beq_iff_eq, List.suffix_iff_eq_drop,
    List.take_of_length_le (by rw [length_drop]; omega)]
  exact eq_comm

lemma agrees_evalItos (z : Int) : Agrees D (evalItos z) (.str (strFromInt z)) := by
  unfold evalItos strFromInt
  split <;> exact agrees_ofString _

lemma agrees_evalStoi (s : Str) : Agrees D (evalStoi s) (.int (strToInt s)) := by
  unfold evalStoi strToInt
  by_cases h : s ≠ [] ∧ ∀ c ∈ s, IsDigit c
  · rw [if_pos (CodeString.isNumber_iff.2 h), if_pos h]
    exact agrees_ofInt _
  · rw [if_neg (mt CodeString.isNumber_iff.1 h), if_neg h]
    exact agrees_ofInt _

lemma agrees_evalFromCode (z : Int) : Agrees D (evalFromCode z) (.str (strFromCode z)) := by
  unfold evalFromCode strFromCode
  by_cases h : 0 ≤ z ∧ z < numCodes
  · rw [dif_pos h, dif_pos ⟨h.1, by omega⟩]
    exact agrees_ofString _
  · rw [dif_neg h, dif_neg (by omega)]
    exact agrees_ofString _

lemma agrees_evalToCode : ∀ s : Str, Agrees D (evalToCode s) (.int (strToCode s))
  | [] => agrees_ofInt (-1)
  | [c] => agrees_ofInt c.val
  | _ :: _ :: _ => agrees_ofInt (-1)

lemma agrees_evalRepeat {amount : Nat} (hpos : 0 < amount) {w : Nat} {a : BitVector}
    {x : BitVec w} (ha : a.Denotes x) :
    Agrees D (evalRepeat amount a) (.bitvec (x.replicate amount)) := by
  -- after `n` concatenations the vector stands `n + 1` times
  have hloop : ∀ n b, (List.range n).foldlM (fun ret _ => ret.concat a) a = some b →
      b.Denotes (x.replicate (n + 1)) := by
    intro n
    induction n with
    | zero =>
      intro b hb
      cases hb
      exact ⟨by rw [ha.size_eq, Nat.mul_one], by rw [ha.value_eq]; simp⟩
    | succ n ih =>
      intro b hb
      rw [List.range_succ, List.foldlM_append] at hb
      obtain ⟨c, hc, hcb⟩ := bind_inv hb
      obtain ⟨d, hd, hdb⟩ := bind_inv hcb
      cases hdb
      have hden := (ih c hc).concat ha hd
      rw [BitVec.replicate_succ']
      exact ⟨by rw [hden.size_eq]; ring, by rw [hden.value_eq, BitVec.toNat_cast]⟩
  obtain ⟨n, rfl⟩ : ∃ n, amount = n + 1 := ⟨amount - 1, by omega⟩
  exact agrees_ofBitVector fun b hb => hloop n b hb

lemma agrees_evalSbvToInt {size : Option Nat} {w : Nat} {a : BitVector} {x : BitVec w}
    (hsize : ∀ n, size = some n → n = w) (ha : a.Denotes x) :
    Agrees D (evalSbvToInt size a) (.int x.toInt) := by
  unfold evalSbvToInt
  cases size with
  | none => exact agrees_invalid _
  | some n =>
    rw [hsize n rfl]
    dsimp only
    rw [ha.isBitSet_last, BitVec.toInt_eq_msb_cond, ha.value_eq]
    cases x.msb with
    | true =>
      simp only [if_true]
      push_cast
      exact agrees_ofInt _
    | false =>
      simp only [Bool.false_eq_true, if_false]
      exact agrees_ofInt _

lemma agrees_make (w : Nat) (z : Int) :
    Agrees D (ofBitVector (BitVector.make w z)) (.bitvec (BitVec.ofInt w z)) :=
  agrees_ofBitVector fun _ ha => BitVector.denotes_make ha

lemma agrees_evalSymbolic (z w : Int) :
    Agrees D (evalSymbolic z w) (.bitvec (BitVec.ofInt w.toNat z)) := by
  unfold evalSymbolic
  rw [num_intCast, num_intCast]
  by_cases hfits : fitsUnsignedInt w = true
  swap
  · rw [if_neg hfits]
    exact agrees_invalid _
  have hw := of_decide_eq_true hfits
  obtain ⟨n, rfl⟩ := Int.eq_ofNat_of_zero_le hw.1
  rw [if_pos hfits, toUnsignedInt_of_lt (by omega)]
  exact agrees_make n z

lemma agrees_usort {m : Nat} {x : I.U m} (h : Agrees D r (⟨.usort m, x⟩ : Val I.U)) :
    r = .invalid ∨ ∃ k, r = .uvalue m k ∧ D.elem m k = some x := by
  rcases agrees_cases h with rfl | ⟨_, -, hv⟩ | ⟨_, -, hv⟩ | ⟨_, -, hv⟩ | ⟨_, -, hv⟩ | ⟨_, -, hv⟩ |
    ⟨_, k, _, rfl, hk, hv⟩
  · exact .inl rfl
  · cases hv
  · cases hv
  · cases hv
  · cases hv
  · cases hv
  · cases hv
    exact .inr ⟨k, rfl, hk⟩

lemma stepOk_equal : StepOk D evalEqual (symVal I .eq) := by
  refine ⟨fun {r r' v v' w} hr hr' hw => ?_⟩
  change vEq [v, v'] = some w at hw
  obtain ⟨T, x, y, hvs, rfl⟩ := vEq_inv hw
  cases hvs
  rcases agrees_cases hr with rfl | ⟨b, rfl, hv⟩ | ⟨z, rfl, hv⟩ | ⟨q, rfl, hv⟩ | ⟨a, rfl, hv⟩ |
    ⟨a, rfl, hv⟩ | ⟨m, k, e, rfl, hk, hv⟩
  · exact agrees_invalid _
  · cases hv
    rcases agrees_bool.1 hr' with rfl | rfl
    · exact agrees_invalid _
    exact agrees_ofBool beq_iff_eq
  · cases hv
    rcases agrees_int.1 hr' with rfl | rfl
    · exact agrees_invalid _
    refine agrees_ofBool ?_
    rw [beq_iff_eq]
    exact Int.cast_inj (α := Rat)
  · cases hv
    rcases agrees_real.1 hr' with rfl | ⟨p, rfl, rfl⟩
    · exact agrees_invalid _
    refine agrees_ofBool ?_
    rw [beq_iff_eq]
    exact (Rat.cast_inj (α := ℝ)).symm
  · cases hv
    rcases agrees_bitvec.1 hr' with rfl | ⟨b, rfl, hb⟩
    · exact agrees_invalid _
    refine agrees_ofBool ?_
    rw [decide_eq_true_iff]
    exact BitVector.Denotes.eq_iff ⟨rfl, rfl⟩ hb
  · cases hv
    rcases agrees_str.1 hr' with rfl | ⟨b, rfl, rfl⟩
    · exact agrees_invalid _
    refine agrees_ofBool ?_
    rw [decide_eq_true_iff]
    obtain ⟨l, hl⟩ := a
    obtain ⟨l', hl'⟩ := b
    exact CodeString.mk.injEq _ _ _ _ |>.to_iff
  cases hv
  rcases agrees_usort hr' with rfl | ⟨k', rfl, hk'⟩
  · exact agrees_invalid _
  refine agrees_ofBool ?_
  rw [beq_self_eq_true, Bool.true_and, beq_iff_eq]
  constructor
  · rintro rfl
    exact some.inj (hk.symm.trans hk')
  · rintro rfl
    exact D.elem_inj hk hk'

variable {rs : List EvalResult} {vs : List (Val I.U)} {v : Val I.U} {size : Option Nat}

lemma agrees_evalIte (hrs : Forall₂ (Agrees D) rs vs) (hv : symVal I .ite vs = some v) :
    Agrees D (evalIte rs) v := by
  obtain ⟨c, T, x, y, rfl, rfl⟩ := vIte_inv hv
  obtain ⟨r, r', r'', rfl, hr, hr', hr''⟩ := forall₂_three hrs
  rcases agrees_bool.1 hr with rfl | rfl
  · exact agrees_invalid _
  cases c with
  | true => exact hr'
  | false => exact hr''

lemma agrees_charat (hrs : Forall₂ (Agrees D) rs vs) (hv : symVal I .strAt vs = some v) :
    Agrees D (evalKind .stringCharat size rs) v := by
  change vSeqAt _ vs = some v at hv
  unfold vSeqAt at hv
  split at hv
  swap
  · cases hv
  cases hv
  cases hrs with
  | cons hr hrs =>
    obtain ⟨r', rfl, hr'⟩ := forall₂_one hrs
    rcases agrees_seq hr with rfl | ⟨a, rfl, ha⟩
    · exact agrees_invalid _
    cases ha
    rcases agrees_int.1 hr' with rfl | rfl
    · exact agrees_invalid _
    exact agrees_evalCharat a _

lemma agrees_substr (hrs : Forall₂ (Agrees D) rs vs) (hv : vSubstr vs = some v) :
    Agrees D (evalKind .stringSubstr size rs) v := by
  unfold vSubstr at hv
  split at hv
  swap
  · cases hv
  cases hv
  obtain ⟨r, r', r'', rfl, hr, hr', hr''⟩ := forall₂_three hrs
  rcases agrees_seq hr with rfl | ⟨a, rfl, ha⟩
  · exact agrees_invalid _
  cases ha
  rcases agrees_int.1 hr' with rfl | rfl
  · exact agrees_invalid _
  rcases agrees_int.1 hr'' with rfl | rfl
  · exact agrees_invalid _
  exact agrees_evalSubstr a _ _

lemma agrees_update (hrs : Forall₂ (Agrees D) rs vs) (hv : vUpdate vs = some v) :
    Agrees D (evalKind .stringUpdate size rs) v := by
  unfold vUpdate at hv
  split at hv
  swap
  · cases hv
  rename_i T x n T' y
  split at hv
  swap
  · cases hv
  rename_i hT
  subst hT
  cases hv
  obtain ⟨r, r', r'', rfl, hr, hr', hr''⟩ := forall₂_three hrs
  rcases agrees_seq hr with rfl | ⟨a, rfl, ha⟩
  · exact agrees_invalid _
  cases ha
  rcases agrees_int.1 hr' with rfl | rfl
  · exact agrees_invalid _
  rcases agrees_str.1 hr'' with rfl | ⟨b, rfl, rfl⟩
  · exact agrees_invalid _
  exact agrees_evalUpdate a _ _

/-- The meaning of the operators compares characters classically. -/
lemma indexof_decEq (d d' : DecidableEq CodePoint) (s x : Str) (i : Int) :
    @Words.indexof CodePoint d s x i = @Words.indexof CodePoint d' s x i := by
  rw [Subsingleton.elim d d']

lemma replace_decEq (d d' : DecidableEq CodePoint) (s x y : Str) :
    @Words.replace CodePoint d s x y = @Words.replace CodePoint d' s x y := by
  rw [Subsingleton.elim d d']

lemma replaceAll_decEq (d d' : DecidableEq CodePoint) (s x y : Str) :
    @Words.replaceAll CodePoint d s x y = @Words.replaceAll CodePoint d' s x y := by
  rw [Subsingleton.elim d d']

/-- The arguments of a search. -/
lemma agrees_indexof (hrs : Forall₂ (Agrees D) rs vs) (hv : vIndexof vs = some v)
    (hfits : ∀ (s x : Str) (i : Int), vs = [.str s, .str x, .int i] →
      (∀ r ∈ rs, r ≠ .invalid) → StartFits s x i) :
    Agrees D (evalKind .stringIndexof size rs) v := by
  unfold vIndexof at hv
  split at hv
  swap
  · cases hv
  rename_i T s T' x n
  split at hv
  swap
  · cases hv
  rename_i hT
  subst hT
  cases hv
  obtain ⟨r, r', r'', rfl, hr, hr', hr''⟩ := forall₂_three hrs
  rcases agrees_seq hr with rfl | ⟨a, rfl, ha⟩
  · exact agrees_invalid _
  cases ha
  rcases agrees_str.1 hr' with rfl | ⟨b, rfl, rfl⟩
  · exact agrees_invalid _
  rcases agrees_int.1 hr'' with rfl | rfl
  · exact agrees_invalid _
  have hagree : ∀ z : Int, StartFits a.chars b.chars z →
      Agrees D (evalIndexof a.chars b.chars (z : Rat).num)
        (.int (@Words.indexof CodePoint (fun c d => Classical.propDecidable (c = d))
          a.chars b.chars z)) := by
    intro z hz
    rw [num_intCast, indexof_decEq _ (instDecidableEqFin numCodes)]
    exact (agrees_evalIndexof_iff a b.chars z).2 hz
  exact hagree n (hfits a.chars b.chars n rfl (by simp))

lemma agrees_seqNth (hrs : Forall₂ (Agrees D) rs vs) (hv : nthOp I vs = some v) :
    Agrees D (evalKind .seqNth size rs) v := by
  dsimp only [evalKind]
  split
  swap
  · exact agrees_invalid v
  obtain ⟨w, vs', hr, hrs', rfl⟩ := forall₂_cons_left_iff.1 hrs
  obtain ⟨w', vs'', hr', hnil, rfl⟩ := forall₂_cons_left_iff.1 hrs'
  cases hnil
  rcases agrees_cases hr with h | ⟨_, h, -⟩ | ⟨_, h, -⟩ | ⟨_, h, -⟩ | ⟨_, h, -⟩ | ⟨a, -, rfl⟩ |
    ⟨_, _, _, h, -⟩
  · cases h
  · cases h
  · cases h
  · cases h
  · cases h
  · cases hv
  · cases h

end Cases

/-! ## The switch -/

section Switch

variable {k : Kind} {size : Option Nat} {rs : List EvalResult} {vs : List (Val I.U)} {v : Val I.U}

/-- Every case computes the meaning of its kind, a search from a start that may
be cut. -/
lemma agrees_evalKind
    (hsize : ∀ n w (x : BitVec w) ws, size = some n → vs = .bitvec x :: ws → n = w)
    (hfits : ∀ (s x : Str) (i : Int), k = .stringIndexof → vs = [.str s, .str x, .int i] →
      (∀ r ∈ rs, r ≠ .invalid) → StartFits s x i)
    (hrs : Forall₂ (Agrees D) rs vs) (hv : kindVal I k vs = some v) :
    Agrees D (evalKind k size rs) v := by
  cases k with
  | not =>
    obtain ⟨x, rfl, rfl⟩ := vBool1_inv hv
    obtain ⟨r, rfl, hr⟩ := forall₂_one hrs
    rcases agrees_bool.1 hr with rfl | rfl
    · exact agrees_invalid _
    exact agrees_bool.2 (.inr rfl)
  | and => exact (stepOk_bools _).fold hrs hv
  | or => exact (stepOk_bools _).fold hrs hv
  | implies => exact (stepOk_bools _).two hrs hv
  | xor => exact (stepOk_bools _).fold hrs hv
  | add =>
    exact (stepOk_arith (fun x y => (Int.cast_add x y).symm) (fun p q => Rat.cast_add p q)).fold hrs hv
  | sub =>
    exact (stepOk_arith (fun x y => (Int.cast_sub x y).symm) (fun p q => Rat.cast_sub p q)).two hrs hv
  | neg => exact agrees_arith1 (fun x => (Int.cast_neg x).symm) (fun q => Rat.cast_neg q) hrs hv
  | mult =>
    exact (stepOk_arith (fun x y => (Int.cast_mul x y).symm) (fun p q => Rat.cast_mul p q)).fold hrs hv
  | nonlinearMult =>
    exact (stepOk_arith (fun x y => (Int.cast_mul x y).symm) (fun p q => Rat.cast_mul p q)).fold hrs hv
  | division => exact stepOk_division.fold hrs hv
  | divisionTotal => exact stepOk_divisionTotal.fold hrs hv
  | intsDivision => exact stepOk_intsDivision.fold hrs hv
  | intsDivisionTotal => exact stepOk_intsDivisionTotal.fold hrs hv
  | intsModulus => exact stepOk_intsModulus.fold hrs hv
  | intsModulusTotal => exact stepOk_intsModulusTotal.fold hrs hv
  | geq => exact stepOk_geq.two hrs hv
  | leq => exact stepOk_leq.two hrs hv
  | gt => exact stepOk_gt.two hrs hv
  | lt => exact stepOk_lt.two hrs hv
  | abs => exact agrees_arith1 (fun x => (Int.cast_abs).symm) (fun q => Rat.cast_abs q) hrs hv
  | toReal => exact agrees_toReal hrs hv
  | toInteger =>
    refine agrees_real1 (fun q => ?_) hrs hv
    rw [Rat.floor_cast]
    exact agrees_ofInt _
  | isInteger =>
    refine agrees_real1 (fun q => agrees_ofBool ?_) hrs hv
    rw [beq_iff_eq, Rat.den_eq_one_iff]
    constructor
    · intro h
      exact ⟨q.num, by rw [← h]; simp⟩
    rintro ⟨z, hz⟩
    have hq : q = z := by exact_mod_cast hz
    rw [hq, num_intCast]
  | pow2 => exact agrees_int1 agrees_evalPow2 hrs hv
  | intsIspow2 =>
    refine agrees_int1 (fun z => agrees_ofBool ?_) hrs hv
    rw [num_intCast]
    exact isPow2_iff
  | intsLog2 =>
    refine agrees_int1 (fun z => ?_) hrs hv
    by_cases hz : z < 0
    · rw [if_pos (by exact_mod_cast hz), intLog2, if_pos (by omega)]
      exact agrees_ofInt 0
    · rw [if_neg (by exact_mod_cast hz), num_intCast, length_sub_one (by omega)]
      exact agrees_ofInt _
  | stringConcat => exact stepOk_strConcat.fold hrs hv
  | stringLength => exact agrees_seq1 (fun s => agrees_ofInt _) hrs hv
  | stringSubstr => exact agrees_substr hrs hv
  | seqNth => exact agrees_seqNth hrs hv
  | stringUpdate => exact agrees_update hrs hv
  | stringCharat => exact agrees_charat hrs hv
  | stringContains =>
    have hstep : StepOk D (onStrings fun s t => .bool (CodeString.find s t 0).isSome)
        (vSeqRel fun _ x y => y <:+: x) := stepOk_seqRel fun s t => agrees_ofBool CodeString.find_isSome
    exact hstep.two hrs hv
  | stringIndexof => exact agrees_indexof hrs hv fun s x i => hfits s x i rfl
  | stringReplace =>
    refine agrees_seq3 (f := fun s x y => ofString (CodeString.replace s x y)) (fun s x y => ?_) hrs hv
    rw [CodeString.replace_eq, replace_decEq _ fun c d => Classical.propDecidable (c = d)]
    exact agrees_ofString _
  | stringReplaceAll =>
    refine agrees_seq3 (f := evalReplaceAll) (fun s x y => ?_) hrs hv
    have hagree := agrees_evalReplaceAll (D := D) s x y
    rw [replaceAll_decEq _ fun c d => Classical.propDecidable (c = d)] at hagree
    exact hagree
  | stringPrefix => exact (stepOk_seqRel agrees_evalPrefix).two hrs hv
  | stringSuffix => exact (stepOk_seqRel agrees_evalSuffix).two hrs hv
  | stringItos =>
    refine agrees_int1 (fun z => ?_) hrs hv
    rw [num_intCast]
    exact agrees_evalItos z
  | stringStoi => exact agrees_str1 agrees_evalStoi hrs hv
  | stringFromCode =>
    refine agrees_int1 (fun z => ?_) hrs hv
    rw [num_intCast]
    exact agrees_evalFromCode z
  | stringToCode => exact agrees_str1 agrees_evalToCode hrs hv
  | stringRev => exact agrees_seq1 (fun s => agrees_ofString _) hrs hv
  | stringToLower => exact agrees_str1 (fun s => agrees_ofString _) hrs hv
  | stringToUpper => exact agrees_str1 (fun s => agrees_ofString _) hrs hv
  | stringLeq => exact (stepOk_str2 fun s t => agrees_ofBool CodeString.isLeq_iff).two hrs hv
  | bitvectorNot => exact agrees_bv1 (fun _ ha => agrees_denotes ha.bitNot) hrs hv
  | bitvectorNeg => exact agrees_bv1 (fun _ ha => agrees_denotes ha.neg) hrs hv
  | bitvectorExtract high low =>
    dsimp only [kindVal] at hv
    unfold extractVal at hv
    split at hv
    swap
    · cases hv
    split at hv
    swap
    · cases hv
    rename_i hle
    obtain ⟨m, n, w, x, hvs, rfl⟩ := vExtract_inv hv
    cases hvs
    obtain ⟨r, rfl, hr⟩ := forall₂_one hrs
    rcases agrees_bitvec.1 hr with rfl | ⟨a, rfl, ha⟩
    · exact agrees_invalid _
    have hwidth : ((high : Int) - low + 1).toNat = high - low + 1 := by omega
    rw [hwidth]
    exact agrees_ofBitVector fun b hb => (ha.extract hb).2
  | bitvectorConcat => exact stepOk_concat.fold hrs hv
  | bitvectorAdd => exact (stepOk_bv2 fun ha hb => agrees_denotes (ha.add hb)).fold hrs hv
  | bitvectorMult => exact (stepOk_bv2 fun ha hb => agrees_denotes (ha.mul hb)).fold hrs hv
  | bitvectorAnd => exact (stepOk_bv2 fun ha hb => agrees_denotes (ha.bitAnd hb)).fold hrs hv
  | bitvectorOr => exact (stepOk_bv2 fun ha hb => agrees_denotes (ha.bitOr hb)).fold hrs hv
  | bitvectorXor => exact (stepOk_bv2 fun ha hb => agrees_denotes (ha.bitXor hb)).fold hrs hv
  | bitvectorUdiv =>
    exact (stepOk_bv2 fun ha hb => agrees_denotes (ha.unsignedDivTotal hb)).two hrs hv
  | bitvectorUrem =>
    exact (stepOk_bv2 fun ha hb => agrees_denotes (ha.unsignedRemTotal hb)).two hrs hv
  | bitvectorShl => exact (stepOk_bv2 fun ha hb => agrees_denotes (ha.leftShift hb)).two hrs hv
  | bitvectorAshr => exact (stepOk_bv2 fun ha hb => agrees_denotes (ha.arithRightShift hb)).two hrs hv
  | bitvectorUlt => exact (stepOk_bv2 fun ha hb => agrees_ofTest (ha.unsignedLessThan hb)).two hrs hv
  | bitvectorSlt => exact (stepOk_bv2 fun ha hb => agrees_ofTest (ha.signedLessThan hb)).two hrs hv
  | bitvectorSle => exact (stepOk_bv2 fun ha hb => agrees_ofTest (ha.signedLessThanEq hb)).two hrs hv
  | bitvectorUle => exact (stepOk_bv2 fun ha hb => agrees_ofTest (ha.unsignedLessThanEq hb)).two hrs hv
  | bitvectorUgt => exact (stepOk_bv2 fun ha hb => agrees_ofTest (hb.unsignedLessThan ha)).two hrs hv
  | bitvectorSgt => exact (stepOk_bv2 fun ha hb => agrees_ofTest (hb.signedLessThan ha)).two hrs hv
  | bitvectorSge => exact (stepOk_bv2 fun ha hb => agrees_ofTest (hb.signedLessThanEq ha)).two hrs hv
  | bitvectorUge => exact (stepOk_bv2 fun ha hb => agrees_ofTest (hb.unsignedLessThanEq ha)).two hrs hv
  | bitvectorRepeat amount =>
    dsimp only [kindVal] at hv
    split at hv
    · rename_i hpos
      exact agrees_bvIdx (g := fun i _ x => .bitvec (x.replicate i))
        (fun ha => agrees_evalRepeat hpos ha) hrs hv
    · cases hv
  | bitvectorSignExtend amount =>
    exact agrees_bvIdx (g := fun i w x => .bitvec (x.signExtend (w + i)))
      (fun ha => agrees_ofBitVector fun _ hb => ha.signExtend hb) hrs hv
  | bitvectorZeroExtend amount =>
    exact agrees_bvIdx (g := fun i w x => .bitvec (x.setWidth (w + i)))
      (fun ha => agrees_ofBitVector fun _ hb => ha.zeroExtend hb) hrs hv
  | equal => exact stepOk_equal.two hrs hv
  | ite => exact agrees_evalIte hrs hv
  | bitvectorUbvToInt =>
    refine agrees_bv1 (fun _ ha => ?_) hrs hv
    rw [ha.value_eq]
    exact agrees_ofInt _
  | bitvectorSbvToInt =>
    exact agrees_bv1 (fun hvs ha => agrees_evalSbvToInt (fun n hn => hsize n _ _ [] hn hvs) ha) hrs hv
  | intToBitvector w =>
    dsimp only [kindVal] at hv
    unfold indexVal at hv
    split at hv
    swap
    · cases hv
    obtain ⟨m, z, hvs, rfl⟩ := vInt2_inv hv
    cases hvs
    obtain ⟨r, rfl, hr⟩ := forall₂_one hrs
    rcases agrees_int.1 hr with rfl | rfl
    · exact agrees_invalid _
    have hmake := agrees_make (D := D) w z
    rw [← num_intCast z] at hmake
    exact hmake
  | constBitvectorSymbolic => exact (stepOk_int2 agrees_evalSymbolic).two hrs hv
  | bitvectorSize =>
    obtain ⟨w, x, rfl, rfl⟩ := vBv1_inv hv
    cases size with
    | none => exact agrees_invalid _
    | some n =>
      rw [hsize n w x [] rfl rfl]
      exact agrees_ofInt _
  | other f => exact agrees_invalid _

end Switch

/-! ## Sizes -/

section Sizes

/-- A size that the type of a child gives is the size of its value. -/
def SizeOf (o : Option Nat) (v : Val I.U) : Prop := ∀ w, o = some w → v.1 = .bitvec w

lemma bitvecSize_eq_some {T : Ty} {w : Nat} : bitvecSize T = some w ↔ T = .bitvec w := by
  cases T <;> simp [bitvecSize]

lemma constVal_type {c : Const} {v : Val I.U} (h : constVal D c = some v) : v.1 = c.typeOf Γ := by
  cases c with
  | uninterpretedSortValue m k =>
    obtain ⟨x, -, rfl⟩ := map_inv h
    rfl
  | boolean b => rw [← some.inj h]; rfl
  | integer z => rw [← some.inj h]; rfl
  | rational q => rw [← some.inj h]; rfl
  | bitvector b => rw [← some.inj h]; rfl
  | string b => rw [← some.inj h]; rfl
  | other n => rw [← some.inj h]; rfl

variable {sizes : List (Option Nat)} {vs : List (Val I.U)} {v : Val I.U} {w : Nat}
  {op : List (Val I.U) → Option (Val I.U)}

lemma size_head {u : Val I.U} (hsizes : Forall₂ SizeOf sizes (u :: vs))
    (hw : commonSize sizes = some w) : u.1 = .bitvec w := by
  cases hsizes with
  | @cons o _ os _ ho hos =>
    apply ho
    cases os with
    | nil => exact hw
    | cons o' os =>
      rw [commonSize] at hw
      · split at hw
        · exact hw
        · cases hw
      · exact List.cons_ne_nil _ _

lemma foldVal_type (hop : ∀ a b c, op [a, b] = some c → c.1 = a.1) {u : Val I.U}
    (hv : foldVal op (u :: vs) = some v) : v.1 = u.1 := by
  change vs.foldlM (fun a b => op [a, b]) u = some v at hv
  induction vs generalizing u with
  | nil => rw [← some.inj hv]
  | cons u' vs ih =>
    rw [foldlM_cons] at hv
    obtain ⟨w', hw', hrest⟩ := bind_inv hv
    rw [ih hrest]
    exact hop _ _ _ hw'

variable {f : ∀ n, BitVec n → BitVec n → BitVec n}

lemma size_fold (hsizes : Forall₂ SizeOf sizes vs) (hw : commonSize sizes = some w)
    (hv : foldVal (vBv2 fun n x y => .bitvec (f n x y)) vs = some v) : v.1 = .bitvec w := by
  cases vs with
  | nil => cases hv
  | cons u vs =>
    rw [foldVal_type ?_ hv, size_head hsizes hw]
    intro a b c hc
    obtain ⟨n, x, y, hvs, rfl⟩ := vBv2_inv hc
    cases hvs
    rfl

lemma size_bv2 (hsizes : Forall₂ SizeOf sizes vs) (hw : commonSize sizes = some w)
    (hv : vBv2 (fun n x y => .bitvec (f n x y)) vs = some v) : v.1 = .bitvec w := by
  obtain ⟨n, x, y, rfl, rfl⟩ := vBv2_inv hv
  exact size_head (u := .bitvec x) hsizes hw

lemma size_bv1 {f : ∀ n, BitVec n → BitVec n} (hsizes : Forall₂ SizeOf sizes vs)
    (hw : commonSize sizes = some w) (hv : vBv1 (fun n x => .bitvec (f n x)) vs = some v) :
    v.1 = .bitvec w := by
  obtain ⟨n, x, rfl, rfl⟩ := vBv1_inv hv
  exact size_head (u := .bitvec x) hsizes hw

lemma size_concat (hsizes : Forall₂ SizeOf sizes vs) (hw : sumSize sizes = some w)
    (hv : foldVal (symVal I .concat) vs = some v) : v.1 = .bitvec w := by
  -- the sum so far, in front of the sizes that are left
  have hloop : ∀ (os : List (Option Nat)) (us : List (Val I.U)), Forall₂ SizeOf os us →
      ∀ (u : Val I.U) (n m : Nat), u.1 = .bitvec n → sumSize os = some m →
        us.foldlM (fun a b => symVal I .concat [a, b]) u = some v → v.1 = .bitvec (n + m) := by
    intro os us h
    induction h with
    | nil =>
      intro u n m hu hm hv
      cases hm
      rw [← some.inj hv, hu]
      rfl
    | @cons o u' os us ho _ ih =>
      intro u n m hu hm hv
      obtain ⟨k, hk, hm⟩ := bind_inv hm
      obtain ⟨l, hl, rfl⟩ := map_inv hm
      rw [foldlM_cons] at hv
      obtain ⟨c, hc, hrest⟩ := bind_inv hv
      obtain ⟨a, b, x, y, hvs, rfl⟩ := vConcat_inv hc
      cases hvs
      have ha : a = n := Ty.bitvec.inj hu
      have hb : b = k := Ty.bitvec.inj (ho k hk)
      have hc : (Val.bitvec (x ++ y) : Val I.U).1 = .bitvec (n + k) :=
        congrArg Ty.bitvec (by rw [ha, hb])
      rw [ih _ _ _ hc hl hrest, Nat.add_assoc]
  cases hsizes with
  | nil => cases hv
  | @cons o u os us ho hos =>
    obtain ⟨n, hn, hw⟩ := bind_inv hw
    obtain ⟨m, hm, rfl⟩ := map_inv hw
    exact hloop os us hos u n m (ho n hn) hm hv

lemma size_index {g : Nat → ∀ n, BitVec n → Val I.U} {i : Nat} {f : Nat → Nat}
    (hg : ∀ n x, (g i n x).1 = .bitvec (f n))
    (hw : (match sizes with
      | [o] => o.map f
      | _ => none) = some w)
    (hsizes : Forall₂ SizeOf sizes vs) (hv : indexVal (vBvIdx g) i vs = some v) : v.1 = .bitvec w := by
  unfold indexVal at hv
  split at hv
  swap
  · cases hv
  obtain ⟨z, n, x, hvs, rfl⟩ := vBvIdx_inv hv
  cases hvs
  cases hsizes with
  | @cons o _ os _ ho hos =>
    cases hos
    obtain ⟨m, hm, rfl⟩ := map_inv hw
    have hn : n = m := Ty.bitvec.inj (ho m hm)
    rw [← hn]
    exact hg n x

lemma kindSize_spec {k : Kind} {cs : List Node} (hlen : cs.length = vs.length)
    (hsizes : Forall₂ SizeOf sizes vs)
    (hconst : ∀ c z, cs = [c, .const (.integer z)] → ∃ u, vs = [u, .int z])
    (hv : kindVal I k vs = some v) (hw : kindSize Γ k cs sizes = some w) : v.1 = .bitvec w := by
  cases k with
  | bitvectorNot => exact size_bv1 (f := fun _ x => ~~~x) hsizes hw hv
  | bitvectorNeg => exact size_bv1 (f := fun _ x => -x) hsizes hw hv
  | bitvectorAdd => exact size_fold (f := fun _ x y => x + y) hsizes hw hv
  | bitvectorMult => exact size_fold (f := fun _ x y => x * y) hsizes hw hv
  | bitvectorAnd => exact size_fold (f := fun _ x y => x &&& y) hsizes hw hv
  | bitvectorOr => exact size_fold (f := fun _ x y => x ||| y) hsizes hw hv
  | bitvectorXor => exact size_fold (f := fun _ x y => x ^^^ y) hsizes hw hv
  | bitvectorUdiv => exact size_bv2 (f := fun _ x y => x.smtUDiv y) hsizes hw hv
  | bitvectorUrem => exact size_bv2 (f := fun _ x y => x.umod y) hsizes hw hv
  | bitvectorShl => exact size_bv2 (f := fun _ x y => x <<< y) hsizes hw hv
  | bitvectorAshr => exact size_bv2 (f := fun _ x y => x.sshiftRight' y) hsizes hw hv
  | bitvectorConcat => exact size_concat hsizes hw hv
  | bitvectorExtract high low =>
    dsimp only [kindVal] at hv
    unfold extractVal at hv
    dsimp only [kindSize] at hw
    split at hv
    swap
    · cases hv
    split at hv
    swap
    · cases hv
    rename_i hle
    rw [if_neg (by omega)] at hw
    obtain ⟨m, n, u, x, hvs, rfl⟩ := vExtract_inv hv
    cases hvs
    have hwidth : ((high : Int) - low + 1).toNat = w := by
      have := some.inj hw
      omega
    exact congrArg Ty.bitvec hwidth
  | bitvectorRepeat amount =>
    dsimp only [kindVal] at hv
    split at hv
    · exact size_index (g := fun i _ x => .bitvec (x.replicate i))
        (fun n x => congrArg Ty.bitvec (Nat.mul_comm n amount)) hw hsizes hv
    · cases hv
  | bitvectorSignExtend amount =>
    exact size_index (g := fun i u x => .bitvec (x.signExtend (u + i)))
      (fun n x => congrArg Ty.bitvec (Nat.add_comm n amount)) hw hsizes hv
  | bitvectorZeroExtend amount =>
    exact size_index (g := fun i u x => .bitvec (x.setWidth (u + i)))
      (fun n x => congrArg Ty.bitvec (Nat.add_comm n amount)) hw hsizes hv
  | ite =>
    obtain ⟨c, T, x, y, rfl, rfl⟩ := vIte_inv hv
    cases hsizes with
    | cons _ hsizes =>
      have hT : T = .bitvec w := size_head (u := ⟨T, x⟩) hsizes hw
      cases c <;> exact hT
  | intToBitvector size =>
    dsimp only [kindVal] at hv
    unfold indexVal at hv
    split at hv
    · obtain ⟨m, z, hvs, rfl⟩ := vInt2_inv hv
      cases hvs
      cases hw
      rfl
    · cases hv
  | constBitvectorSymbolic =>
    obtain ⟨z, n, rfl, rfl⟩ := vInt2_inv hv
    dsimp only [kindSize] at hw
    split at hw
    swap
    · cases hw
    rename_i c m
    split at hw
    swap
    · cases hw
    rename_i hfits
    obtain ⟨u, hu⟩ := hconst c m rfl
    have hn : n = m := Val.int_inj.1 (List.cons.inj (List.cons.inj hu).2).1
    have hm := of_decide_eq_true hfits.2
    obtain ⟨l, rfl⟩ := Int.eq_ofNat_of_zero_le hm.1
    rw [toUnsignedInt_of_lt (by omega)] at hw
    cases hw
    rw [hn]
    rfl
  | other f =>
    have htype := Entail.vApply_resultTy hv
    dsimp only [kindSize] at hw
    rw [hlen, htype] at hw
    exact bitvecSize_eq_some.1 hw
  | _ => cases hw

end Sizes

/-! ## Nodes -/

section Nodes

variable {σ : Subst Γ}

variable {cs : List Node}

lemma values_substList {vs : List (Val I.U)} (h : values D (substList σ.pairs cs) = some vs) :
    Forall₂ (fun c v => value D (c.subst σ.pairs) = some v) cs vs := by
  induction cs generalizing vs with
  | nil =>
    rw [substList, values] at h
    cases h
    exact .nil
  | cons c cs ih =>
    rw [substList, values] at h
    obtain ⟨v, hv, h⟩ := bind_inv h
    obtain ⟨vs', hvs, rfl⟩ := map_inv h
    exact .cons hv (ih hvs)

variable {v : Val I.U}

lemma value_app_inv {k : Kind} (h : value D ((Node.app k cs).subst σ.pairs) = some v) :
    ∃ vs, Forall₂ (fun c v => value D (c.subst σ.pairs) = some v) cs vs ∧
      kindVal I k vs = some v := by
  rw [Node.subst, value] at h
  obtain ⟨vs, hvs, hk⟩ := bind_inv h
  exact ⟨vs, values_substList hvs, hk⟩

lemma value_var_inv {n : Nat} (h : value D ((Node.var n).subst σ.pairs) = some v) :
    (∃ c, σ.pairs.lookup n = some c ∧ c.typeOf Γ = Γ n ∧ constVal D c = some v) ∨
    (σ.pairs.lookup n = none ∧ v = ⟨Γ n, I.const n⟩) := by
  rw [Node.subst] at h
  cases hl : σ.pairs.lookup n with
  | none =>
    rw [hl] at h
    exact .inr ⟨rfl, (some.inj h).symm⟩
  | some c =>
    rw [hl] at h
    obtain ⟨l1, l2, heq, _⟩ := List.lookup_eq_some_iff.1 hl
    have hmem : (n, c) ∈ σ.pairs := by
      rw [heq]
      simp
    exact .inl ⟨c, rfl, σ.typed (n, c) hmem, h⟩

lemma typeSize_spec (n : Node) (hv : value D (n.subst σ.pairs) = some v) :
    SizeOf (typeSize Γ n) v := by
  induction n generalizing v with
  | const c =>
    intro w hw
    rw [typeSize] at hw
    rw [Node.subst] at hv
    rw [constVal_type hv]
    exact bitvecSize_eq_some.1 hw
  | var n =>
    intro w hw
    rw [typeSize] at hw
    rcases value_var_inv hv with ⟨c, -, htype, hc⟩ | ⟨-, rfl⟩
    · rw [constVal_type hc, htype]
      exact bitvecSize_eq_some.1 hw
    · exact bitvecSize_eq_some.1 hw
  | app k cs ih =>
    intro w hw
    obtain ⟨vs, hvs, hk⟩ := value_app_inv hv
    have hsizes : Forall₂ SizeOf (typeSizes Γ cs) vs := by
      clear hw hv hk
      induction hvs with
      | nil =>
        rw [typeSizes]
        exact .nil
      | cons hc _ ihs =>
        rw [typeSizes]
        exact .cons (ih _ (.head _) hc) (ihs fun c hc => ih c (.tail _ hc))
    refine kindSize_spec hvs.length_eq hsizes ?_ hk hw
    rintro c z rfl
    obtain ⟨u, us, -, hus, rfl⟩ := forall₂_cons_left_iff.1 hvs
    obtain ⟨u', us', hz, hnil, rfl⟩ := forall₂_cons_left_iff.1 hus
    cases hnil
    rw [Node.subst] at hz
    cases hz
    exact ⟨u, rfl⟩

lemma head_size {vs ws : List (Val I.U)} {n w : Nat} {x : BitVec w}
    (hvs : Forall₂ (fun c v => value D (c.subst σ.pairs) = some v) cs vs)
    (hn : (typeSizes Γ cs).head?.join = some n) (heq : vs = .bitvec x :: ws) : n = w := by
  subst heq
  cases hvs with
  | @cons c _ cs _ hc _ =>
    rw [typeSizes, List.head?_cons] at hn
    exact (Ty.bitvec.inj (typeSize_spec c hc n hn)).symm

/-- The starts of the searches below a node, as far as they are evaluated. -/
def StartsFit (σ : Subst Γ) (n : Node) : Prop :=
  ∀ s x i, (Node.app .stringIndexof [s, x, i]).IsSubterm n →
    (∀ c ∈ [s, x, i], evalInternal Γ σ.pairs c ≠ .invalid) →
    ∀ (I : Interp Γ) (D : SortValues I) (u t : Str) (z : Int),
      value D (s.subst σ.pairs) = some (.str u) → value D (x.subst σ.pairs) = some (.str t) →
      value D (i.subst σ.pairs) = some (.int z) → StartFits u t z

lemma StartsFit.child {k : Kind} (h : StartsFit σ (.app k cs)) {c : Node}
    (hc : c ∈ cs) : StartsFit σ c :=
  fun s x i hsub => h s x i (.child hc hsub)

lemma evalChildren_eq (cs : List Node) :
    evalChildren Γ σ.pairs cs = cs.map (evalInternal Γ σ.pairs) := by
  induction cs with
  | nil => rw [evalChildren, List.map_nil]
  | cons c cs ih => rw [evalChildren, List.map_cons, ih]

/-- The evaluator is right on a node when all searches below it start where
they may. -/
lemma sound_of_startsFit (n : Node) (h : StartsFit σ n) : Sound σ n := by
  intro I D v hv
  induction n generalizing v with
  | const c =>
    rw [evalInternal]
    exact agrees_const hv
  | var n =>
    rw [evalInternal]
    rcases value_var_inv hv with ⟨c, hl, -, hc⟩ | ⟨hl, -⟩
    · rw [hl]
      exact agrees_const hc
    · rw [hl]
      exact agrees_invalid v
  | app k cs ih =>
    obtain ⟨vs, hvs, hk⟩ := value_app_inv hv
    rw [evalInternal]
    split
    · exact agrees_invalid v
    have hrs : Forall₂ (Agrees D) (evalChildren Γ σ.pairs cs) vs := by
      rw [evalChildren_eq, List.forall₂_map_left_iff]
      exact List.forall₂_iff_get.2 ⟨hvs.length_eq, fun j hj hj' =>
        ih _ (get_mem cs ⟨j, hj⟩) (h.child (get_mem cs ⟨j, hj⟩)) _
          ((List.forall₂_iff_get.1 hvs).2 j hj hj')⟩
    refine agrees_evalKind (fun n w x ws hn heq => head_size hvs hn heq) ?_ hrs hk
    rintro u t z rfl rfl hvalid
    obtain ⟨s, cs₁, hs, hvs₁, rfl⟩ := List.forall₂_cons_right_iff.1 hvs
    obtain ⟨x, cs₂, hx, hvs₂, rfl⟩ := List.forall₂_cons_right_iff.1 hvs₁
    obtain ⟨i, cs₃, hi, hnil, rfl⟩ := List.forall₂_cons_right_iff.1 hvs₂
    cases hnil
    refine h s x i .refl (fun c hc => ?_) I D u t z hs hx hi
    rw [evalChildren_eq] at hvalid
    exact hvalid _ (List.mem_map_of_mem hc)

lemma Node.IsSubterm.trans {a b c : Node} (hab : a.IsSubterm b) (hbc : b.IsSubterm c) :
    a.IsSubterm c := by
  induction hbc with
  | refl => exact hab
  | child hc _ ih => exact .child hc ih

lemma Agrees.string_of_valid {s : Str} (h : Agrees D r (.str s)) (hr : r ≠ .invalid) :
    ∃ a : CodeString, r = .string a ∧ a.chars = s := (agrees_str.1 h).resolve_left hr

/-- `(str.indexof "a" "a" 4294967296)`. -/
def farStart : Node :=
  .app .stringIndexof [.const (.string ⟨[97], by decide⟩), .const (.string ⟨[97], by decide⟩),
      .const (.integer 4294967296)]

end Nodes

end EthosCpc.Cvc5.Evaluator
