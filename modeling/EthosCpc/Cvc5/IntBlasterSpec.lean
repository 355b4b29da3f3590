import EthosCpc.Cvc5.IntBlaster
import EthosCpc.Library.BitBlocks
import Mathlib.Tactic.Linarith
import EthosCpc.Library.Inversion

/-!
# Bit-vector models and integer models of translated formulas

The value of a translated term is that of the term, with `Value.unsigned` of bit-vectors: the
integers that they denote as unsigned numbers.  This holds of two models that read each
other (`ReadsBack`), where the second one satisfies the lemmas of the translation; every
operator has its own lemma.  A bit-vector model is turned into an integer model by
`Model.unsigned`, an integer model into a bit-vector model by `Model.readBack`.
-/

namespace EthosCpc.Cvc5.IntBlaster

open Nat (cast_sub mod_eq_of_lt mod_one)
open Bool (and_eq_true false_ne_true)
open Node Library
open Option (bind_some map_some)
open List (foldlM_cons forall_mem_cons map_cons map_map mem_cons mem_map mem_range zipWith)
open Int (emod_eq_of_lt natCast_nonneg)
open BitVec (cast_eq ofInt toNat_and toNat_inj toNat_or ule ult)

variable {ops : Ops} {opts : Options} {rewrite : Node → Node} {ρ ρ' : Model}
variable {c c' n n' x y : Node} {cs cs' lemmas : List Node} {v v' : Value} {vs vs' : List Value}
variable {k : Kind} {t tn : TypeNode} {ts : List TypeNode} {a b : Int}

/-! ## Evaluation and types -/

def Evaluates (ops : Ops) (ρ : Model) (n : Node) (v : Value) : Prop :=
  n.value ops ρ = some v ∧ n.getType ops = some v.type

def EvaluateTo (ops : Ops) (ρ : Model) (cs : List Node) (vs : List Value) : Prop :=
  values ops ρ cs = some vs ∧ getTypes ops cs = some (vs.map Value.type)

lemma evaluateTo_nil : EvaluateTo ops ρ [] [] := ⟨rfl, rfl⟩

lemma EvaluateTo.cons (h : Evaluates ops ρ c v) (hs : EvaluateTo ops ρ cs vs) :
    EvaluateTo ops ρ (c :: cs) (v :: vs) := by
  constructor
  · rw [values, h.1, hs.1, bind_some, map_some]
  · rw [getTypes, h.2, hs.2, bind_some, map_some, map_cons]

lemma evaluateTo_cons_inv (h : EvaluateTo ops ρ (c :: cs) (v :: vs)) :
    Evaluates ops ρ c v ∧ EvaluateTo ops ρ cs vs := by
  obtain ⟨h1, h2⟩ := h
  obtain ⟨v1, hv, h1⟩ := bind_inv h1
  obtain ⟨vs1, hvs, heq⟩ := map_inv h1
  obtain ⟨t1, ht, h2⟩ := bind_inv h2
  obtain ⟨ts1, hts, heq'⟩ := map_inv h2
  cases heq
  cases heq'
  exact ⟨⟨hv, ht⟩, hvs, hts⟩

lemma EvaluateTo.length (h : EvaluateTo ops ρ cs vs) : cs.length = vs.length := by
  induction cs generalizing vs with
  | nil =>
    cases h.1
    rfl
  | cons c cs ih =>
    cases vs with
    | nil =>
      obtain ⟨v, _, h'⟩ := bind_inv h.1
      obtain ⟨vs, _, heq⟩ := map_inv h'
      cases heq
    | cons v vs => rw [List.length_cons, List.length_cons, ih (evaluateTo_cons_inv h).2]

lemma EvaluateTo.app (hs : EvaluateTo ops ρ cs vs) (hv : valueOfKind ops ρ k vs = some v)
    (ht : typeOfKind ops k (vs.map Value.type) = some v.type) : Evaluates ops ρ (.app k cs) v := by
  constructor
  · rw [value, hs.1, bind_some, hv]
  · rw [getType, hs.2, bind_some, ht]

lemma EvaluateTo.one (h : EvaluateTo ops ρ cs [v]) : ∃ c, cs = [c] ∧ Evaluates ops ρ c v := by
  match cs, h.length with
  | [c], _ => exact ⟨c, rfl, (evaluateTo_cons_inv h).1⟩

lemma EvaluateTo.two (h : EvaluateTo ops ρ cs [v, v']) :
    ∃ c c', cs = [c, c'] ∧ Evaluates ops ρ c v ∧ Evaluates ops ρ c' v' := by
  match cs, h.length with
  | [c, c'], _ =>
    obtain ⟨hc, hs⟩ := evaluateTo_cons_inv h
    exact ⟨c, c', rfl, hc, (evaluateTo_cons_inv hs).1⟩

lemma Evaluates.app₁ (h : Evaluates ops ρ x v') (hv : valueOfKind ops ρ k [v'] = some v)
    (ht : typeOfKind ops k [v'.type] = some v.type) : Evaluates ops ρ (.app k [x]) v :=
  (evaluateTo_nil.cons h).app hv ht

lemma Evaluates.app₂ {v1 v2 : Value} (hx : Evaluates ops ρ x v1) (hy : Evaluates ops ρ y v2)
    (hv : valueOfKind ops ρ k [v1, v2] = some v)
    (ht : typeOfKind ops k [v1.type, v2.type] = some v.type) : Evaluates ops ρ (.app k [x, y]) v :=
  ((evaluateTo_nil.cons hy).cons hx).app hv ht

/-! ## Integer terms -/

lemma Evaluates.congr (h : Evaluates ops ρ n (.int a)) (hab : a = b) :
    Evaluates ops ρ n (.int b) := hab ▸ h

lemma evaluates_constInt (z : Int) : Evaluates ops ρ (.constInt z) (.int z) := ⟨rfl, rfl⟩

lemma evaluates_pow2Node (m : Nat) : Evaluates ops ρ (pow2Node m) (.int (2 ^ m)) := ⟨rfl, rfl⟩

lemma evaluates_maxInt (m : Nat) : Evaluates ops ρ (maxInt m) (.int (2 ^ m - 1)) := ⟨rfl, rfl⟩

section

variable (hx : Evaluates ops ρ x (.int a)) (hy : Evaluates ops ρ y (.int b))

include hx hy

lemma evaluates_add : Evaluates ops ρ (.app .add [x, y]) (.int (a + b)) :=
  hx.app₂ hy (congrArg (some ∘ Value.int) (by simp : [a, b].sum = a + b)) rfl

lemma evaluates_mult : Evaluates ops ρ (.app .mult [x, y]) (.int (a * b)) :=
  hx.app₂ hy (congrArg (some ∘ Value.int) (by simp : [a, b].prod = a * b)) rfl

lemma evaluates_sub : Evaluates ops ρ (.app .sub [x, y]) (.int (a - b)) := hx.app₂ hy rfl rfl

lemma evaluates_div : Evaluates ops ρ (.app .intsDivisionTotal [x, y]) (.int (a / b)) :=
  hx.app₂ hy rfl rfl

lemma evaluates_mod : Evaluates ops ρ (.app .intsModulusTotal [x, y]) (.int (a % b)) :=
  hx.app₂ hy rfl rfl

lemma evaluates_iand (size : Nat) :
    Evaluates ops ρ (.app (.iand size) [x, y]) (.int (iandValue size a b)) := hx.app₂ hy rfl rfl

lemma evaluates_lt : Evaluates ops ρ (.app .lt [x, y]) (.bool (decide (a < b))) :=
  hx.app₂ hy rfl rfl

lemma evaluates_leq : Evaluates ops ρ (.app .leq [x, y]) (.bool (decide (a ≤ b))) :=
  hx.app₂ hy rfl rfl

lemma evaluates_gt : Evaluates ops ρ (.app .gt [x, y]) (.bool (decide (a > b))) :=
  hx.app₂ hy rfl rfl

lemma evaluates_geq : Evaluates ops ρ (.app .geq [x, y]) (.bool (decide (a ≥ b))) :=
  hx.app₂ hy rfl rfl

lemma evaluates_equal : Evaluates ops ρ (.app .equal [x, y]) (.bool (decide (a = b))) :=
  hx.app₂ hy (congrArg (some ∘ Value.bool) (by simp)) rfl

lemma evaluates_ite {p : Bool} (hc : Evaluates ops ρ c (.bool p)) :
    Evaluates ops ρ (.app .ite [c, x, y]) (.int (if p then a else b)) := by
  apply (((evaluateTo_nil.cons hy).cons hx).cons hc).app ?_ rfl
  cases p <;> rfl

end

lemma evaluates_neg (hx : Evaluates ops ρ x (.int a)) :
    Evaluates ops ρ (.app .neg [x]) (.int (-a)) := hx.app₁ rfl rfl

lemma evaluates_pow2 {m : Nat} (hx : Evaluates ops ρ x (.int m)) :
    Evaluates ops ρ (.app .pow2 [x]) (.int (2 ^ m)) :=
  hx.app₁ (congrArg (some ∘ Value.int) (by simp)) rfl

lemma evaluates_twoToK (m : Nat) : Evaluates ops ρ (twoToK m) (.int (2 ^ m)) :=
  (evaluates_constInt 2).app₂ (evaluates_constInt m) (congrArg (some ∘ Value.int) (by simp)) rfl

lemma evaluates_and {p q : Bool} (hx : Evaluates ops ρ x (.bool p))
    (hy : Evaluates ops ρ y (.bool q)) : Evaluates ops ρ (.app .and [x, y]) (.bool (p && q)) :=
  hx.app₂ hy (congrArg (some ∘ Value.bool) (by simp)) rfl

lemma evaluates_or {p q : Bool} (hx : Evaluates ops ρ x (.bool p))
    (hy : Evaluates ops ρ y (.bool q)) : Evaluates ops ρ (.app .or [x, y]) (.bool (p || q)) :=
  hx.app₂ hy (congrArg (some ∘ Value.bool) (by simp)) rfl

/-! ## Bit-vectors as unsigned numbers -/

section

variable {w : Nat} (X Y : BitVec w)

lemma toNat_lt_int : (X.toNat : Int) < 2 ^ w := by exact_mod_cast X.isLt

lemma two_pow_double (hw : 0 < w) : (2 : Nat) ^ w = 2 * 2 ^ (w - 1) := by
  obtain ⟨m, rfl⟩ := Nat.exists_eq_succ_of_ne_zero hw.ne'
  rw [Nat.succ_sub_one, Nat.pow_succ, Nat.mul_comm]

lemma toNat_add_int : ((X + Y).toNat : Int) = (X.toNat + Y.toNat) % 2 ^ w := by
  rw [BitVec.toNat_add]
  push_cast
  rfl

lemma toNat_mul_int : ((X * Y).toNat : Int) = X.toNat * Y.toNat % 2 ^ w := by
  rw [BitVec.toNat_mul]
  push_cast
  rfl

lemma toNat_not_int : ((~~~X).toNat : Int) = 2 ^ w - 1 - X.toNat := by
  have hlt := X.isLt
  rw [BitVec.toNat_not, cast_sub (by omega), cast_sub (by omega)]
  push_cast
  rfl

lemma toNat_neg_int : ((-X).toNat : Int) = (2 ^ w - 1 - X.toNat + 1) % 2 ^ w := by
  have hlt := X.isLt
  rw [BitVec.toNat_neg, Int.natCast_mod, cast_sub (by omega)]
  push_cast
  congr 1
  ring

lemma toNat_smtUDiv_int : ((X.smtUDiv Y).toNat : Int) =
    if (Y.toNat : Int) = 0 then 2 ^ w - 1 else (X.toNat / Y.toNat : Int) := by
  have hpos : 1 ≤ 2 ^ w := Nat.two_pow_pos w
  rw [BitVec.smtUDiv_eq]
  by_cases hY : Y = 0#w
  · subst hY
    rw [if_pos rfl, if_pos (by simp), BitVec.toNat_allOnes, cast_sub hpos]
    push_cast
    rfl
  have hne : (Y.toNat : Int) ≠ 0 := fun h => hY (BitVec.eq_of_toNat_eq (by simpa using h))
  rw [if_neg hY, if_neg hne, BitVec.toNat_udiv]
  push_cast
  rfl

lemma toNat_umod_int : ((X % Y).toNat : Int) =
    if (Y.toNat : Int) = 0 then (X.toNat : Int) else (X.toNat % Y.toNat : Int) := by
  rw [BitVec.toNat_umod]
  split
  · rename_i hY
    rw [Int.natCast_mod, hY, Int.emod_zero]
  · exact Int.natCast_mod _ _

lemma toNat_or_int : ((X ||| Y).toNat : Int) =
    ((X.toNat + Y.toNat : Int) % 2 ^ w - (X &&& Y).toNat) % 2 ^ w := by
  have hsum : ((X ||| Y).toNat : Int) + (X &&& Y).toNat = X.toNat + Y.toNat := by
    rw [toNat_or, toNat_and]
    exact_mod_cast or_add_and X.toNat Y.toNat
  rw [Int.emod_sub_emod, ← hsum, add_sub_cancel_right]
  exact (emod_eq_of_lt (natCast_nonneg _) (toNat_lt_int _)).symm

lemma toNat_xor_int : ((X ^^^ Y).toNat : Int) =
    (((X ||| Y).toNat : Int) - (X &&& Y).toNat) % 2 ^ w := by
  have hsum : ((X ^^^ Y).toNat : Int) + (X &&& Y).toNat = (X ||| Y).toNat := by
    rw [toNat_or, toNat_and, BitVec.toNat_xor]
    exact_mod_cast xor_add_and X.toNat Y.toNat
  rw [← hsum, add_sub_cancel_right]
  exact (emod_eq_of_lt (natCast_nonneg _) (toNat_lt_int _)).symm

lemma toInt_eq_uts (hw : 0 < w) :
    X.toInt = X.toNat - (if (X.toNat : Int) < 2 ^ (w - 1) then 0 else 2 ^ w) := by
  have hdouble := two_pow_double hw
  have hcast : ((2 ^ (w - 1) : Nat) : Int) = 2 ^ (w - 1) := by push_cast; rfl
  have hcast' : ((2 ^ w : Nat) : Int) = 2 ^ w := by push_cast; rfl
  rw [BitVec.toInt_eq_toNat_cond]
  split <;> split <;> omega

lemma toNat_shiftLeft_int (m : Nat) : ((X <<< m).toNat : Int) = X.toNat * 2 ^ m % 2 ^ w := by
  rw [BitVec.toNat_shiftLeft, Nat.shiftLeft_eq]
  push_cast
  rfl

lemma toNat_ushiftRight_int (m : Nat) : ((X >>> m).toNat : Int) = X.toNat / 2 ^ m := by
  rw [BitVec.toNat_ushiftRight, Nat.shiftRight_eq_div_pow]
  push_cast
  rfl

lemma msb_eq_decide_int : X.msb = decide (¬(X.toNat : Int) < 2 ^ (w - 1)) := by
  rw [BitVec.msb_eq_decide]
  rw [decide_eq_decide, Int.not_lt]
  exact_mod_cast Iff.rfl

lemma toNat_sshiftRight_int (m : Nat) : ((X.sshiftRight m).toNat : Int) =
    if (X.toNat : Int) < 2 ^ (w - 1) then ((X >>> m).toNat : Int)
    else 2 ^ w - 1 - ((~~~X >>> m).toNat : Int) := by
  have hmsb := msb_eq_decide_int X
  split
  · rename_i hlt
    rw [BitVec.sshiftRight_eq_of_msb_false (by simpa using hmsb.trans (by simpa using hlt))]
  rename_i hge
  rw [BitVec.sshiftRight_eq_of_msb_true (by simpa using hmsb.trans (by simpa using hge)),
    toNat_not_int]

lemma toNat_append_int {w' : Nat} (Y : BitVec w') :
    ((X ++ Y).toNat : Int) = X.toNat * 2 ^ w' + Y.toNat := by
  rw [BitVec.toNat_append, ← Nat.shiftLeft_add_eq_or_of_lt Y.isLt, Nat.shiftLeft_eq]
  push_cast
  rfl

lemma toNat_extractLsb'_int (low size : Nat) :
    ((X.extractLsb' low size).toNat : Int) = X.toNat / 2 ^ low % 2 ^ size := by
  rw [BitVec.extractLsb'_toNat, Nat.shiftRight_eq_div_pow]
  push_cast
  rfl

lemma toNat_signExtend_int (amount : Nat) : ((X.signExtend (w + amount)).toNat : Int) =
      if (X.toNat : Int) < 2 ^ (w - 1) then (X.toNat : Int)
      else (2 ^ amount - 1) * 2 ^ w + X.toNat := by
  have hmsb := msb_eq_decide_int X
  have hle : 2 ^ w ≤ 2 ^ (w + amount) := Nat.pow_le_pow_right (by omega) (by omega)
  have hlt := X.isLt
  rw [BitVec.toNat_signExtend, BitVec.toNat_setWidth, mod_eq_of_lt (by omega), hmsb]
  by_cases h : (X.toNat : Int) < 2 ^ (w - 1)
  · rw [if_neg (by simpa using h), if_pos h, Nat.add_zero]
  rw [if_pos (by simpa using h), if_neg h, Nat.cast_add, cast_sub hle]
  push_cast
  ring

lemma toNat_ofInt_int (size : Nat) (z : Int) : ((ofInt size z).toNat : Int) = z % 2 ^ size := by
  rw [BitVec.toNat_ofInt]
  rw [Int.toNat_of_nonneg (Int.emod_nonneg _ (by positivity))]
  push_cast
  rfl

end

/-! ## Shifts -/

variable {p q : Nat} {s : Node}

lemma evaluates_shiftChain {m w : Nat} {left : Bool}
    (hx : Evaluates ops ρ x (.int p)) (hy : Evaluates ops ρ y (.int q)) :
    Evaluates ops ρ (shiftChain x y w left m)
      (.int (if q < m then (if left then p * 2 ^ q % 2 ^ w else p / 2 ^ q : Int) else 0)) := by
  induction m with
  | zero => exact evaluates_constInt 0
  | succ i ih =>
    have hbody : Evaluates ops ρ
        (if left then .app .intsModulusTotal [.app .mult [x, pow2Node i], pow2Node w]
          else .app .intsDivisionTotal [x, pow2Node i])
        (.int (if left then p * 2 ^ i % 2 ^ w else p / 2 ^ i : Int)) := by
      cases left with
      | true =>
        exact evaluates_mod (evaluates_mult hx (evaluates_pow2Node i)) (evaluates_pow2Node w)
      | false => exact evaluates_div hx (evaluates_pow2Node i)
    have hchain := evaluates_ite hbody ih (evaluates_equal hy (evaluates_constInt i))
    rw [shiftChain]
    apply hchain.congr
    rcases Nat.lt_trichotomy q i with hlt | rfl | hgt
    · simp [hlt, hlt.ne, Nat.lt_succ_of_lt hlt]
    · simp
    · simp [hgt.ne', Nat.not_lt.2 hgt.le, Nat.not_lt.2 (Nat.succ_le_of_lt hgt)]

section

variable {w : Nat} {X Y : BitVec w} {usePow2 left : Bool}

lemma evaluates_createShiftNode (hx : Evaluates ops ρ x (.int X.toNat))
    (hy : Evaluates ops ρ y (.int Y.toNat)) (h : createShiftNode usePow2 x y w left = some n) :
    Evaluates ops ρ n
      (.int (if left then (X <<< Y.toNat).toNat else (X >>> Y.toNat).toNat : Nat)) := by
  have hval : ((if left then (X <<< Y.toNat).toNat else (X >>> Y.toNat).toNat : Nat) : Int) =
      if left then (X.toNat : Int) * 2 ^ Y.toNat % 2 ^ w else (X.toNat : Int) / 2 ^ Y.toNat := by
    cases left
    · exact toNat_ushiftRight_int X _
    · exact toNat_shiftLeft_int X _
  unfold createShiftNode at h
  split at h
  · cases h
  split at h
  · cases h
    rw [hval]
    cases left with
    | true => exact evaluates_mod (evaluates_mult hx (evaluates_pow2 hy)) (evaluates_pow2Node w)
    | false => exact evaluates_div hx (evaluates_pow2 hy)
  cases h
  apply (evaluates_shiftChain hx hy).congr
  rw [hval]
  split
  · rfl
  rename_i hge
  -- a shift by the width or more leaves no bit
  have hpow : 2 ^ w ≤ 2 ^ Y.toNat := Nat.pow_le_pow_right (by omega) (by omega)
  have hlt := X.isLt
  rw [← hval]
  cases left with
  | true =>
    have hdvd : 2 ^ w ∣ X.toNat * 2 ^ Y.toNat :=
      Dvd.dvd.mul_left (Nat.pow_dvd_pow 2 (by omega)) _
    rw [if_pos rfl, BitVec.toNat_shiftLeft, Nat.shiftLeft_eq, Nat.mod_eq_zero_of_dvd hdvd]
    rfl
  | false =>
    rw [if_neg Bool.false_ne_true, BitVec.toNat_ushiftRight, Nat.shiftRight_eq_div_pow,
      Nat.div_eq_of_lt (by omega)]
    rfl

end

/-! ## Conjunctions -/

lemma andEntry_eq (g i j : Nat) : andEntry g i j = (i &&& j) % 2 ^ g := by
  induction g with
  | zero => rw [Nat.pow_zero, mod_one]; rfl
  | succ g ih =>
    have hsucc : andEntry (g + 1) i j =
        andEntry g i j + if i.testBit g && j.testBit g then 2 ^ g else 0 := by
      simp [andEntry, List.range_succ]
    rw [hsucc, ih, Nat.mod_pow_succ, ← Nat.testBit_and, Nat.testBit_eq_decide_div_mod_eq]
    rcases Nat.mod_two_eq_zero_or_one ((i &&& j) / 2 ^ g) with h | h <;> simp [h]

variable {g : Nat}

lemma andEntry_of_lt {i j : Nat} (hi : i < 2 ^ g) : andEntry g i j = i &&& j := by
  have hle : i &&& j ≤ i := Nat.and_le_left
  rw [andEntry_eq, mod_eq_of_lt (by omega)]

lemma mem_tableKeys {i j : Nat} (hi : i < 2 ^ g) (hj : j < 2 ^ g) : (i, j) ∈ tableKeys g := by
  rw [tableKeys, List.mem_flatMap]
  exact ⟨i, mem_range.2 hi, mem_map.2 ⟨j, mem_range.2 hj, rfl⟩⟩

/-- The chain has the value of the entry of the two numbers, unless it is left out of the
chain. -/
lemma evaluates_table (hx : Evaluates ops ρ x (.int p))
    (hy : Evaluates ops ρ y (.int q)) (keys : List (Nat × Nat)) (ite : Node) (d : Nat)
    (hite : Evaluates ops ρ ite (.int d)) :
    Evaluates ops ρ (keys.foldl (fun ite r =>
        if andEntry g r.1 r.2 = defaultValue g then ite
        else .app .ite [.app .and [.app .equal [x, .constInt r.1], .app .equal [y, .constInt r.2]],
          .constInt (andEntry g r.1 r.2), ite]) ite)
      (.int (if (p, q) ∈ keys ∧ andEntry g p q ≠ defaultValue g then andEntry g p q else d : Nat)) := by
  induction keys generalizing ite d with
  | nil => simpa using hite
  | cons r keys ih =>
    rw [List.foldl_cons]
    split
    · rename_i hr
      apply (ih ite d hite).congr
      congr 2
      apply propext
      rw [mem_cons]
      constructor
      · exact fun h => ⟨.inr h.1, h.2⟩
      rintro ⟨rfl | h, hne⟩
      · exact absurd hr hne
      · exact ⟨h, hne⟩
    rename_i hr
    have hstep := evaluates_ite (evaluates_constInt (andEntry g r.1 r.2)) hite
      (evaluates_and (evaluates_equal hx (evaluates_constInt r.1))
        (evaluates_equal hy (evaluates_constInt r.2)))
    by_cases heq : (p, q) = r
    · subst heq
      rw [if_pos (by simp)] at hstep
      apply (ih _ _ hstep).congr
      simp [hr]
    have hne : ¬(p = r.1 ∧ q = r.2) := fun h => heq (Prod.ext h.1 h.2)
    rw [if_neg (by simpa using hne)] at hstep
    apply (ih _ _ hstep).congr
    simp [heq]

lemma evaluates_createITEFromTable (hx : Evaluates ops ρ x (.int p))
    (hy : Evaluates ops ρ y (.int q)) (hp : p < 2 ^ g) (hq : q < 2 ^ g) :
    Evaluates ops ρ (createITEFromTable x y g) (.int (p &&& q : Nat)) := by
  apply (evaluates_table hx hy (tableKeys g) _ _ (evaluates_constInt (defaultValue g))).congr
  rw [← andEntry_of_lt hp]
  by_cases h : andEntry g p q = defaultValue g
  · rw [if_neg (fun h' => h'.2 h), h]
  · rw [if_pos ⟨mem_tableKeys hp hq, h⟩]

lemma closestDivisor_spec (w : Nat) (hg : 0 < g) :
    0 < closestDivisor w g ∧ w % closestDivisor w g = 0 := by
  induction g with
  | zero => omega
  | succ g ih =>
    rw [closestDivisor]
    split
    · rename_i hne
      refine ih (Nat.pos_of_ne_zero ?_)
      rintro rfl
      exact hne (mod_one w)
    · rename_i heq
      exact ⟨Nat.succ_pos g, not_not.1 heq⟩

lemma evaluates_intExtract (hx : Evaluates ops ρ x (.int p)) (i size : Nat) :
    Evaluates ops ρ (intExtract x i size) (.int (block p (i * size) size)) := by
  apply (evaluates_mod (evaluates_div hx (evaluates_pow2Node (i * size)))
    (evaluates_pow2Node size)).congr
  rw [block]
  push_cast
  rfl

/-- The sum of the blocks has the bits of the blocks that were added. -/
lemma evaluates_sum (hx : Evaluates ops ρ x (.int p)) (hy : Evaluates ops ρ y (.int q)) (m : Nat) :
    Evaluates ops ρ
      ((List.range m).foldl (fun sumNode i => .app .add [sumNode, .app .mult [pow2Node (i * g),
        createITEFromTable (intExtract x i g) (intExtract y i g) g]]) (.constInt 0))
      (.int ((p &&& q) % 2 ^ (m * g) : Nat)) := by
  induction m with
  | zero =>
    rw [Nat.zero_mul, Nat.pow_zero, mod_one]
    exact evaluates_constInt 0
  | succ m ih =>
    rw [List.range_succ, List.foldl_concat, Nat.succ_mul, ← mod_add_block, block_and]
    have htable := evaluates_createITEFromTable (evaluates_intExtract hx m g)
      (evaluates_intExtract hy m g) (block_lt p _ _) (block_lt q _ _)
    apply (evaluates_add ih (evaluates_mult (evaluates_pow2Node (m * g)) htable)).congr
    push_cast
    rfl

lemma evaluates_createSumNode {w : Nat} (hx : Evaluates ops ρ x (.int p))
    (hy : Evaluates ops ρ y (.int q)) (hp : p < 2 ^ w) (hg : 0 < g) :
    Evaluates ops ρ (createSumNode x y w g) (.int (p &&& q : Nat)) := by
  have hle : p &&& q ≤ p := Nat.and_le_left
  have hsize : w / (if w < g then w else closestDivisor w g) *
      (if w < g then w else closestDivisor w g) = w := by
    apply Nat.div_mul_cancel
    split
    · exact Nat.dvd_refl w
    · exact Nat.dvd_of_mod_eq_zero (closestDivisor_spec w hg).2
  apply (evaluates_sum (g := if w < g then w else closestDivisor w g) hx hy _).congr
  rw [hsize, mod_eq_of_lt (by omega)]

lemma evaluates_iextract (hx : Evaluates ops ρ x (.int p)) (i j : Nat) :
    Evaluates ops ρ (iextract i j x) (.int (block p j (i - j + 1))) := by
  apply (evaluates_mod (evaluates_div hx (evaluates_twoToK j)) (evaluates_twoToK (i - j + 1))).congr
  rw [block]
  push_cast
  rfl

/-! ## Unsigned values -/

def Value.unsigned : Value → Value
  | .bv _ x => .int x.toNat
  | v => v

lemma type_unsigned (v : Value) : v.unsigned.type = v.type.translated := by
  cases v <;> rfl

lemma types_unsigned (vs : List Value) :
    (vs.map Value.unsigned).map Value.type = (vs.map Value.type).map TypeNode.translated := by
  rw [map_map, map_map]
  exact List.map_congr_left fun v _ => type_unsigned v

def Holds (ops : Ops) (ρ : Model) (n : Node) : Prop := n.value ops ρ = some (.bool true)

lemma Evaluates.holds_iff {p : Bool} (h : Evaluates ops ρ n (.bool p)) :
    Holds ops ρ n ↔ p = true := by
  rw [Holds, h.1, Option.some.injEq, Value.bool.injEq]

/-- What the translation relies on from the rewriter: it keeps the type and the value of a term. -/
structure Sound (ops : Ops) (rewrite : Node → Node) : Prop where
  evaluates : ∀ ρ n v, Evaluates ops ρ n v → Evaluates ops ρ (rewrite n) v

lemma holds_mkRangeConstraint (hr : Sound ops rewrite) (hn : Evaluates ops ρ n (.int a)) (m : Nat) :
    Holds ops ρ (mkRangeConstraint rewrite n m) ↔ 0 ≤ a ∧ a < 2 ^ m := by
  have hand := evaluates_and (evaluates_leq (evaluates_constInt 0) hn)
    (evaluates_lt hn (evaluates_pow2Node m))
  rw [mkRangeConstraint, (hr.evaluates _ _ _ hand).holds_iff, and_eq_true,
    decide_eq_true_eq, decide_eq_true_eq]

/-- The purification skolems denote the terms that they stand for. -/
def Purified (ops : Ops) (ρ : Model) : Prop :=
  ∀ n z, n.value ops ρ = some (.int z) → ρ.purify n = z

/-! ## The operators -/

section

variable {w : Nat} {X Y : BitVec w}

lemma evaluates_createBVAddNode (hx : Evaluates ops ρ x (.int a)) (hy : Evaluates ops ρ y (.int b))
    (w : Nat) : Evaluates ops ρ (createBVAddNode x y w) (.int ((a + b) % 2 ^ w)) :=
  evaluates_mod (evaluates_add hx hy) (evaluates_pow2Node w)

lemma evaluates_createBVSubNode (hx : Evaluates ops ρ x (.int a)) (hy : Evaluates ops ρ y (.int b))
    (w : Nat) : Evaluates ops ρ (createBVSubNode x y w) (.int ((a - b) % 2 ^ w)) :=
  evaluates_mod (evaluates_sub hx hy) (evaluates_pow2Node w)

lemma evaluates_createBVNotNode (hx : Evaluates ops ρ x (.int X.toNat)) :
    Evaluates ops ρ (createBVNotNode x w) (.int (~~~X).toNat) :=
  (evaluates_sub (evaluates_maxInt w) hx).congr (toNat_not_int X).symm

lemma evaluates_createBVNegNode (hx : Evaluates ops ρ x (.int X.toNat)) :
    Evaluates ops ρ (createBVNegNode x w) (.int (-X).toNat) :=
  (evaluates_createBVAddNode (evaluates_sub (evaluates_maxInt w) hx) (evaluates_constInt 1) w).congr
    (toNat_neg_int X).symm

lemma evaluates_uts (hw : 0 < w) (hx : Evaluates ops ρ x (.int X.toNat)) :
    Evaluates ops ρ (uts x w) (.int X.toInt) := by
  apply (evaluates_sub hx (evaluates_ite (evaluates_constInt 0) (evaluates_pow2Node w)
    (evaluates_lt hx (evaluates_pow2Node (w - 1))))).congr
  simp only [toInt_eq_uts X hw, decide_eq_true_eq]

lemma evaluates_createSignExtendNode (hx : Evaluates ops ρ x (.int X.toNat)) (amount : Nat) :
    Evaluates ops ρ (createSignExtendNode x w amount) (.int (X.signExtend (w + amount)).toNat) := by
  have hval := toNat_signExtend_int X amount
  have hnode : Evaluates ops ρ (if amount = 0 then x else
        .app .ite [.app .lt [x, pow2Node (w - 1)], x,
          .app .add [.app .mult [maxInt amount, pow2Node w], x]])
      (.int (X.signExtend (w + amount)).toNat) := by
    split
    · rename_i hzero
      apply hx.congr
      rw [hval, hzero, pow_zero, sub_self, zero_mul, zero_add, ite_self]
    apply (evaluates_ite hx (evaluates_add (evaluates_mult (evaluates_maxInt amount)
      (evaluates_pow2Node w)) hx) (evaluates_lt hx (evaluates_pow2Node (w - 1)))).congr
    simp only [hval, decide_eq_true_eq]
  cases x with
  | constInt z =>
    obtain rfl : z = X.toNat := by simpa [value] using hx.1
    unfold createSignExtendNode
    dsimp only
    split
    · rename_i hcond
      rcases hcond with hlt | hzero
      · exact (evaluates_constInt _).congr (by rw [hval, if_pos hlt])
      · rwa [if_pos hzero] at hnode
    · rename_i hcond
      exact (evaluates_constInt _).congr (by rw [hval, if_neg fun h => hcond (.inl h)])
  | boolVar | intVar | bvVar | otherVar | constBool | constBV | purify | app => exact hnode

lemma iandValue_toNat (X Y : BitVec w) : iandValue w X.toNat Y.toNat = (X &&& Y).toNat := by
  have hx : ((X.toNat : Int) % 2 ^ w).toNat = X.toNat := by
    rw [emod_eq_of_lt (natCast_nonneg _) (toNat_lt_int X), Int.toNat_natCast]
  have hy : ((Y.toNat : Int) % 2 ^ w).toNat = Y.toNat := by
    rw [emod_eq_of_lt (natCast_nonneg _) (toNat_lt_int Y), Int.toNat_natCast]
  rw [iandValue, hx, hy, toNat_and]

lemma evaluates_intToBitvector (hw : 0 < w) (hx : Evaluates ops ρ x (.int a)) :
    Evaluates ops ρ (.app (.intToBitvector w) [x]) (.bv w (ofInt w a)) :=
  hx.app₁ rfl (if_pos hw)

lemma ofInt_toNat (X : BitVec w) : ofInt w X.toNat = X := by
  rw [BitVec.ofInt_natCast, BitVec.ofNat_toNat, BitVec.setWidth_eq]

lemma binaryType_self (hk : k ≠ .bitvectorConcat) : binaryType k (.bitVector w) (.bitVector w) =
      if (bvOperator? k).isSome then some (.bitVector w)
      else if (bvPredicate? k).isSome then some .boolean
      else if (bvBitPredicate? k).isSome then some (.bitVector 1)
      else none := by
  simp only [binaryType, if_neg hk, ne_eq, not_true_eq_false, if_false]

lemma binaryValue_operator {f : (w : Nat) → BitVec w → BitVec w → BitVec w}
    (hk : k ≠ .bitvectorConcat) (hf : bvOperator? k = some f) (X Y : BitVec w) :
    binaryValue k (.bv w X) (.bv w Y) = some (.bv w (f w X Y)) := by
  simp only [binaryValue, if_neg hk, dif_pos, hf, BitVec.cast_eq]

lemma binaryValue_predicate {p : (w : Nat) → BitVec w → BitVec w → Bool}
    (hk : k ≠ .bitvectorConcat) (hf : bvOperator? k = none) (hp : bvPredicate? k = some p)
    (X Y : BitVec w) : binaryValue k (.bv w X) (.bv w Y) = some (.bool (p w X Y)) := by
  simp only [binaryValue, if_neg hk, dif_pos, hf, hp, BitVec.cast_eq]

lemma binaryValue_bit {p : (w : Nat) → BitVec w → BitVec w → Bool}
    (hk : k ≠ .bitvectorConcat) (hf : bvOperator? k = none) (hp : bvPredicate? k = none)
    (hb : bvBitPredicate? k = some p) (X Y : BitVec w) :
    binaryValue k (.bv w X) (.bv w Y) = some (.bv 1 (BitVec.ofBool (p w X Y))) := by
  simp only [binaryValue, if_neg hk, dif_pos, hf, hp, hb, BitVec.cast_eq]

lemma evaluates_bvand (hw : 0 < w) (hx : Evaluates ops ρ x (.int X.toNat))
    (hy : Evaluates ops ρ y (.int Y.toNat)) :
    Evaluates ops ρ (.app .bitvectorUbvToInt [.app .bitvectorAnd
      [.app (.intToBitvector w) [x], .app (.intToBitvector w) [y]]]) (.int (X &&& Y).toNat) := by
  have hx' := evaluates_intToBitvector hw hx
  have hy' := evaluates_intToBitvector hw hy
  rw [ofInt_toNat] at hx' hy'
  have hand : Evaluates ops ρ (.app .bitvectorAnd
      [.app (.intToBitvector w) [x], .app (.intToBitvector w) [y]]) (.bv w (X &&& Y)) :=
    hx'.app₂ hy' (binaryValue_operator (k := .bitvectorAnd) (by decide) rfl X Y)
      (binaryType_self (k := .bitvectorAnd) (by decide))
  exact hand.app₁ rfl rfl

/-! ## Conjunctions with lemmas about their bits -/

lemma evaluates_bitwise {z : Nat} {result : Node} (hx : Evaluates ops ρ x (.int X.toNat))
    (hy : Evaluates ops ρ y (.int Y.toNat)) (hz : Evaluates ops ρ result (.int z)) (high low : Nat) :
    Evaluates ops ρ (.app .equal [iextract high low result, createBitwiseIAndNode x y high low])
      (.bool (decide (block z low (high - low + 1) =
        block X.toNat low (high - low + 1) &&& block Y.toNat low (high - low + 1)))) := by
  have htable := evaluates_createITEFromTable (evaluates_iextract hx high low)
    (evaluates_iextract hy high low) (block_lt _ _ _) (block_lt _ _ _)
  have hequal := evaluates_equal (evaluates_iextract hz high low) htable
  rw [createBitwiseIAndNode]
  simpa only [Nat.cast_inj] using hequal

lemma exists_bitwise {i g : Nat} (hi : i < w) (hg : 0 < g) :
    ∃ low high, low ∈ (List.range w).filter (fun j => j % g = 0) ∧
      high = (if w ≤ low + g - 1 then w - 1 else low + g - 1) ∧
      low ≤ i ∧ i < low + (high - low + 1) := by
  have hdiv := Nat.div_add_mod i g
  have hlt := Nat.mod_lt i hg
  refine ⟨g * (i / g), _, ?_, rfl, by omega, by split <;> omega⟩
  rw [List.mem_filter, mem_range]
  exact ⟨by omega, by simp⟩

lemma createBVAndNode_same (hr : Sound ops rewrite) (hw : 0 < w)
    (hx : Evaluates ops ρ x (.int X.toNat)) (hy : Evaluates ops ρ y (.int Y.toNat))
    (h : createBVAndNode opts rewrite x y w = some (n, lemmas))
    (hl : Purified ops ρ ∨ ∀ l ∈ lemmas, Holds ops ρ l) :
    (∀ l ∈ lemmas, Holds ops ρ l) ∧ Evaluates ops ρ n (.int (X &&& Y).toNat) := by
  have hiand := (evaluates_iand hx hy w).congr (iandValue_toNat X Y)
  unfold createBVAndNode at h
  split at h
  · cases h
    exact ⟨nofun, hiand⟩
  · cases h
    exact ⟨nofun, evaluates_bvand hw hx hy⟩
  · split at h
    · rename_i hg
      cases h
      refine ⟨nofun, (evaluates_createSumNode hx hy X.isLt hg.1).congr ?_⟩
      rw [toNat_and]
    · cases h
  split at h
  swap
  · cases h
  rename_i hg
  cases h
  have hskolem : Evaluates ops ρ (.purify (.app (.iand w) [x, y]))
      (.int (ρ.purify (.app (.iand w) [x, y]))) := ⟨rfl, rfl⟩
  rcases hl with hpure | hl
  · rw [hpure _ _ hiand.1] at hskolem
    refine ⟨forall_mem_cons.2 ⟨?_, fun l hmem => ?_⟩, hskolem⟩
    · exact (holds_mkRangeConstraint hr hskolem w).2 ⟨natCast_nonneg _, toNat_lt_int _⟩
    obtain ⟨j, -, rfl⟩ := mem_map.1 hmem
    rw [(evaluates_bitwise hx hy hskolem _ _).holds_iff, decide_eq_true_eq, toNat_and, block_and]
  refine ⟨hl, hskolem.congr ?_⟩
  obtain ⟨hrange, hbits⟩ := forall_mem_cons.1 hl
  obtain ⟨hnonneg, hlt⟩ := (holds_mkRangeConstraint hr hskolem w).1 hrange
  obtain ⟨z, hz⟩ := Int.eq_ofNat_of_zero_le hnonneg
  rw [hz] at hskolem hlt ⊢
  rw [toNat_and, Nat.cast_inj]
  refine eq_and_of_blocks X.isLt (by exact_mod_cast hlt) fun i hi => ?_
  obtain ⟨low, high, hlow, hhigh, hle, hsize⟩ := exists_bitwise hi hg.1
  have hbit := hbits _ (mem_map.2 ⟨low, hlow, rfl⟩)
  rw [(evaluates_bitwise hx hy hskolem _ _).holds_iff, decide_eq_true_eq, ← hhigh] at hbit
  exact ⟨low, high - low + 1, hle, hsize, hbit⟩

lemma createBVOrNode_same (hr : Sound ops rewrite) (hw : 0 < w)
    (hx : Evaluates ops ρ x (.int X.toNat)) (hy : Evaluates ops ρ y (.int Y.toNat))
    (h : createBVOrNode opts rewrite x y w = some (n, lemmas))
    (hl : Purified ops ρ ∨ ∀ l ∈ lemmas, Holds ops ρ l) :
    (∀ l ∈ lemmas, Holds ops ρ l) ∧ Evaluates ops ρ n (.int (X ||| Y).toNat) := by
  obtain ⟨⟨m, lemmas'⟩, hand, heq⟩ := map_inv h
  cases heq
  obtain ⟨hlemmas, hm⟩ := createBVAndNode_same hr hw hx hy hand hl
  exact ⟨hlemmas, (evaluates_createBVSubNode (evaluates_createBVAddNode hx hy w) hm w).congr
    (toNat_or_int X Y).symm⟩

end

/-! ## Binary operators -/

section

variable {w : Nat} {X Y : BitVec w}

def Translates (ops : Ops) (ρ : Model) (k : Kind) (X Y : BitVec w) (n : Node) : Prop :=
  ∃ v, binaryValue k (.bv w X) (.bv w Y) = some v ∧
    binaryType k (.bitVector w) (.bitVector w) = some v.type ∧ Evaluates ops ρ n v.unsigned

lemma translates_operator {f : (w : Nat) → BitVec w → BitVec w → BitVec w}
    (hk : k ≠ .bitvectorConcat) (hf : bvOperator? k = some f)
    (h : Evaluates ops ρ n (.int (f w X Y).toNat)) : Translates ops ρ k X Y n :=
  ⟨_, binaryValue_operator hk hf X Y, by rw [binaryType_self hk, hf]; rfl, h⟩

lemma translates_predicate {p : (w : Nat) → BitVec w → BitVec w → Bool}
    (hk : k ≠ .bitvectorConcat) (hf : bvOperator? k = none) (hp : bvPredicate? k = some p)
    (h : Evaluates ops ρ n (.bool (p w X Y))) : Translates ops ρ k X Y n :=
  ⟨_, binaryValue_predicate hk hf hp X Y, by rw [binaryType_self hk, hf, hp]; rfl, h⟩

lemma translates_bit {p : (w : Nat) → BitVec w → BitVec w → Bool}
    (hk : k ≠ .bitvectorConcat) (hf : bvOperator? k = none) (hp : bvPredicate? k = none)
    (hb : bvBitPredicate? k = some p) (h : Evaluates ops ρ c (.bool (p w X Y))) :
    Translates ops ρ k X Y (.app .ite [c, .constInt 1, .constInt 0]) := by
  refine ⟨_, binaryValue_bit hk hf hp hb X Y, by rw [binaryType_self hk, hf, hp, hb]; rfl, ?_⟩
  apply (evaluates_ite (evaluates_constInt 1) (evaluates_constInt 0) h).congr
  cases p w X Y <;> rfl

lemma evaluates_signedOverflow (h : Evaluates ops ρ n (.int a)) (w : Nat) :
    Evaluates ops ρ (translateBinary.signedOverflow n w)
      (.bool (decide (a ≥ 2 ^ (w - 1)) || decide (a < -2 ^ (w - 1)))) :=
  evaluates_or (evaluates_geq h (evaluates_pow2Node (w - 1)))
    (evaluates_lt h (evaluates_neg (evaluates_pow2Node (w - 1))))

lemma translateBinary_same (hr : Sound ops rewrite) (hw : 0 < w)
    (hx : Evaluates ops ρ x (.int X.toNat)) (hy : Evaluates ops ρ y (.int Y.toNat))
    (h : translateBinary opts rewrite k x y w = some (n, lemmas))
    (hl : Purified ops ρ ∨ ∀ l ∈ lemmas, Holds ops ρ l) :
    (∀ l ∈ lemmas, Holds ops ρ l) ∧ Translates ops ρ k X Y n := by
  have hux := evaluates_uts hw hx
  have huy := evaluates_uts hw hy
  have hpow : Evaluates ops ρ (pow2Node w) (.int (2 ^ w)) := evaluates_pow2Node w
  have hcast : ∀ m p : Nat, decide ((m : Int) ≥ 2 ^ p) = decide (m ≥ 2 ^ p) := by
    intro m p
    rw [decide_eq_decide]
    exact_mod_cast Iff.rfl
  cases k with
  | bitvectorAdd =>
    cases h
    exact ⟨nofun, translates_operator (by decide) rfl
      ((evaluates_createBVAddNode hx hy w).congr (toNat_add_int X Y).symm)⟩
  | bitvectorMult =>
    cases h
    exact ⟨nofun, translates_operator (by decide) rfl
      ((evaluates_mod (evaluates_mult hx hy) hpow).congr (toNat_mul_int X Y).symm)⟩
  | bitvectorUdiv =>
    cases h
    refine ⟨nofun, translates_operator (by decide) rfl ?_⟩
    apply (evaluates_ite (evaluates_sub hpow (evaluates_constInt 1)) (evaluates_div hx hy)
      (evaluates_equal hy (evaluates_constInt 0))).congr
    simp only [toNat_smtUDiv_int, decide_eq_true_eq]
  | bitvectorUrem =>
    cases h
    refine ⟨nofun, translates_operator (by decide) rfl ?_⟩
    apply (evaluates_ite hx (evaluates_mod hx hy) (evaluates_equal hy (evaluates_constInt 0))).congr
    simp only [toNat_umod_int, decide_eq_true_eq]
  | bitvectorAnd =>
    obtain ⟨hlemmas, hn⟩ := createBVAndNode_same hr hw hx hy h hl
    exact ⟨hlemmas, translates_operator (by decide) rfl hn⟩
  | bitvectorOr =>
    obtain ⟨hlemmas, hn⟩ := createBVOrNode_same hr hw hx hy h hl
    exact ⟨hlemmas, translates_operator (by decide) rfl hn⟩
  | bitvectorXor =>
    obtain ⟨⟨m, lemmas1⟩, hor, h⟩ := bind_inv h
    obtain ⟨⟨m', lemmas2⟩, hand, h⟩ := bind_inv h
    cases h
    obtain ⟨hlemmas1, hm⟩ := createBVOrNode_same hr hw hx hy hor
      (hl.imp_right fun hl l hmem => hl l (List.mem_append_left _ hmem))
    obtain ⟨hlemmas2, hm'⟩ := createBVAndNode_same hr hw hx hy hand
      (hl.imp_right fun hl l hmem => hl l (List.mem_append_right _ hmem))
    exact ⟨List.forall_mem_append.2 ⟨hlemmas1, hlemmas2⟩, translates_operator (by decide) rfl
      ((evaluates_createBVSubNode hm hm' w).congr (toNat_xor_int X Y).symm)⟩
  | bitvectorShl =>
    obtain ⟨m, hm, heq⟩ := map_inv h
    cases heq
    exact ⟨nofun, translates_operator (by decide) rfl (evaluates_createShiftNode hx hy hm)⟩
  | bitvectorLshr =>
    obtain ⟨m, hm, heq⟩ := map_inv h
    cases heq
    exact ⟨nofun, translates_operator (by decide) rfl (evaluates_createShiftNode hx hy hm)⟩
  | bitvectorAshr =>
    obtain ⟨m, hm, h⟩ := bind_inv h
    obtain ⟨m', hm', h⟩ := bind_inv h
    cases h
    refine ⟨nofun, translates_operator (by decide) rfl ?_⟩
    have hshift := evaluates_createShiftNode (evaluates_createBVNotNode hx) hy hm'
    rw [if_neg Bool.false_ne_true] at hshift
    apply (evaluates_ite (evaluates_createShiftNode hx hy hm) (evaluates_createBVNotNode hshift)
      (evaluates_lt hx (evaluates_pow2Node (w - 1)))).congr
    simp only [toNat_sshiftRight_int, decide_eq_true_eq, if_neg Bool.false_ne_true, toNat_not_int]
  | bitvectorUlt =>
    cases h
    exact ⟨nofun, translates_predicate (by decide) rfl rfl
      (by simpa [ult] using evaluates_lt hx hy)⟩
  | bitvectorUsubo =>
    cases h
    exact ⟨nofun, translates_predicate (by decide) rfl rfl
      (by simpa [BitVec.usubOverflow] using evaluates_lt hx hy)⟩
  | bitvectorUle =>
    cases h
    exact ⟨nofun, translates_predicate (by decide) rfl rfl
      (by simpa [ule] using evaluates_leq hx hy)⟩
  | bitvectorUgt =>
    cases h
    exact ⟨nofun, translates_predicate (by decide) rfl rfl
      (by simpa [ult] using evaluates_gt hx hy)⟩
  | bitvectorUge =>
    cases h
    exact ⟨nofun, translates_predicate (by decide) rfl rfl
      (by simpa [ule] using evaluates_geq hx hy)⟩
  | bitvectorSlt =>
    cases h
    exact ⟨nofun, translates_predicate (by decide) rfl rfl (evaluates_lt hux huy)⟩
  | bitvectorUltbv =>
    cases h
    exact ⟨nofun, translates_bit (by decide) rfl rfl rfl
      (by simpa [ult] using evaluates_lt hx hy)⟩
  | bitvectorSltbv =>
    cases h
    exact ⟨nofun, translates_bit (by decide) rfl rfl rfl (evaluates_lt hux huy)⟩
  | bitvectorComp =>
    cases h
    refine ⟨nofun, translates_bit (by decide) rfl rfl rfl ?_⟩
    have hequal := evaluates_equal hx hy
    simpa only [Nat.cast_inj, toNat_inj] using hequal
  | bitvectorUaddo =>
    cases h
    refine ⟨nofun, translates_predicate (by decide) rfl rfl ?_⟩
    have hgeq := evaluates_geq (evaluates_add hx hy) hpow
    rwa [← Nat.cast_add, hcast] at hgeq
  | bitvectorUmulo =>
    cases h
    refine ⟨nofun, translates_predicate (by decide) rfl rfl ?_⟩
    have hgeq := evaluates_geq (evaluates_mult hx hy) hpow
    rwa [← Nat.cast_mul, hcast] at hgeq
  | bitvectorSaddo =>
    cases h
    exact ⟨nofun, translates_predicate (by decide) rfl rfl
      (evaluates_signedOverflow (evaluates_add hux huy) w)⟩
  | bitvectorSmulo =>
    cases h
    exact ⟨nofun, translates_predicate (by decide) rfl rfl
      (evaluates_signedOverflow (evaluates_mult hux huy) w)⟩
  | bitvectorSsubo =>
    cases h
    exact ⟨nofun, translates_predicate (by decide) rfl rfl
      (evaluates_signedOverflow (evaluates_sub hux huy) w)⟩
  | _ => cases h

end

/-! ## Values of typed children -/

variable {R : Nat → Option TypeNode}

lemma bvType_inv (h : bvType R (vs.map Value.type) = some tn) :
    ∃ (w : Nat) (X : BitVec w), vs = [.bv w X] ∧ R w = some tn := by
  match vs with
  | [] => cases h
  | [v] =>
    cases v with
    | bv w X => exact ⟨w, X, rfl, h⟩
    | bool | int | other => cases h
  | v :: _ :: _ => cases v <;> cases h

variable {args : List TypeNode} {T : TypeNode}

lemma fixedType_inv (h : fixedType args T ts = some tn) : ts = args ∧ tn = T := by
  unfold fixedType at h
  split at h
  · rename_i hts
    cases h
    exact ⟨hts, rfl⟩
  · cases h

lemma int_of_types (h : vs.map Value.type = [.integer]) : ∃ a, vs = [.int a] := by
  match vs, h with
  | [.int a], _ => exact ⟨a, rfl⟩

lemma ints_of_types (h : vs.map Value.type = [.integer, .integer]) :
    ∃ a b, vs = [.int a, .int b] := by
  match vs, h with
  | [.int a, .int b], _ => exact ⟨a, b, rfl⟩

lemma bool_of_types (h : vs.map Value.type = [.boolean]) : ∃ p, vs = [.bool p] := by
  match vs, h with
  | [.bool p], _ => exact ⟨p, rfl⟩

lemma bools_of_types (h : vs.map Value.type = [.boolean, .boolean]) :
    ∃ p q, vs = [.bool p, .bool q] := by
  match vs, h with
  | [.bool p, .bool q], _ => exact ⟨p, q, rfl⟩

lemma allType_inv {arg : TypeNode} (h : allType arg (vs.map Value.type) = some tn) :
    (∀ v ∈ vs, v.type = arg) ∧ tn = arg := by
  unfold allType at h
  split at h
  · rename_i hall
    cases h
    exact ⟨fun v hv => hall _ (List.mem_map_of_mem hv), rfl⟩
  · cases h

lemma exists_ints (h : ∀ v ∈ vs, v.type = .integer) : ∃ zs, ints vs = some zs := by
  induction vs with
  | nil => exact ⟨[], rfl⟩
  | cons v vs ih =>
    obtain ⟨hv, hvs⟩ := forall_mem_cons.1 h
    obtain ⟨zs, hzs⟩ := ih hvs
    cases v with
    | int z => exact ⟨z :: zs, congrArg (Option.map _) hzs⟩
    | bool | bv | other => cases hv

lemma exists_bools (h : ∀ v ∈ vs, v.type = .boolean) : ∃ bs, bools vs = some bs := by
  induction vs with
  | nil => exact ⟨[], rfl⟩
  | cons v vs ih =>
    obtain ⟨hv, hvs⟩ := forall_mem_cons.1 h
    obtain ⟨bs, hbs⟩ := ih hvs
    cases v with
    | bool b => exact ⟨b :: bs, congrArg (Option.map _) hbs⟩
    | int | bv | other => cases hv

lemma bvIteType_inv (h : bvIteType (vs.map Value.type) = some tn) :
    ∃ (p : BitVec 1) (w : Nat) (X Y : BitVec w), vs = [.bv 1 p, .bv w X, .bv w Y] ∧
      tn = .bitVector w := by
  unfold bvIteType at h
  split at h
  swap
  · cases h
  rename_i w w' heq
  split at h
  swap
  · cases h
  rename_i hw
  subst hw
  cases h
  match vs, heq with
  | [.bv _ p, .bv _ X, .bv _ Y], heq =>
    cases heq
    exact ⟨p, _, X, Y, rfl, rfl⟩

lemma equalType_inv (h : equalType (vs.map Value.type) = some tn) :
    ∃ v v', vs = [v, v'] ∧ v'.type = v.type ∧ tn = .boolean := by
  match vs with
  | [v, v'] =>
    change (if v'.type = v.type then some TypeNode.boolean else none) = some tn at h
    split at h
    · rename_i heq
      cases h
      exact ⟨v, v', rfl, heq, rfl⟩
    · cases h
  | [] => cases h
  | [_] => cases h
  | _ :: _ :: _ :: _ => cases h

lemma iteType_inv (h : iteType (vs.map Value.type) = some tn) :
    ∃ p v v', vs = [.bool p, v, v'] ∧ v'.type = v.type ∧ tn = v.type := by
  match vs with
  | [c, v, v'] =>
    cases c with
    | bool p =>
      change (if v'.type = v.type then some v.type else none) = some tn at h
      split at h
      · rename_i heq
        cases h
        exact ⟨p, v, v', rfl, heq, rfl⟩
      · cases h
    | int | bv | other => cases h
  | [] => cases h
  | [c] => cases c <;> cases h
  | [c, _] => cases c <;> cases h
  | c :: _ :: _ :: _ :: _ => cases c <;> cases h

lemma binaryType_inv (h : binaryType k v.type v'.type = some tn) :
    ∃ (w : Nat) (X : BitVec w) (w' : Nat) (Y : BitVec w'), v = .bv w X ∧ v' = .bv w' Y ∧
      (k = .bitvectorConcat ∧ tn = .bitVector (w + w') ∨ k ≠ .bitvectorConcat ∧ w' = w) := by
  cases v with
  | bv w X =>
    cases v' with
    | bv w' Y =>
      refine ⟨w, X, w', Y, rfl, rfl, ?_⟩
      simp only [Value.type, binaryType] at h
      split at h
      · rename_i hk
        cases h
        exact .inl ⟨hk, rfl⟩
      rename_i hk
      split at h
      · cases h
      · rename_i hw
        exact .inr ⟨hk, (not_not.1 hw).symm⟩
    | bool | int | other => cases h
  | bool | int | other => cases h

/-! ## Validity of types -/

lemma binaryType_valid {t t' : TypeNode} (ht : t.Valid) (h : binaryType k t t' = some tn) :
    tn.Valid := by
  unfold binaryType at h
  split at h
  swap
  · cases h
  rename_i w w'
  have hw : 0 < w := ht
  split at h
  · cases h
    exact Nat.add_pos_left hw w'
  split at h
  · cases h
  split at h
  · cases h
    exact hw
  split at h
  · cases h
    trivial
  split at h
  · cases h
    exact Nat.one_pos
  · cases h

lemma chainType_valid (hts : ∀ t ∈ ts, t.Valid) (h : chainType k ts = some tn) : tn.Valid := by
  have hfold : ∀ (ts : List TypeNode) (t : TypeNode), t.Valid →
      ts.foldlM (binaryType k) t = some tn → tn.Valid := by
    intro ts
    induction ts with
    | nil =>
      intro t ht h
      cases h
      exact ht
    | cons t' ts ih =>
      intro t ht h
      rw [foldlM_cons] at h
      obtain ⟨t'', ht'', h⟩ := bind_inv h
      exact ih t'' (binaryType_valid ht ht'') h
  match ts with
  | [] => cases h
  | [_] => cases h
  | [t, t'] => exact binaryType_valid (hts t (by simp)) h
  | t :: t' :: t'' :: ts =>
    simp only [chainType] at h
    split at h
    · exact hfold _ t (hts t (by simp)) h
    · cases h

lemma bvType_valid (hR : ∀ w, 0 < w → ∀ T, R w = some T → T.Valid)
    (hts : ∀ t ∈ ts, t.Valid) (h : bvType R ts = some tn) : tn.Valid := by
  unfold bvType at h
  split at h
  · exact hR _ (hts (.bitVector _) (by simp)) tn h
  · cases h

lemma fixedType_valid (h : fixedType args T ts = some tn)
    (hT : T.Valid) : tn.Valid := (fixedType_inv h).2 ▸ hT

lemma translated_valid (t : TypeNode) (ht : t.Valid) : t.translated.Valid := by
  cases t with
  | bitVector => trivial
  | boolean | integer | other => exact ht

lemma typeOfKind_valid (hts : ∀ t ∈ ts, t.Valid) (h : typeOfKind ops k ts = some tn) :
    tn.Valid := by
  have hall : ∀ T : TypeNode, T.Valid → allType T ts = some tn → tn.Valid := by
    intro T hT h
    unfold allType at h
    split at h
    · cases h
      exact hT
    · cases h
  cases k with
  | bitvectorNot | bitvectorNeg =>
    refine bvType_valid (fun w hw T hT => ?_) hts h
    cases hT
    exact hw
  | bitvectorZeroExtend amount | bitvectorSignExtend amount =>
    refine bvType_valid (fun w hw T hT => ?_) hts h
    cases hT
    exact Nat.add_pos_left hw amount
  | bitvectorExtract high low =>
    refine bvType_valid (fun w hw T hT => ?_) hts h
    split at hT
    · cases hT
      exact Nat.succ_pos _
    · cases hT
  | bitvectorUbvToInt =>
    refine bvType_valid (fun w hw T hT => ?_) hts h
    cases hT
    trivial
  | intToBitvector size =>
    change (if 0 < size then fixedType [.integer] (.bitVector size) ts else none) = some tn at h
    split at h
    · rename_i hsize
      exact fixedType_valid h hsize
    · cases h
  | bitvectorIte =>
    change bvIteType ts = some tn at h
    unfold bvIteType at h
    split at h
    · split at h
      · cases h
        exact hts _ (by simp)
      · cases h
    · cases h
  | equal =>
    change equalType ts = some tn at h
    unfold equalType at h
    split at h
    · split at h
      · cases h
        trivial
      · cases h
    · cases h
  | ite =>
    change iteType ts = some tn at h
    unfold iteType at h
    split at h
    · split at h
      · cases h
        exact hts _ (by simp)
      · cases h
    · cases h
  | and | or => exact hall .boolean trivial h
  | add | mult => exact hall .integer trivial h
  | not | xor | implies | neg | pow2 | sub | intsDivisionTotal | intsModulusTotal | pow | iand
  | lt | leq | gt | geq => exact fixedType_valid h trivial
  | applyUf f => exact fixedType_valid h (ops.rangeType_valid f)
  | applyIntUf f => exact fixedType_valid h (translated_valid _ (ops.rangeType_valid f))
  | other s => exact ops.typeOf_valid s ts tn h
  | _ => exact chainType_valid hts h

/-! ## Two models that read each other -/

/-- The functions of the formula, and those of its translation, have values of their types. -/
structure Model.WellTyped (ops : Ops) (ρ : Model) : Prop where
  fn_type : ∀ f vs, vs.map Value.type = ops.argTypes f → (ρ.fn f vs).type = ops.rangeType f
  intFn_type : ∀ f vs, vs.map Value.type = (ops.argTypes f).map TypeNode.translated →
    (ρ.intFn f vs).type = (ops.rangeType f).translated

def Value.back : TypeNode → Value → Value
  | .bitVector w, .int z => .bv w (ofInt w z)
  | _, v => v

lemma type_back (h : v.type = T.translated) : (v.back T).type = T := by
  cases T with
  | bitVector w =>
    cases v with
    | int z => rfl
    | bool | bv | other => cases h
  | boolean | integer | other => exact h

lemma back_unsigned (v : Value) : v.unsigned.back v.type = v := by
  cases v with
  | bv w X => exact congrArg (Value.bv w) (ofInt_toNat X)
  | bool | int | other => rfl

/-- The first model has the values that the second one gives to the skolems. -/
structure ReadsBack (ops : Ops) (ρ ρ' : Model) : Prop where
  bool : ρ.bool = ρ'.bool
  int : ρ.int = ρ'.int
  other : ρ.other = ρ'.other
  bv : ∀ x w, ρ.bv x w = ofInt w (ρ'.purify (.app .bitvectorUbvToInt [.bvVar x w]))
  fn : ∀ f vs, vs.map Value.type = ops.argTypes f →
    ρ.fn f vs = (ρ'.intFn f (vs.map Value.unsigned)).back (ops.rangeType f)

/-- The second model gives the skolems the unsigned values of what they stand for. -/
structure Unsigned (ops : Ops) (ρ ρ' : Model) : Prop where
  bv : ρ'.bv = ρ.bv
  purified : Purified ops ρ'
  fn : ∀ f vs, vs.map Value.type = ops.argTypes f →
    ρ'.intFn f (vs.map Value.unsigned) = (ρ.fn f vs).unsigned

/-! ## Casts -/

lemma evaluates_castToType (hn : Evaluates ops ρ n v.unsigned) (hv : v.type.Valid)
    (h : castToType ops n v.type = some n') : Evaluates ops ρ n' v := by
  obtain ⟨t, ht, h⟩ := bind_inv h
  rw [hn.2] at ht
  cases ht
  cases v with
  | bv w X =>
    cases h
    have hcast := evaluates_intToBitvector hv hn
    rwa [ofInt_toNat] at hcast
  | bool | int =>
    cases h
    exact hn
  | other s e =>
    change (if TypeNode.other s = TypeNode.other s then some n else _) = some n' at h
    rw [if_pos rfl] at h
    cases h
    exact hn

lemma evaluates_castToType_translated (hn : Evaluates ops ρ n v)
    (h : castToType ops n v.type.translated = some n') : Evaluates ops ρ n' v.unsigned := by
  obtain ⟨t, ht, h⟩ := bind_inv h
  rw [hn.2] at ht
  cases ht
  cases v with
  | bv w X =>
    cases h
    exact hn.app₁ rfl rfl
  | bool | int =>
    cases h
    exact hn
  | other s e =>
    change (if TypeNode.other s = TypeNode.other s then some n else _) = some n' at h
    rw [if_pos rfl] at h
    cases h
    exact hn

lemma evaluateTo_castChildren (hcs : EvaluateTo ops ρ cs (vs.map Value.unsigned))
    (hvs : ∀ v ∈ vs, v.type.Valid) (h : castChildren ops cs (vs.map Value.type) = some cs') :
    EvaluateTo ops ρ cs' vs := by
  induction vs generalizing cs cs' with
  | nil =>
    match cs, hcs.length with
    | [], _ =>
      cases h
      exact evaluateTo_nil
  | cons v vs ih =>
    match cs, hcs.length with
    | c :: cs, _ =>
      obtain ⟨hc, hcs⟩ := evaluateTo_cons_inv hcs
      obtain ⟨hv, hvs⟩ := forall_mem_cons.1 hvs
      obtain ⟨c', hc', h⟩ := bind_inv h
      obtain ⟨cs'', hcs'', h⟩ := bind_inv h
      cases h
      exact (ih hcs hvs hcs'').cons (evaluates_castToType hc hv hc')

/-! ## One operator -/

def Step (ops : Ops) (ρ ρ' : Model) (k : Kind) (vs : List Value) (tn : TypeNode) (n : Node)
    (lemmas : List Node) : Prop :=
  (∀ l ∈ lemmas, Holds ops ρ' l) ∧
    ∃ v, valueOfKind ops ρ k vs = some v ∧ v.type = tn ∧ Evaluates ops ρ' n v.unsigned

/-- An operator that is not translated is applied to the children cast back. -/
lemma reconstructNode_step (hcs : EvaluateTo ops ρ' cs (vs.map Value.unsigned))
    (hvs : ∀ v ∈ vs, v.type.Valid) (ht : typeOfKind ops k (vs.map Value.type) = some tn)
    (hvalue : ∃ v, v.type = tn ∧ valueOfKind ops ρ k vs = some v ∧ valueOfKind ops ρ' k vs = some v)
    (h : (reconstructNode ops k (vs.map Value.type) tn.translated cs).map (·, []) =
      some (n, lemmas)) : Step ops ρ ρ' k vs tn n lemmas := by
  obtain ⟨v, rfl, hv, hv'⟩ := hvalue
  obtain ⟨m, hm, heq⟩ := map_inv h
  cases heq
  obtain ⟨cs', hcs', hm⟩ := bind_inv hm
  have happ := (evaluateTo_castChildren hcs hvs hcs').app hv' ht
  exact ⟨nofun, v, hv, rfl, evaluates_castToType_translated happ hm⟩

lemma applyUf_step {f : Nat} (hr : Sound ops rewrite) (hwt : ρ'.WellTyped ops)
    (hread : ReadsBack ops ρ ρ') (hcs : EvaluateTo ops ρ' cs (vs.map Value.unsigned))
    (ht : typeOfKind ops (.applyUf f) (vs.map Value.type) = some tn)
    (h : translateWithChildren ops opts rewrite (.applyUf f) (vs.map Value.type) tn cs =
      some (n, lemmas))
    (hl : Unsigned ops ρ ρ' ∨ ∀ l ∈ lemmas, Holds ops ρ' l) :
    Step ops ρ ρ' (.applyUf f) vs tn n lemmas := by
  obtain ⟨hargs, rfl⟩ := fixedType_inv ht
  have hargs' : (vs.map Value.unsigned).map Value.type =
      (ops.argTypes f).map TypeNode.translated := by rw [types_unsigned, hargs]
  have htype := hwt.intFn_type f _ hargs'
  have happ : Evaluates ops ρ' (.app (.applyIntUf f) cs) (ρ'.intFn f (vs.map Value.unsigned)) := by
    apply hcs.app rfl
    rw [htype]
    exact if_pos hargs'
  have hback := hread.fn f vs hargs
  suffices hkey : (∀ l ∈ lemmas, Holds ops ρ' l) ∧
      ρ'.intFn f (vs.map Value.unsigned) = (ρ.fn f vs).unsigned ∧
      Evaluates ops ρ' n (ρ'.intFn f (vs.map Value.unsigned)) by
    refine ⟨hkey.1, _, rfl, ?_, hkey.2.1 ▸ hkey.2.2⟩
    rw [hback]
    exact type_back htype
  cases hT : ops.rangeType f with
  | bitVector w =>
    rw [hT] at htype hback h
    cases h
    cases hint : ρ'.intFn f (vs.map Value.unsigned) with
    | int z =>
      rw [hint] at happ hback
      have hrange := holds_mkRangeConstraint hr happ w
      rcases hl with hu | hl
      · have hfn := hu.fn f vs hargs
        rw [hint] at hfn
        refine ⟨?_, hfn, happ⟩
        rw [List.forall_mem_singleton, hrange]
        rw [hback] at hfn
        have hz : z = (ofInt w z).toNat := Value.int.inj hfn
        rw [hz]
        exact ⟨natCast_nonneg _, toNat_lt_int _⟩
      refine ⟨hl, ?_, happ⟩
      obtain ⟨hnonneg, hlt⟩ := hrange.1 (hl _ (.head _))
      rw [hback]
      change Value.int z = .int (ofInt w z).toNat
      rw [toNat_ofInt_int, emod_eq_of_lt hnonneg hlt]
    | bool | bv | other =>
      rw [hint] at htype
      cases htype
  | boolean | integer | other =>
    rw [hT] at htype hback h
    cases h
    refine ⟨nofun, ?_, happ⟩
    rw [hback]
    cases hint : ρ'.intFn f (vs.map Value.unsigned) with
    | bool | int | other => rfl
    | bv =>
      rw [hint] at htype
      cases htype

lemma binary_step (hr : Sound ops rewrite) (hvs : ∀ v ∈ vs, v.type.Valid)
    (hk : k ≠ .bitvectorConcat) (ht : chainType k (vs.map Value.type) = some tn)
    (hvalue : valueOfKind ops ρ k vs = chainValue k vs)
    (hcs : EvaluateTo ops ρ' [x, y] (vs.map Value.unsigned))
    (h : (bvsize? (vs.map Value.type)).bind (translateBinary opts rewrite k x y) = some (n, lemmas))
    (hl : Purified ops ρ' ∨ ∀ l ∈ lemmas, Holds ops ρ' l) : Step ops ρ ρ' k vs tn n lemmas := by
  match vs, hcs.length with
  | [v, v'], _ =>
    obtain ⟨w, X, w', Y, rfl, rfl, hcase⟩ := binaryType_inv ht
    obtain ⟨-, rfl⟩ := hcase.resolve_left fun h' => hk h'.1
    obtain ⟨x', y', heq, hx, hy⟩ := hcs.two
    cases heq
    obtain ⟨hlemmas, v, hv, htv, hn⟩ :=
      translateBinary_same hr (hvs (.bv w' X) (by simp)) hx hy h hl
    exact ⟨hlemmas, v, hvalue.trans hv, Option.some.inj (htv.symm.trans ht), hn⟩

lemma translateWithChildren_step (hr : Sound ops rewrite) (hwt : ρ'.WellTyped ops)
    (hread : ReadsBack ops ρ ρ') (hvs : ∀ v ∈ vs, v.type.Valid)
    (hcs : EvaluateTo ops ρ' cs (vs.map Value.unsigned))
    (ht : typeOfKind ops k (vs.map Value.type) = some tn)
    (h : translateWithChildren ops opts rewrite k (vs.map Value.type) tn cs = some (n, lemmas))
    (hl : Unsigned ops ρ ρ' ∨ ∀ l ∈ lemmas, Holds ops ρ' l) : Step ops ρ ρ' k vs tn n lemmas := by
  have hpure : Purified ops ρ' ∨ ∀ l ∈ lemmas, Holds ops ρ' l := hl.imp_left Unsigned.purified
  cases k with
  | bitvectorNot =>
    obtain ⟨w, X, rfl, hw⟩ := bvType_inv ht
    cases hw
    obtain ⟨x, rfl, hx⟩ := hcs.one
    cases h
    exact ⟨nofun, _, rfl, rfl, evaluates_createBVNotNode hx⟩
  | bitvectorNeg =>
    obtain ⟨w, X, rfl, hw⟩ := bvType_inv ht
    cases hw
    obtain ⟨x, rfl, hx⟩ := hcs.one
    cases h
    exact ⟨nofun, _, rfl, rfl, evaluates_createBVNegNode hx⟩
  | bitvectorZeroExtend amount =>
    obtain ⟨w, X, rfl, hw⟩ := bvType_inv ht
    cases hw
    obtain ⟨x, rfl, hx⟩ := hcs.one
    cases h
    refine ⟨nofun, _, rfl, rfl, hx.congr ?_⟩
    have hle : 2 ^ w ≤ 2 ^ (w + amount) := Nat.pow_le_pow_right (by omega) (by omega)
    have hlt := X.isLt
    rw [BitVec.toNat_setWidth, mod_eq_of_lt (by omega)]
  | bitvectorSignExtend amount =>
    obtain ⟨w, X, rfl, hw⟩ := bvType_inv ht
    cases hw
    obtain ⟨x, rfl, hx⟩ := hcs.one
    cases h
    exact ⟨nofun, _, rfl, rfl, evaluates_createSignExtendNode hx amount⟩
  | bitvectorExtract high low =>
    obtain ⟨w, X, rfl, hw⟩ := bvType_inv ht
    obtain ⟨x, rfl, hx⟩ := hcs.one
    cases h
    split at hw
    · cases hw
      exact ⟨nofun, _, rfl, rfl, (evaluates_mod (evaluates_div hx (evaluates_pow2Node low))
        (evaluates_pow2Node _)).congr (toNat_extractLsb'_int X _ _).symm⟩
    · cases hw
  | bitvectorUbvToInt =>
    obtain ⟨w, X, rfl, hw⟩ := bvType_inv ht
    cases hw
    obtain ⟨x, rfl, hx⟩ := hcs.one
    cases h
    exact ⟨nofun, _, rfl, rfl, hx⟩
  | intToBitvector size =>
    change (if 0 < size then fixedType [.integer] (.bitVector size) _ else none) = some tn at ht
    split at ht
    swap
    · cases ht
    obtain ⟨hts, rfl⟩ := fixedType_inv ht
    obtain ⟨z, rfl⟩ := int_of_types hts
    obtain ⟨x, rfl, hx⟩ := hcs.one
    cases h
    exact ⟨nofun, _, rfl, rfl,
      (evaluates_mod hx (evaluates_pow2Node size)).congr (toNat_ofInt_int size z).symm⟩
  | bitvectorIte =>
    obtain ⟨p, w, X, Y, rfl, rfl⟩ := bvIteType_inv ht
    match cs, hcs.length with
    | [c, x, y], _ =>
      obtain ⟨hc, hcs⟩ := evaluateTo_cons_inv hcs
      obtain ⟨x', y', heq, hx, hy⟩ := hcs.two
      cases heq
      cases h
      refine ⟨nofun, .bv w (if p = 1 then X else Y), dif_pos rfl, rfl, ?_⟩
      apply (evaluates_ite hx hy (evaluates_equal hc (evaluates_constInt 1))).congr
      have hone : ((p.toNat : Int) = 1) ↔ p = 1 := by
        rw [← toNat_inj]
        exact_mod_cast Iff.rfl
      simp only [decide_eq_true_eq, hone]
      split <;> rfl
  | bitvectorConcat =>
    match vs, cs, hcs.length with
    | [], [], _ => cases ht
    | [_], [_], _ => cases ht
    | v :: v' :: v'' :: vs, c :: c' :: c'' :: cs, _ => cases h
    | [v, v'], [x, y], _ =>
      obtain ⟨w, X, w', Y, rfl, rfl, hcase⟩ := binaryType_inv ht
      obtain ⟨-, rfl⟩ := hcase.resolve_right fun h' => h'.1 rfl
      obtain ⟨x', y', heq, hx, hy⟩ := hcs.two
      cases heq
      cases h
      exact ⟨nofun, _, rfl, rfl, (evaluates_add (evaluates_mult hx (evaluates_pow2Node w'))
        hy).congr (toNat_append_int X Y).symm⟩
  | equal =>
    obtain ⟨v, v', rfl, htype, rfl⟩ := equalType_inv ht
    obtain ⟨x, y, rfl, hx, hy⟩ := hcs.two
    cases h
    have hiff : v.unsigned = v'.unsigned ↔ v = v' := by
      refine ⟨fun heq => ?_, congrArg _⟩
      rw [← back_unsigned v, ← back_unsigned v', heq, htype]
    refine ⟨nofun, _, rfl, rfl, hx.app₂ hy ?_ ?_⟩
    · change some (Value.bool (decide (v.unsigned = v'.unsigned))) =
        some (Value.bool (decide (v = v')))
      simp only [hiff]
    · rw [type_unsigned, type_unsigned, htype]
      exact if_pos rfl
  | ite =>
    obtain ⟨p, v, v', rfl, htype, rfl⟩ := iteType_inv ht
    match cs, hcs.length with
    | [c, x, y], _ =>
      cases h
      refine ⟨nofun, if p then v else v', rfl, by cases p <;> simp [htype], ?_⟩
      apply hcs.app
      · cases p <;> rfl
      simp only [map_cons, List.map_nil, type_unsigned, htype]
      refine (if_pos rfl).trans ?_
      cases p <;> simp [htype]
  | applyUf f => exact applyUf_step hr hwt hread hcs ht h hl
  | applyIntUf => cases h
  | not =>
    obtain ⟨hts, rfl⟩ := fixedType_inv ht
    obtain ⟨p, rfl⟩ := bool_of_types hts
    exact reconstructNode_step hcs hvs ht ⟨_, rfl, rfl, rfl⟩ h
  | xor | implies =>
    obtain ⟨hts, rfl⟩ := fixedType_inv ht
    obtain ⟨p, q, rfl⟩ := bools_of_types hts
    exact reconstructNode_step hcs hvs ht ⟨_, rfl, rfl, rfl⟩ h
  | and | or =>
    obtain ⟨hall, rfl⟩ := allType_inv ht
    obtain ⟨bs, hbs⟩ := exists_bools hall
    have hvalue := congrArg (Option.map fun bs => Value.bool (bs.all id)) hbs
    have hvalue' := congrArg (Option.map fun bs => Value.bool (bs.any id)) hbs
    first
      | exact reconstructNode_step hcs hvs ht ⟨_, rfl, hvalue, hvalue⟩ h
      | exact reconstructNode_step hcs hvs ht ⟨_, rfl, hvalue', hvalue'⟩ h
  | add | mult =>
    obtain ⟨hall, rfl⟩ := allType_inv ht
    obtain ⟨zs, hzs⟩ := exists_ints hall
    have hvalue := congrArg (Option.map fun zs => Value.int zs.sum) hzs
    have hvalue' := congrArg (Option.map fun zs => Value.int zs.prod) hzs
    first
      | exact reconstructNode_step hcs hvs ht ⟨_, rfl, hvalue, hvalue⟩ h
      | exact reconstructNode_step hcs hvs ht ⟨_, rfl, hvalue', hvalue'⟩ h
  | neg | pow2 =>
    obtain ⟨hts, rfl⟩ := fixedType_inv ht
    obtain ⟨z, rfl⟩ := int_of_types hts
    exact reconstructNode_step hcs hvs ht ⟨_, rfl, rfl, rfl⟩ h
  | sub | intsDivisionTotal | intsModulusTotal | pow | iand | lt | leq | gt | geq =>
    obtain ⟨hts, rfl⟩ := fixedType_inv ht
    obtain ⟨z, z', rfl⟩ := ints_of_types hts
    exact reconstructNode_step hcs hvs ht ⟨_, rfl, rfl, rfl⟩ h
  | other s =>
    obtain ⟨v, hv, htv⟩ := ops.value_of_typeOf s vs tn ht
    exact reconstructNode_step hcs hvs ht ⟨v, htv, hv, hv⟩ h
  | _ =>
    match cs, h with
    | [x, y], h => exact binary_step hr hvs nofun ht rfl hcs h hpure
    | [], h => cases h
    | [_], h => cases h
    | _ :: _ :: _ :: _, h => cases h

/-! ## Terms -/

mutual

lemma translate_same (hr : Sound ops rewrite) (hwt : ρ'.WellTyped ops) (hread : ReadsBack ops ρ ρ')
    (n n' : Node) (lemmas : List Node) (hn : n.source)
    (h : translate ops opts rewrite n = some (n', lemmas))
    (hl : Unsigned ops ρ ρ' ∨ ∀ l ∈ lemmas, Holds ops ρ' l) :
    (∀ l ∈ lemmas, Holds ops ρ' l) ∧
      ∃ v, Evaluates ops ρ n v ∧ v.type.Valid ∧ Evaluates ops ρ' n' v.unsigned := by
  cases n with
  | boolVar x =>
    cases h
    exact ⟨nofun, .bool (ρ.bool x), ⟨rfl, rfl⟩, trivial, by rw [hread.bool]; exact ⟨rfl, rfl⟩⟩
  | intVar x =>
    cases h
    exact ⟨nofun, .int (ρ.int x), ⟨rfl, rfl⟩, trivial, by rw [hread.int]; exact ⟨rfl, rfl⟩⟩
  | otherVar s x =>
    cases h
    exact ⟨nofun, .other s (ρ.other s x), ⟨rfl, rfl⟩, trivial,
      by rw [hread.other]; exact ⟨rfl, rfl⟩⟩
  | constBool p =>
    cases h
    exact ⟨nofun, .bool p, ⟨rfl, rfl⟩, trivial, ⟨rfl, rfl⟩⟩
  | constInt z =>
    cases h
    exact ⟨nofun, .int z, ⟨rfl, rfl⟩, trivial, ⟨rfl, rfl⟩⟩
  | constBV w X =>
    rw [translate] at h
    split at h
    · rename_i hw
      cases h
      exact ⟨nofun, .bv w X, ⟨rfl, if_pos hw⟩, hw, ⟨rfl, rfl⟩⟩
    · cases h
  | purify n => cases hn
  | bvVar x w =>
    rw [translate] at h
    split at h
    swap
    · cases h
    rename_i hw
    cases h
    have hskolem : Evaluates ops ρ' (.purify (.app .bitvectorUbvToInt [.bvVar x w]))
      (.int (ρ'.purify (.app .bitvectorUbvToInt [.bvVar x w]))) := ⟨rfl, rfl⟩
    have hrange := holds_mkRangeConstraint hr hskolem w
    have hbv := hread.bv x w
    have hsource : Evaluates ops ρ (.bvVar x w) (.bv w (ρ.bv x w)) := ⟨rfl, if_pos hw⟩
    rcases hl with hu | hl
    · have hval : ρ'.purify (.app .bitvectorUbvToInt [.bvVar x w]) = (ρ.bv x w).toNat := by
        rw [← hu.bv]
        exact hu.purified _ _ rfl
      rw [hval] at hskolem hrange
      refine ⟨?_, _, hsource, hw, hskolem⟩
      rw [List.forall_mem_singleton, hrange]
      exact ⟨natCast_nonneg _, toNat_lt_int _⟩
    · obtain ⟨hnonneg, hlt⟩ := hrange.1 (hl _ (.head _))
      refine ⟨hl, _, hsource, hw, hskolem.congr ?_⟩
      rw [hbv, toNat_ofInt_int, emod_eq_of_lt hnonneg hlt]
  | app k cs =>
    rw [translate] at h
    obtain ⟨ts, hts, h⟩ := bind_inv h
    obtain ⟨tn, htn, h⟩ := bind_inv h
    obtain ⟨⟨cs', lemmas1⟩, hcs', h⟩ := bind_inv h
    dsimp only at h
    split at h
    · cases h
    obtain ⟨⟨m, lemmas2⟩, hm, h⟩ := bind_inv h
    cases h
    have hsources : sources cs := by
      cases k with
      | applyIntUf => cases hn
      | _ => exact hn
    obtain ⟨hlemmas1, vs, hvs, hvalid, hvs'⟩ :=
      translates_same hr hwt hread cs cs' lemmas1 hsources hcs'
        (hl.imp_right fun hl l hmem => hl l (List.mem_append_left _ hmem))
    rw [hvs.2] at hts
    cases hts
    obtain ⟨hlemmas2, v, hv, rfl, hnode⟩ :=
      translateWithChildren_step hr hwt hread hvalid hvs' htn hm
        (hl.imp_right fun hl l hmem => hl l (List.mem_append_right _ hmem))
    refine ⟨List.forall_mem_append.2 ⟨hlemmas1, hlemmas2⟩, v, hvs.app hv htn, ?_, hnode⟩
    apply typeOfKind_valid ?_ htn
    rw [List.forall_mem_map]
    exact hvalid

lemma translates_same (hr : Sound ops rewrite) (hwt : ρ'.WellTyped ops)
    (hread : ReadsBack ops ρ ρ') (cs cs' lemmas : List Node) (hcs : sources cs)
    (h : translates ops opts rewrite cs = some (cs', lemmas))
    (hl : Unsigned ops ρ ρ' ∨ ∀ l ∈ lemmas, Holds ops ρ' l) :
    (∀ l ∈ lemmas, Holds ops ρ' l) ∧ ∃ vs, EvaluateTo ops ρ cs vs ∧ (∀ v ∈ vs, v.type.Valid) ∧
      EvaluateTo ops ρ' cs' (vs.map Value.unsigned) := by
  cases cs with
  | nil =>
    cases h
    exact ⟨nofun, [], evaluateTo_nil, nofun, evaluateTo_nil⟩
  | cons c cs =>
    rw [sources, and_eq_true] at hcs
    rw [translates] at h
    obtain ⟨⟨c', lemmas1⟩, hc', h⟩ := bind_inv h
    obtain ⟨⟨cs'', lemmas2⟩, hcs'', h⟩ := bind_inv h
    cases h
    obtain ⟨hlemmas1, v, hv, hvalid, hv'⟩ := translate_same hr hwt hread c c' lemmas1 hcs.1 hc'
      (hl.imp_right fun hl l hmem => hl l (List.mem_append_left _ hmem))
    obtain ⟨hlemmas2, vs, hvs, hvalids, hvs'⟩ :=
      translates_same hr hwt hread cs cs'' lemmas2 hcs.2 hcs''
        (hl.imp_right fun hl l hmem => hl l (List.mem_append_right _ hmem))
    exact ⟨List.forall_mem_append.2 ⟨hlemmas1, hlemmas2⟩, v :: vs, hvs.cons hv,
      forall_mem_cons.2 ⟨hvalid, hvalids⟩, hvs'.cons hv'⟩

end

/-! ## Subterms -/

lemma source_of_mem {c : Node} (h : sources cs) (hc : c ∈ cs) : c.source := by
  induction cs with
  | nil => cases hc
  | cons d cs ih =>
    rw [sources, and_eq_true] at h
    rcases mem_cons.1 hc with rfl | hc
    · exact h.1
    · exact ih h.2 hc

lemma source_of_subterm (h : Subterm s n) (hn : n.source) : s.source := by
  induction h with
  | refl => exact hn
  | @child c k cs hc _ ih =>
    refine ih (source_of_mem ?_ hc)
    cases k with
    | applyIntUf => cases hn
    | _ => exact hn

lemma translates_mem (h : translates ops opts rewrite cs = some (cs', lemmas)) (hc : c ∈ cs) :
    ∃ c' lemmas', translate ops opts rewrite c = some (c', lemmas') ∧ lemmas' ⊆ lemmas := by
  induction cs generalizing cs' lemmas with
  | nil => cases hc
  | cons d cs ih =>
    rw [translates] at h
    obtain ⟨⟨c', lemmas1⟩, hc', h⟩ := bind_inv h
    obtain ⟨⟨cs'', lemmas2⟩, hcs'', h⟩ := bind_inv h
    cases h
    rcases mem_cons.1 hc with rfl | hc
    · exact ⟨c', lemmas1, hc', List.subset_append_left _ _⟩
    · obtain ⟨c', lemmas', hc', hsub⟩ := ih hcs'' hc
      exact ⟨c', lemmas', hc', List.Subset.trans hsub (List.subset_append_right _ _)⟩

lemma translate_subterm (hs : Subterm s n) (h : translate ops opts rewrite n = some (n', lemmas)) :
    ∃ s' lemmas', translate ops opts rewrite s = some (s', lemmas') ∧ lemmas' ⊆ lemmas := by
  induction hs generalizing n' lemmas with
  | refl => exact ⟨n', lemmas, h, List.Subset.refl _⟩
  | child hc _ ih =>
    rw [translate] at h
    obtain ⟨ts, _, h⟩ := bind_inv h
    obtain ⟨tn, _, h⟩ := bind_inv h
    obtain ⟨⟨cs', lemmas1⟩, hcs', h⟩ := bind_inv h
    dsimp only at h
    split at h
    · cases h
    obtain ⟨⟨m, lemmas2⟩, _, h⟩ := bind_inv h
    cases h
    obtain ⟨c', lemmas', hc', hsub⟩ := translates_mem hcs' hc
    obtain ⟨s', lemmas'', hs', hsub'⟩ := ih hc'
    exact ⟨s', lemmas'', hs',
      List.Subset.trans hsub' (List.Subset.trans hsub (List.subset_append_left _ _))⟩

/-! ## Binary terms -/

lemma valueOfKind_chained (hk : chained k) (vs : List Value) :
    valueOfKind ops ρ k vs = chainValue k vs := by
  cases k with
  | bitvectorAdd | bitvectorMult | bitvectorAnd | bitvectorOr | bitvectorXor | bitvectorConcat => rfl
  | _ => cases hk

lemma chainValue_eq (hk : chained k) (v v' : Value) (vs : List Value) :
    chainValue k (v :: v' :: vs) = (v' :: vs).foldlM (binaryValue k) v := by
  cases vs with
  | nil => rw [foldlM_cons, chainValue]; simp
  | cons v'' vs => rw [chainValue, if_pos hk]; nofun

lemma value_chain_two (hk : chained k) (r c c' : Node) (cs : List Node) :
    (Node.app k (.app k [r, c] :: c' :: cs)).value ops ρ =
      (Node.app k (r :: c :: c' :: cs)).value ops ρ := by
  have hvalue : valueOfKind ops ρ k = chainValue k := funext (valueOfKind_chained hk)
  simp only [value, values, hvalue]
  cases r.value ops ρ with
  | none => rfl
  | some v =>
    cases c.value ops ρ with
    | none => rfl
    | some v' =>
      cases c'.value ops ρ with
      | none => simp
      | some v'' =>
        cases values ops ρ cs with
        | none => simp
        | some vs =>
          simp only [bind_some, map_some, chainValue_eq hk, foldlM_cons, List.foldlM_nil]
          cases binaryValue k v v' with
          | none => rfl
          | some m =>
            simp only [bind_pure, bind_some, chainValue_eq hk, foldlM_cons]
            rfl

lemma value_chainBinary (hk : chained k) (r c : Node) (cs : List Node) :
    (chainBinary k r (c :: cs)).value ops ρ = (Node.app k (r :: c :: cs)).value ops ρ := by
  induction cs generalizing r c with
  | nil => rfl
  | cons c' cs ih => rw [chainBinary, ih, value_chain_two hk]

lemma value_makeBinaryApp (k : Kind) (cs : List Node) :
    (makeBinaryApp k cs).value ops ρ = (Node.app k cs).value ops ρ := by
  unfold makeBinaryApp
  split
  swap
  · rfl
  split
  · rename_i hk
    exact value_chainBinary hk _ _ _
  · rfl

mutual

lemma value_makeBinary (n : Node) : (makeBinary n).value ops ρ = n.value ops ρ := by
  cases n with
  | app k cs => rw [makeBinary, value_makeBinaryApp, value, value, values_makeBinaries cs]
  | boolVar | intVar | bvVar | otherVar | constBool | constInt | constBV | purify => rfl

lemma values_makeBinaries (cs : List Node) : values ops ρ (makeBinaries cs) = values ops ρ cs := by
  cases cs with
  | nil => rfl
  | cons c cs => rw [makeBinaries, values, values, value_makeBinary c, values_makeBinaries cs]

end

lemma sources_of_app (h : (Node.app k cs).source) : sources cs := by
  cases k with
  | applyIntUf => cases h
  | _ => exact h

lemma source_chainBinary (hk : chained k) (r : Node) (hr : r.source) (cs : List Node)
    (h : sources cs) : (chainBinary k r cs).source := by
  induction cs generalizing r with
  | nil => exact hr
  | cons c cs ih =>
    rw [sources, and_eq_true] at h
    refine ih _ ?_ h.2
    have hrc : sources [r, c] := by simp [sources, hr, h.1]
    cases k with
    | applyIntUf => cases hk
    | _ => exact hrc

lemma source_makeBinaryApp (h : (Node.app k cs).source) : (makeBinaryApp k cs).source := by
  unfold makeBinaryApp
  split
  swap
  · exact h
  split
  swap
  · exact h
  rename_i c c' c'' cs hk
  have hcs := sources_of_app h
  rw [sources, and_eq_true] at hcs
  exact source_chainBinary hk c hcs.1 _ hcs.2

mutual

lemma source_makeBinary (n : Node) (h : n.source) : (makeBinary n).source := by
  cases n with
  | app k cs =>
    apply source_makeBinaryApp
    have hcs := sources_makeBinaries cs (sources_of_app h)
    cases k with
    | applyIntUf => cases h
    | _ => exact hcs
  | boolVar | intVar | bvVar | otherVar | constBool | constInt | constBV | purify => exact h

lemma sources_makeBinaries (cs : List Node) (h : sources cs) : sources (makeBinaries cs) := by
  cases cs with
  | nil => rfl
  | cons c cs =>
    rw [sources, and_eq_true] at h
    rw [makeBinaries, sources, source_makeBinary c h.1, sources_makeBinaries cs h.2]
    rfl

end

/-! ## Models of the two formulas -/

lemma type_zipWith_back (h : vs.map Value.type = args.map TypeNode.translated) :
    (zipWith Value.back args vs).map Value.type = args := by
  induction args generalizing vs with
  | nil => rfl
  | cons T args ih =>
    match vs, h with
    | v :: vs, h =>
      rw [map_cons, map_cons, List.cons.injEq] at h
      rw [List.zipWith_cons_cons, map_cons, type_back h.1, ih h.2]

lemma zipWith_back_unsigned (vs : List Value) :
    zipWith Value.back (vs.map Value.type) (vs.map Value.unsigned) = vs := by
  induction vs with
  | nil => rfl
  | cons v vs ih => rw [map_cons, map_cons, List.zipWith_cons_cons, back_unsigned, ih]

def Value.toInt : Option Value → Int
  | some (.int z) => z
  | _ => 0

/-- The functions on integers that a bit-vector model makes of the functions on bit-vectors. -/
def Model.unsignedFns (ops : Ops) (ρ : Model) : Model :=
  { ρ with
    intFn := fun f vs => (ρ.fn f (List.zipWith Value.back (ops.argTypes f) vs)).unsigned }

mutual

/-- The value of a node where the purification skolems denote the terms that they stand for. -/
def skolemValue (ops : Ops) (ρ : Model) : Node → Option Value
  | .boolVar x => some (.bool (ρ.bool x))
  | .intVar x => some (.int (ρ.int x))
  | .bvVar x w => some (.bv w (ρ.bv x w))
  | .otherVar s x => some (.other s (ρ.other s x))
  | .constBool b => some (.bool b)
  | .constInt z => some (.int z)
  | .constBV w x => some (.bv w x)
  | .purify n => some (.int (Value.toInt (skolemValue ops ρ n)))
  | .app k cs => (skolemValues ops ρ cs).bind (valueOfKind ops ρ k)

def skolemValues (ops : Ops) (ρ : Model) : List Node → Option (List Value)
  | [] => some []
  | c :: cs => (skolemValue ops ρ c).bind fun v => (skolemValues ops ρ cs).map (v :: ·)

end

/-- The integer model that a bit-vector model is turned into. -/
def Model.unsigned (ops : Ops) (ρ : Model) : Model :=
  { ρ.unsignedFns ops with purify := fun n => Value.toInt (skolemValue ops (ρ.unsignedFns ops) n) }

/-- The bit-vector model that an integer model is turned into. -/
def Model.readBack (ops : Ops) (ρ : Model) : Model :=
  { ρ with
    bv := fun x w => ofInt w (ρ.purify (.app .bitvectorUbvToInt [.bvVar x w]))
    fn := fun f vs => (ρ.intFn f (vs.map Value.unsigned)).back (ops.rangeType f) }

lemma valueOfKind_unsigned (vs : List Value) :
    valueOfKind ops (ρ.unsigned ops) k vs = valueOfKind ops (ρ.unsignedFns ops) k vs := by
  cases k <;> rfl

mutual

lemma value_unsigned (n : Node) :
    n.value ops (ρ.unsigned ops) = skolemValue ops (ρ.unsignedFns ops) n := by
  cases n with
  | app k cs =>
    rw [value, skolemValue, values_unsigned cs]
    exact congrArg _ (funext valueOfKind_unsigned)
  | boolVar | intVar | bvVar | otherVar | constBool | constInt | constBV | purify => rfl

lemma values_unsigned (cs : List Node) :
    values ops (ρ.unsigned ops) cs = skolemValues ops (ρ.unsignedFns ops) cs := by
  cases cs with
  | nil => rfl
  | cons c cs => rw [values, skolemValues, value_unsigned c, values_unsigned cs]

end

lemma unsigned_purified (ρ : Model) : Purified ops (ρ.unsigned ops) := by
  intro n z hz
  rw [value_unsigned] at hz
  exact congrArg Value.toInt hz

lemma unsigned_wellTyped (hρ : ρ.WellTyped ops) : (ρ.unsigned ops).WellTyped ops where
  fn_type := hρ.fn_type
  intFn_type f vs h := by
    rw [← hρ.fn_type f _ (type_zipWith_back h)]
    exact type_unsigned _

lemma unsigned_unsigned (ρ : Model) : Unsigned ops ρ (ρ.unsigned ops) where
  bv := rfl
  purified := unsigned_purified ρ
  fn f vs h := by
    change (ρ.fn f (zipWith Value.back (ops.argTypes f) (vs.map Value.unsigned))).unsigned = _
    rw [← h, zipWith_back_unsigned]

lemma readsBack_unsigned (hρ : ρ.WellTyped ops) : ReadsBack ops ρ (ρ.unsigned ops) where
  bool := rfl
  int := rfl
  other := rfl
  bv x w := (ofInt_toNat (ρ.bv x w)).symm
  fn f vs h := by
    rw [(unsigned_unsigned ρ).fn f vs h, ← hρ.fn_type f vs h, back_unsigned]

lemma readsBack_readBack (ρ' : Model) : ReadsBack ops (ρ'.readBack ops) ρ' where
  bool := rfl
  int := rfl
  other := rfl
  bv _ _ := rfl
  fn _ _ _ := rfl

lemma readBack_wellTyped (hρ' : ρ'.WellTyped ops) : (ρ'.readBack ops).WellTyped ops where
  fn_type f vs h := type_back (hρ'.intFn_type f _ (by rw [types_unsigned, h]))
  intFn_type := hρ'.intFn_type

/-- The translation of the subterm has the unsigned value of the subterm. -/
def Represents (ops : Ops) (opts : Options) (rewrite : Node → Node) (ρ ρ' : Model) (s : Node) :
    Prop :=
  ∃ s' lemmas v, translate ops opts rewrite s = some (s', lemmas) ∧ s.value ops ρ = some v ∧
    s'.value ops ρ' = some v.unsigned

lemma represents_of_subterm (hr : Sound ops rewrite) (hwt : ρ'.WellTyped ops)
    (hread : ReadsBack ops ρ ρ') (hn : n.source)
    (h : translate ops opts rewrite n = some (n', lemmas))
    (hl : Unsigned ops ρ ρ' ∨ ∀ l ∈ lemmas, Holds ops ρ' l) (hs : Subterm s n) :
    Represents ops opts rewrite ρ ρ' s := by
  obtain ⟨s', lemmas', hs', hsub⟩ := translate_subterm hs h
  obtain ⟨_, v, hv, _, hv'⟩ := translate_same hr hwt hread s s' lemmas' (source_of_subterm hs hn) hs'
    (hl.imp_right fun hl l hmem => hl l (hsub hmem))
  exact ⟨s', lemmas', v, hs', hv.1, hv'.1⟩

lemma holds_iff_of_translate (hr : Sound ops rewrite) (hwt : ρ'.WellTyped ops)
    (hread : ReadsBack ops ρ ρ') (hn : n.source)
    (h : intBlast ops opts rewrite n = some (n', lemmas))
    (hl : Unsigned ops ρ ρ' ∨ ∀ l ∈ lemmas, Holds ops ρ' l) :
    (∀ l ∈ lemmas, Holds ops ρ' l) ∧ (Holds ops ρ n ↔ Holds ops ρ' n') := by
  obtain ⟨hlemmas, v, hv, _, hv'⟩ := translate_same hr hwt hread _ n' lemmas
    (source_makeBinary n hn) h hl
  refine ⟨hlemmas, ?_⟩
  rw [Holds, Holds, ← value_makeBinary, hv.1, hv'.1]
  cases v <;> simp [Value.unsigned]

/-- A model of the formula gives a model of the translated formula and its lemmas, and a model of
these gives a model of the formula; either way the translation of every subterm has the
unsigned value of the subterm. -/
theorem intBlast_models (hr : Sound ops rewrite) (hn : n.source)
    (h : intBlast ops opts rewrite n = some (n', lemmas)) :
    (∀ ρ : Model, ρ.WellTyped ops → (ρ.unsigned ops).WellTyped ops ∧
      (∀ l ∈ lemmas, Holds ops (ρ.unsigned ops) l) ∧
      (Holds ops ρ n ↔ Holds ops (ρ.unsigned ops) n') ∧
      ∀ s, Subterm s (makeBinary n) → Represents ops opts rewrite ρ (ρ.unsigned ops) s) ∧
    (∀ ρ' : Model, ρ'.WellTyped ops → (∀ l ∈ lemmas, Holds ops ρ' l) →
      (ρ'.readBack ops).WellTyped ops ∧
      (Holds ops (ρ'.readBack ops) n ↔ Holds ops ρ' n') ∧
      ∀ s, Subterm s (makeBinary n) → Represents ops opts rewrite (ρ'.readBack ops) ρ' s) := by
  constructor
  · intro ρ hρ
    have hwt := unsigned_wellTyped hρ
    have hread := readsBack_unsigned hρ
    have hu : Unsigned ops ρ (ρ.unsigned ops) := unsigned_unsigned ρ
    obtain ⟨hlemmas, hiff⟩ := holds_iff_of_translate hr hwt hread hn h (.inl hu)
    exact ⟨hwt, hlemmas, hiff, fun s hs =>
      represents_of_subterm hr hwt hread (source_makeBinary n hn) h (.inl hu) hs⟩
  · intro ρ' hρ' hl
    have hread : ReadsBack ops (ρ'.readBack ops) ρ' := readsBack_readBack ρ'
    obtain ⟨_, hiff⟩ := holds_iff_of_translate hr hρ' hread hn h (.inr hl)
    exact ⟨readBack_wellTyped hρ', hiff, fun s hs =>
      represents_of_subterm hr hρ' hread (source_makeBinary n hn) h (.inr hl) hs⟩

def noOps : Ops where
  argTypes _ := []
  rangeType _ := .boolean
  typeOf _ _ := none
  value _ _ := none
  rangeType_valid _ := trivial
  typeOf_valid _ _ _ := nofun
  value_of_typeOf _ _ _ := nofun

/-- `x & y < x` at the width two. -/
def andLess : Node :=
  .app .bitvectorUlt [.app .bitvectorAnd [.bvVar 0 2, .bvVar 1 2], .bvVar 0 2]

theorem intBlast_models_andLess :
    ∃ n' lemmas, intBlast noOps ⟨.bitwise, 1, false⟩ id andLess = some (n', lemmas) ∧
      ∀ ρ : Model, ρ.WellTyped noOps → ∀ l ∈ lemmas, Holds noOps (ρ.unsigned noOps) l := by
  have h : intBlast noOps ⟨.bitwise, 1, false⟩ id andLess = some _ := rfl
  have hid : Sound noOps id := ⟨fun _ _ _ h => h⟩
  exact ⟨_, _, h, fun ρ hρ => ((intBlast_models hid rfl h).1 ρ hρ).2.1⟩

end EthosCpc.Cvc5.IntBlaster
