import EthosCpc.Cvc5.IntToBV
import Mathlib.Algebra.Order.Ring.Abs
import Mathlib.Tactic.Linarith
import Mathlib.Tactic.Ring
import EthosCpc.Library.Inversion

/-!
# Bit-vector models of integer problems are integer models

`Same v v'` relates the value of a term and the value of its translation: the same
Boolean, or an integer and a bit-vector that denotes it as a signed number.  Every
operator of the pass keeps the relation, since the common width leaves room for the
result (`toInt_add_of_lt`, `toInt_mul_of_le` and their like), and so the relation
holds of every term that is translated.
-/

namespace EthosCpc.Cvc5.IntToBV

open Nat (le_refl le_succ succ_pos)
open Node
open Option (bind_eq_some_iff bind_none bind_some map_eq_some_iff map_some some.inj)
open List (Forall₂ map_cons map_nil mem_cons mem_union_iff)
open BitVec (toInt_signExtend_of_le)

variable {ops : Ops} {rewrite : Node → Node} {size : Nat} {ρ ρ' : Assignment}
variable {c c' n n' : Node} {cs cs' : List Node} {v v' : Value} {vs vs' : List Value}
variable {k k' : Kind} {t tn : TypeNode} {ts : List TypeNode}

/-! ## Evaluation and types of lists -/

lemma values_cons_eq_some : values ops ρ (c :: cs) = some vs' ↔
      ∃ v vs, c.value ops ρ = some v ∧ values ops ρ cs = some vs ∧ v :: vs = vs' := by
  simp only [values, bind_eq_some_iff, map_eq_some_iff]
  grind

lemma getTypes_cons_eq_some {ts' : List TypeNode} : getTypes ops (c :: cs) = some ts' ↔
      ∃ t ts, c.getType ops = some t ∧ getTypes ops cs = some ts ∧ t :: ts = ts' := by
  simp only [getTypes, bind_eq_some_iff, map_eq_some_iff]
  grind

lemma getTypes_length (h : getTypes ops cs = some ts) : ts.length = cs.length := by
  induction cs generalizing ts with
  | nil =>
    cases h
    rfl
  | cons c cs ih =>
    obtain ⟨t, ts', -, hts, rfl⟩ := getTypes_cons_eq_some.1 h
    simp only [List.length_cons, ih hts]

def Evaluates (ops : Ops) (ρ : Assignment) (n : Node) (v : Value) : Prop :=
  n.value ops ρ = some v ∧ n.getType ops = some v.type

def EvaluateTo (ops : Ops) (ρ : Assignment) (cs : List Node) (vs : List Value) : Prop :=
  values ops ρ cs = some vs ∧ getTypes ops cs = some (vs.map Value.type)

lemma evaluateTo_nil : EvaluateTo ops ρ [] [] := ⟨rfl, rfl⟩

lemma EvaluateTo.cons (h : Evaluates ops ρ c v) (hs : EvaluateTo ops ρ cs vs) :
    EvaluateTo ops ρ (c :: cs) (v :: vs) :=
  ⟨values_cons_eq_some.2 ⟨v, vs, h.1, hs.1, rfl⟩,
    getTypes_cons_eq_some.2 ⟨v.type, vs.map Value.type, h.2, hs.2, rfl⟩⟩

lemma evaluateTo_cons_inv {ws : List Value} (h : EvaluateTo ops ρ (c :: cs) ws) :
    ∃ v vs, ws = v :: vs ∧ Evaluates ops ρ c v ∧ EvaluateTo ops ρ cs vs := by
  obtain ⟨v, vs, hv, hvs, rfl⟩ := values_cons_eq_some.1 h.1
  obtain ⟨t, ts, ht, hts, heq⟩ := getTypes_cons_eq_some.1 h.2
  rw [map_cons, List.cons.injEq] at heq
  exact ⟨v, vs, rfl, ⟨hv, heq.1 ▸ ht⟩, ⟨hvs, heq.2 ▸ hts⟩⟩

lemma EvaluateTo.app (hs : EvaluateTo ops ρ cs vs) (hv : valueOfKind ops k vs = some v)
    (ht : typeOfKind ops k (vs.map Value.type) = some v.type) : Evaluates ops ρ (.app k cs) v := by
  constructor
  · rw [value, hs.1, bind_some, hv]
  · rw [getType, hs.2, bind_some, ht]

lemma EvaluateTo.length (hs : EvaluateTo ops ρ cs vs) : vs.length = cs.length := by
  simpa using getTypes_length hs.2

/-! ## Binary sums and products -/

/-- The operators that `intToBVMakeBinary` makes binary. -/
def Chained (k : Kind) : Prop := k = .add ∨ k = .mult ∨ k = .nonlinearMult

lemma valueOfKind_add : valueOfKind ops .add vs = (ints vs).map fun zs => .int zs.sum := rfl

lemma valueOfKind_mult : valueOfKind ops .mult vs = (ints vs).map fun zs => .int zs.prod := rfl

lemma valueOfKind_nonlinearMult :
    valueOfKind ops .nonlinearMult vs = (ints vs).map fun zs => .int zs.prod := rfl

lemma value_chain_two (hk : Chained k) (r c : Node) (cs : List Node) :
    (Node.app k (.app k [r, c] :: cs)).value ops ρ = (Node.app k (r :: c :: cs)).value ops ρ := by
  simp only [value, values]
  cases hr : r.value ops ρ with
  | none => rfl
  | some v =>
    cases hc : c.value ops ρ with
    | none => rfl
    | some w =>
      cases hcs : values ops ρ cs with
      | none => simp only [bind_some, map_some, Option.map_none, bind_none, Option.bind_fun_none]
      | some vs =>
        rcases hk with rfl | rfl | rfl <;> cases v <;> cases w <;> cases hvs : ints vs <;>
          simp [valueOfKind_add, valueOfKind_mult, valueOfKind_nonlinearMult, ints, hvs,
            add_assoc, mul_assoc]

lemma value_chainBinary (hk : Chained k) (r c : Node) (cs : List Node) :
    (chainBinary k r (c :: cs)).value ops ρ = (Node.app k (r :: c :: cs)).value ops ρ := by
  induction cs generalizing r c with
  | nil => rfl
  | cons c' cs ih => rw [chainBinary, ih, value_chain_two hk]

lemma typeOfKind_chained (hk : Chained k) (ts : List TypeNode) : typeOfKind ops k ts =
      if 2 ≤ ts.length ∧ ∀ t ∈ ts, t = .integer then some .integer else none := by
  rcases hk with rfl | rfl | rfl <;> rfl

lemma getType_chain_two (hk : Chained k) (r c c' : Node) (cs : List Node) :
    (Node.app k (.app k [r, c] :: c' :: cs)).getType ops =
      (Node.app k (r :: c :: c' :: cs)).getType ops := by
  simp only [getType, getTypes]
  cases hr : r.getType ops with
  | none => rfl
  | some t =>
    cases hc : c.getType ops with
    | none => rfl
    | some t' =>
      cases hc' : c'.getType ops with
      | none => simp
      | some t'' =>
        cases hcs : getTypes ops cs with
        | none => simp
        | some ts =>
          by_cases hint : t = .integer ∧ t' = .integer
          · simp [typeOfKind_chained hk, hint.1, hint.2]
          have hno : ¬(2 ≤ [t, t'].length ∧ ∀ u ∈ [t, t'], u = TypeNode.integer) := by
            simpa using fun h => not_and.1 hint h
          have hno' : ¬(2 ≤ (t :: t' :: t'' :: ts).length ∧
              ∀ u ∈ t :: t' :: t'' :: ts, u = TypeNode.integer) := by
            rintro ⟨-, hall⟩
            exact hint ⟨hall t (by simp), hall t' (by simp)⟩
          simp only [bind_some, map_some, typeOfKind_chained hk,
            if_neg hno, if_neg hno', bind_none]

lemma getType_chainBinary (hk : Chained k) (r c : Node) (cs : List Node) :
    (chainBinary k r (c :: cs)).getType ops = (Node.app k (r :: c :: cs)).getType ops := by
  induction cs generalizing r c with
  | nil => rfl
  | cons c' cs ih => rw [chainBinary, ih, getType_chain_two hk]

/-- Making an operator binary keeps its value and its type. -/
lemma makeBinaryApp_cases (k : Kind) (cs : List Node) : makeBinaryApp k cs = .app k cs ∨
      ∃ r c cs', Chained k ∧ cs = r :: c :: cs' ∧ makeBinaryApp k cs = chainBinary k r (c :: cs') := by
  unfold makeBinaryApp
  split
  · exact .inr ⟨_, _, _, .inl rfl, rfl, rfl⟩
  · exact .inr ⟨_, _, _, .inr (.inl rfl), rfl, rfl⟩
  · exact .inr ⟨_, _, _, .inr (.inr rfl), rfl, rfl⟩
  · exact .inl rfl

lemma value_makeBinaryApp (k : Kind) (cs : List Node) :
    (makeBinaryApp k cs).value ops ρ = (Node.app k cs).value ops ρ := by
  rcases makeBinaryApp_cases k cs with h | ⟨r, c, cs', hk, rfl, h⟩
  · rw [h]
  · rw [h, value_chainBinary hk]

lemma getType_makeBinaryApp (k : Kind) (cs : List Node) :
    (makeBinaryApp k cs).getType ops = (Node.app k cs).getType ops := by
  rcases makeBinaryApp_cases k cs with h | ⟨r, c, cs', hk, rfl, h⟩
  · rw [h]
  · rw [h, getType_chainBinary hk]

mutual

lemma value_intToBVMakeBinary (n : Node) : (intToBVMakeBinary n).value ops ρ = n.value ops ρ := by
  cases n with
  | app k cs =>
    rw [intToBVMakeBinary, value_makeBinaryApp, value, values_intToBVMakeBinaries cs, value]
  | var | constBool | constInt | constBV => rfl

lemma values_intToBVMakeBinaries (cs : List Node) :
    values ops ρ (intToBVMakeBinaries cs) = values ops ρ cs := by
  cases cs with
  | nil => rfl
  | cons c cs =>
    rw [intToBVMakeBinaries, values, value_intToBVMakeBinary c, values_intToBVMakeBinaries cs,
      values]

end

mutual

lemma getType_intToBVMakeBinary (n : Node) : (intToBVMakeBinary n).getType ops = n.getType ops := by
  cases n with
  | app k cs =>
    rw [intToBVMakeBinary, getType_makeBinaryApp, getType, getTypes_intToBVMakeBinaries cs, getType]
  | var | constBool | constInt | constBV => rfl

lemma getTypes_intToBVMakeBinaries (cs : List Node) :
    getTypes ops (intToBVMakeBinaries cs) = getTypes ops cs := by
  cases cs with
  | nil => rfl
  | cons c cs =>
    rw [intToBVMakeBinaries, getTypes, getType_intToBVMakeBinary c,
      getTypes_intToBVMakeBinaries cs, getTypes]

end

/-! ## Signed numbers in a wider bit-vector -/

section

variable {w m : Nat}

lemma toInt_bounds (x : BitVec w) (hw : w ≤ m) : -2 ^ m ≤ 2 * x.toInt ∧ 2 * x.toInt < 2 ^ m := by
  have hpow : (2 : Int) ^ w ≤ 2 ^ m := pow_le_pow_right₀ (by decide) hw
  have hlow := x.le_two_mul_toInt
  have hhigh := x.two_mul_toInt_lt
  omega

/-- A result that fits its width is not changed by the reduction modulo the power of two. -/
lemma bmod_two_pow {z : Int} (hlow : -2 ^ m ≤ 2 * z) (hhigh : 2 * z < 2 ^ m) :
    z.bmod (2 ^ m) = z := by
  apply Int.bmod_eq_of_le_mul_two
  · push_cast
    omega
  · push_cast
    omega

variable {w' : Nat}

lemma toInt_add_signExtend (x : BitVec w) (y : BitVec w') (hx : w ≤ m) (hy : w' ≤ m) :
    (x.signExtend (m + 1) + y.signExtend (m + 1)).toInt = x.toInt + y.toInt := by
  have hxb := toInt_bounds x hx
  have hyb := toInt_bounds y hy
  rw [BitVec.toInt_add, toInt_signExtend_of_le (by omega),
    toInt_signExtend_of_le (by omega)]
  apply bmod_two_pow <;> rw [pow_succ] <;> omega

lemma toInt_sub_signExtend (x : BitVec w) (y : BitVec w') (hx : w ≤ m) (hy : w' ≤ m) :
    (x.signExtend (m + 1) - y.signExtend (m + 1)).toInt = x.toInt - y.toInt := by
  have hxb := toInt_bounds x hx
  have hyb := toInt_bounds y hy
  rw [BitVec.toInt_sub, toInt_signExtend_of_le (by omega),
    toInt_signExtend_of_le (by omega)]
  apply bmod_two_pow <;> rw [pow_succ] <;> omega

lemma toInt_neg_signExtend (x : BitVec w) (hx : w ≤ m) :
    (-x.signExtend (m + 1)).toInt = -x.toInt := by
  have hxb := toInt_bounds x hx
  rw [BitVec.toInt_neg, toInt_signExtend_of_le (by omega)]
  apply bmod_two_pow <;> rw [pow_succ] <;> omega

lemma toInt_mul_signExtend (x : BitVec w) (y : BitVec w') (hx : w ≤ m) (hy : w' ≤ m) (hm : 0 < m) :
    (x.signExtend (m * 2) * y.signExtend (m * 2)).toInt = x.toInt * y.toInt := by
  have hxb := toInt_bounds x hx
  have hyb := toInt_bounds y hy
  have hpow : (2 : Int) ^ (m * 2) = 2 ^ m * 2 ^ m := by rw [mul_two, pow_add]
  have hpos : (2 : Int) ≤ 2 ^ m := by
    calc (2 : Int) = 2 ^ 1 := by norm_num
      _ ≤ 2 ^ m := pow_le_pow_right₀ (by decide) hm
  have habs : |(2 * x.toInt) * (2 * y.toInt)| ≤ 2 ^ m * 2 ^ m := by
    rw [abs_mul]
    exact mul_le_mul (abs_le.2 ⟨hxb.1, hxb.2.le⟩) (abs_le.2 ⟨hyb.1, hyb.2.le⟩) (abs_nonneg _)
      (by positivity)
  obtain ⟨hlow, hhigh⟩ := abs_le.1 habs
  have hmul : (2 * x.toInt) * (2 * y.toInt) = 4 * (x.toInt * y.toInt) := by ring
  have hbig : (4 : Int) ≤ 2 ^ m * 2 ^ m := by nlinarith
  rw [hmul] at hlow hhigh
  rw [BitVec.toInt_mul, toInt_signExtend_of_le (by omega),
    toInt_signExtend_of_le (by omega)]
  apply bmod_two_pow <;> rw [hpow] <;> omega

end

/-! ## Values and their translations -/

/-- The value of a term and that of its translation. -/
inductive Same : Value → Value → Prop
  | bool (b : Bool) : Same (.bool b) (.bool b)
  | int {w : Nat} (x : BitVec w) : 0 < w → Same (.int x.toInt) (.bv w x)

lemma eq_of_maxSize (h : Forall₂ Same vs vs') (hsize : maxSize (vs'.map Value.type) = 0) :
    vs' = vs ∧ ∀ v ∈ vs, v.type = .boolean := by
  induction h with
  | nil => exact ⟨rfl, nofun⟩
  | cons hv hvs ih =>
    cases hv with
    | bool b =>
      obtain ⟨rfl, hall⟩ := ih hsize
      exact ⟨rfl, List.forall_mem_cons.2 ⟨rfl, hall⟩⟩
    | int x hw =>
      simp only [map_cons, Value.type, maxSize] at hsize
      omega

lemma maxSize_of_types_eq (h : Forall₂ Same vs vs')
    (heq : vs.map Value.type = vs'.map Value.type) : maxSize (vs'.map Value.type) = 0 := by
  induction h with
  | nil => rfl
  | cons hv hvs ih =>
    rw [map_cons, map_cons, List.cons.injEq] at heq
    cases hv with
    | bool b => exact ih heq.2
    | int x hw => exact absurd heq.1 nofun

lemma bool_of_typeOfKind (hk : isClosure ops k = false) (hall : ∀ v ∈ vs, v.type = .boolean)
    (ht : typeOfKind ops k (vs.map Value.type) = some .boolean) :
    ∃ b, valueOfKind ops k vs = some (.bool b) := by
  have hbools : ∃ bs, bools vs = some bs ∧ vs = bs.map Value.bool := by
    clear ht
    induction vs with
    | nil => exact ⟨[], rfl, rfl⟩
    | cons v vs ih =>
      obtain ⟨hv, hvs⟩ := List.forall_mem_cons.1 hall
      obtain ⟨bs, hbs, rfl⟩ := ih hvs
      cases v with
      | bool b => exact ⟨b :: bs, by rw [bools, hbs, map_some], rfl⟩
      | int | bv | other => exact absurd hv nofun
  obtain ⟨bs, hbs, rfl⟩ := hbools
  cases k with
  | other s =>
    obtain ⟨v, hv, htv⟩ := ops.value_of_typeOf s _ _ hk ht
    cases v with
    | bool b => exact ⟨b, hv⟩
    | int | bv | other => exact absurd htv nofun
  | and | or => exact ⟨_, congrArg (Option.map _) hbs⟩
  | add | mult | nonlinearMult =>
    unfold typeOfKind at ht
    dsimp only at ht
    split at ht <;> cases ht
  | not | sub | neg | lt | leq | gt | geq | equal | ite | xor | implies | bitvectorAdd | bitvectorMult
  | bitvectorSub | bitvectorNeg | bitvectorSlt | bitvectorSle | bitvectorSgt | bitvectorSge
  | bitvectorSignExtend | bitvectorUbvToInt =>
    match bs, ht with
    | [], ht => cases ht
    | [a], ht => first | exact ⟨_, rfl⟩ | cases ht
    | [a, b], ht => first | exact ⟨_, rfl⟩ | cases ht
    | [a, b, c], ht => cases a <;> first | exact ⟨_, rfl⟩ | cases ht
    | a :: b :: c :: d :: bs, ht => cases ht

/-! ## Sign extension of the children -/

/-- The value of a child at the common width. -/
def Value.signExtend (size : Nat) : Value → Value
  | .bv _ x => .bv size (x.signExtend size)
  | v => v

lemma evaluates_signExtendTo (h : Evaluates ops ρ c v)
    (hw : ∀ w (x : BitVec w), v = .bv w x → w ≤ size) :
    Evaluates ops ρ (signExtendTo size c v.type) (v.signExtend size) := by
  cases v with
  | bv w x =>
    simp only [Value.type, signExtendTo, Value.signExtend]
    split
    · rename_i hlt
      have hsize : w + (size - w) = size := by omega
      apply (evaluateTo_nil.cons h).app
      · change some (Value.bv (w + (size - w)) (x.signExtend (w + (size - w)))) = _
        rw [hsize]
      · exact congrArg (some ∘ TypeNode.bitVector) hsize
    obtain rfl : w = size := by
      have := hw w x rfl
      omega
    rw [BitVec.signExtend_eq]
    exact h
  | bool | int | other => exact h

lemma evaluateTo_signExtendTo (h : EvaluateTo ops ρ cs vs)
    (hw : maxSize (vs.map Value.type) ≤ size) :
    EvaluateTo ops ρ (List.zipWith (signExtendTo size) cs (vs.map Value.type))
      (vs.map (Value.signExtend size)) := by
  induction cs generalizing vs with
  | nil =>
    cases h.1
    exact evaluateTo_nil
  | cons c cs ih =>
    obtain ⟨v, vs, rfl, hv, hvs⟩ := evaluateTo_cons_inv h
    have hrest : maxSize (vs.map Value.type) ≤ size ∧
        ∀ w (x : BitVec w), v = .bv w x → w ≤ size := by
      cases v with
      | bv w x =>
        simp only [map_cons, Value.type, maxSize, sup_le_iff] at hw
        refine ⟨hw.2, ?_⟩
        rintro w' x' ⟨⟩
        exact hw.1
      | bool | int | other => exact ⟨hw, nofun⟩
    exact (ih hvs hrest.1).cons (evaluates_signExtendTo hv hrest.2)

/-! ## The operators -/

lemma Same.of_int (h : Same v v') (ht : v.type = .integer) :
    ∃ (w : Nat) (x : BitVec w), 0 < w ∧ v = .int x.toInt ∧ v' = .bv w x := by
  cases h with
  | bool b => exact absurd ht nofun
  | int x hw => exact ⟨_, x, hw, rfl, rfl⟩

lemma Same.of_bool (h : Same v v') (ht : v.type = .boolean) : ∃ b, v = .bool b ∧ v' = .bool b := by
  cases h with
  | bool b => exact ⟨b, rfl, rfl⟩
  | int x hw => exact absurd ht nofun

lemma forall₂_ints_two (h : Forall₂ Same vs vs') (ht : vs.map Value.type = [.integer, .integer]) :
    ∃ (w : Nat) (x : BitVec w) (w' : Nat) (y : BitVec w'), 0 < w ∧ 0 < w' ∧
      vs = [.int x.toInt, .int y.toInt] ∧ vs' = [.bv w x, .bv w' y] := by
  rcases h with _ | ⟨hv, _ | ⟨hv', _ | _⟩⟩
  · simp at ht
  · simp at ht
  · rw [map_cons, map_cons, map_nil, List.cons.injEq, List.cons.injEq] at ht
    obtain ⟨w, x, hw, rfl, rfl⟩ := hv.of_int ht.1
    obtain ⟨w', y, hw', rfl, rfl⟩ := hv'.of_int ht.2.1
    exact ⟨w, x, w', y, hw, hw', rfl, rfl⟩
  · simp at ht

lemma types_chained (hk : Chained k) (hlen : ts.length = 2)
    (ht : typeOfKind ops k ts = some tn) : ts = [.integer, .integer] ∧ tn = .integer := by
  rw [typeOfKind_chained hk] at ht
  split at ht
  swap
  · cases ht
  rename_i hall
  cases ht
  match ts, hlen with
  | [t, t'], _ =>
    rw [hall.2 t (by simp), hall.2 t' (by simp)]
    exact ⟨rfl, rfl⟩

lemma bvs_one {w : Nat} (x : BitVec w) : bvs w [.bv w x] = some [x] := dif_pos rfl

/-- What an operator on integers makes of the values of its children, and the operator on
bit-vectors of their translations at the width `size`. -/
def Translates (ops : Ops) (k k' : Kind) (size : Nat) (tn : TypeNode) (vs vs' : List Value) : Prop :=
  ∃ v v', valueOfKind ops k vs = some v ∧ v.type = tn ∧ Same v v' ∧
    valueOfKind ops k' (vs'.map (Value.signExtend size)) = some v' ∧
    typeOfKind ops k' ((vs'.map (Value.signExtend size)).map Value.type) = some v'.type

section

variable {w w' m : Nat} (x : BitVec w) (y : BitVec w')

lemma translates_add (hw : w ≤ m) (hw' : w' ≤ m) :
    Translates ops .add .bitvectorAdd (m + 1) .integer [.int x.toInt, .int y.toInt]
      [.bv w x, .bv w' y] := by
  refine ⟨.int (x.toInt + y.toInt), .bv (m + 1) (x.signExtend _ + y.signExtend _), ?_, rfl, ?_, ?_, ?_⟩
  · simp [valueOfKind_add, ints]
  · rw [← toInt_add_signExtend x y hw hw']
    exact .int _ (Nat.succ_pos m)
  · exact congrArg (Option.map _) (bvs_one _)
  · exact if_pos ⟨Nat.le_refl 1, by simp [Value.signExtend, Value.type]⟩

lemma translates_mult (hk : k = .mult ∨ k = .nonlinearMult) (hw : w ≤ m) (hw' : w' ≤ m)
    (hm : 0 < m) :
    Translates ops k .bitvectorMult (m * 2) .integer [.int x.toInt, .int y.toInt]
      [.bv w x, .bv w' y] := by
  refine ⟨.int (x.toInt * y.toInt), .bv (m * 2) (x.signExtend _ * y.signExtend _), ?_, rfl, ?_, ?_, ?_⟩
  · rcases hk with rfl | rfl <;> simp [valueOfKind_mult, valueOfKind_nonlinearMult, ints]
  · rw [← toInt_mul_signExtend x y hw hw' hm]
    exact .int _ (by omega)
  · exact congrArg (Option.map _) (bvs_one _)
  · exact if_pos ⟨Nat.le_refl 1, by simp [Value.signExtend, Value.type]⟩

lemma translates_sub (hw : w ≤ m) (hw' : w' ≤ m) :
    Translates ops .sub .bitvectorSub (m + 1) .integer [.int x.toInt, .int y.toInt]
      [.bv w x, .bv w' y] := by
  refine ⟨.int (x.toInt - y.toInt), .bv (m + 1) (x.signExtend _ - y.signExtend _), rfl, rfl, ?_, ?_, ?_⟩
  · rw [← toInt_sub_signExtend x y hw hw']
    exact .int _ (succ_pos m)
  · exact dif_pos rfl
  · exact if_pos rfl

lemma translates_neg (hw : w ≤ m) :
    Translates ops .neg .bitvectorNeg (m + 1) .integer [.int x.toInt] [.bv w x] := by
  refine ⟨.int (-x.toInt), .bv (m + 1) (-x.signExtend _), rfl, rfl, ?_, ?_, ?_⟩
  · rw [← toInt_neg_signExtend x hw]
    exact .int _ (succ_pos m)
  · rfl
  · rfl

lemma translates_compare (hw : w ≤ m) (hw' : w' ≤ m)
    (hk : (k, k') = (.lt, .bitvectorSlt) ∨ (k, k') = (.leq, .bitvectorSle) ∨
      (k, k') = (.gt, .bitvectorSgt) ∨ (k, k') = (.geq, .bitvectorSge)) :
    Translates ops k k' m .boolean [.int x.toInt, .int y.toInt] [.bv w x, .bv w' y] := by
  have hx : (x.signExtend m).toInt = x.toInt := toInt_signExtend_of_le hw
  have hy : (y.signExtend m).toInt = y.toInt := toInt_signExtend_of_le hw'
  rcases hk with hk | hk | hk | hk <;> cases hk <;>
    exact ⟨_, _, rfl, rfl, .bool _, (dif_pos rfl).trans <| by
      simp only [BitVec.slt_eq_decide, BitVec.sle_eq_decide, BitVec.cast_eq, hx, hy, gt_iff_lt,
        ge_iff_le], if_pos rfl⟩

lemma translates_equal (hw : w ≤ m) (hw' : w' ≤ m) :
    Translates ops .equal .equal m .boolean [.int x.toInt, .int y.toInt] [.bv w x, .bv w' y] := by
  have hx : (x.signExtend m).toInt = x.toInt := toInt_signExtend_of_le hw
  have hy : (y.signExtend m).toInt = y.toInt := toInt_signExtend_of_le hw'
  have hiff : x.toInt = y.toInt ↔ x.signExtend m = y.signExtend m := by
    rw [← BitVec.toInt_inj, hx, hy]
  refine ⟨.bool (decide (x.toInt = y.toInt)), _, ?_, rfl, .bool _, ?_, if_pos rfl⟩
  · simp [valueOfKind.eq_def, Value.type]
  · simp [valueOfKind.eq_def, Value.signExtend, Value.type, hiff]

lemma translates_ite (b : Bool) (hw : w ≤ m) (hw' : w' ≤ m) (hm : 0 < m) :
    Translates ops .ite .ite m .integer [.bool b, .int x.toInt, .int y.toInt]
      [.bool b, .bv w x, .bv w' y] := by
  have hx : (x.signExtend m).toInt = x.toInt := toInt_signExtend_of_le hw
  have hy : (y.signExtend m).toInt = y.toInt := toInt_signExtend_of_le hw'
  cases b with
  | true =>
    refine ⟨.int x.toInt, .bv m (x.signExtend m), rfl, rfl, hx ▸ .int _ hm, ?_, ?_⟩
    · exact if_pos rfl
    · exact if_pos rfl
  | false =>
    refine ⟨.int y.toInt, .bv m (y.signExtend m), rfl, rfl, hy ▸ .int _ hm, ?_, ?_⟩
    · exact if_pos rfl
    · exact if_pos rfl

end

lemma types_two (hk : k ∈ [Kind.sub, .lt, .leq, .gt, .geq]) (ht : typeOfKind ops k ts = some tn) :
    ts = [.integer, .integer] := by
  simp only [mem_cons, List.not_mem_nil, or_false] at hk
  rcases hk with rfl | rfl | rfl | rfl | rfl <;>
    match ts with
    | [] => cases ht
    | [t] => cases t <;> cases ht
    | [t, t'] => cases t <;> cases t' <;> first | rfl | cases ht
    | t :: t' :: _ :: _ => cases t <;> cases t' <;> cases ht

lemma types_ite (ht : typeOfKind ops .ite ts = some tn) : ts = [.boolean, tn, tn] := by
  match ts with
  | [] => cases ht
  | [t] | [t, _] | t :: _ :: _ :: _ :: _ => cases t <;> cases ht
  | [t, t1, t2] =>
    cases t with
    | boolean =>
      change (if t1 = t2 then some t1 else none) = some tn at ht
      split at ht
      · rename_i heq
        cases ht
        rw [heq]
      · cases ht
    | integer | bitVector | other => cases ht

lemma types_neg (ht : typeOfKind ops .neg ts = some tn) : ts = [.integer] ∧ tn = .integer := by
  match ts with
  | [] => cases ht
  | [t] =>
    cases t <;> cases ht
    exact ⟨rfl, rfl⟩
  | t :: _ :: _ => cases t <;> cases ht

/-- With a bit-vector among the children, an operator is translated to one on bit-vectors at a
width that fits the result. -/
lemma translates_newKind {size size' children : Nat} (hsame : Forall₂ Same vs vs')
    (hlen : children = vs.length) (hsize : size = maxSize (vs'.map Value.type)) (hpos : 0 < size)
    (ht : typeOfKind ops k (vs.map Value.type) = some tn)
    (hnew : newKind children (vs'.map Value.type != vs.map Value.type) size k = some (k', size')) :
    Translates ops k k' size' tn vs vs' ∧ size ≤ size' := by
  have hchanged : (vs'.map Value.type != vs.map Value.type) = true := by
    rw [bne_iff_ne]
    intro heq
    have := maxSize_of_types_eq hsame heq.symm
    omega
  have hints : vs.map Value.type = [.integer, .integer] → ∃ (w : Nat) (x : BitVec w) (w' : Nat)
      (y : BitVec w'), w ≤ size ∧ w' ≤ size ∧ vs = [.int x.toInt, .int y.toInt] ∧
        vs' = [.bv w x, .bv w' y] := by
    intro htypes
    obtain ⟨w, x, w', y, hw, hw', rfl, rfl⟩ := forall₂_ints_two hsame htypes
    simp only [map_cons, map_nil, Value.type, maxSize] at hsize
    exact ⟨w, x, w', y, by omega, by omega, rfl, rfl⟩
  rw [hchanged] at hnew
  cases k with
  | add =>
    simp only [newKind] at hnew
    split at hnew
    swap
    · cases hnew
    rename_i htwo
    cases hnew
    obtain ⟨htypes, rfl⟩ := types_chained (.inl rfl) (by simp [← hlen, htwo]) ht
    obtain ⟨w, x, w', y, hw, hw', rfl, rfl⟩ := hints htypes
    exact ⟨translates_add x y hw hw', Nat.le_succ size⟩
  | mult =>
    simp only [newKind] at hnew
    split at hnew
    swap
    · cases hnew
    rename_i htwo
    cases hnew
    obtain ⟨htypes, rfl⟩ := types_chained (.inr (.inl rfl)) (by simp [← hlen, htwo]) ht
    obtain ⟨w, x, w', y, hw, hw', rfl, rfl⟩ := hints htypes
    exact ⟨translates_mult x y (.inl rfl) hw hw' hpos, by omega⟩
  | nonlinearMult =>
    simp only [newKind] at hnew
    split at hnew
    swap
    · cases hnew
    rename_i htwo
    cases hnew
    obtain ⟨htypes, rfl⟩ := types_chained (.inr (.inr rfl)) (by simp [← hlen, htwo]) ht
    obtain ⟨w, x, w', y, hw, hw', rfl, rfl⟩ := hints htypes
    exact ⟨translates_mult x y (.inr rfl) hw hw' hpos, by omega⟩
  | sub =>
    simp only [newKind] at hnew
    split at hnew
    swap
    · cases hnew
    cases hnew
    have htypes := types_two (k := .sub) (by simp) ht
    rw [htypes] at ht
    cases ht
    obtain ⟨w, x, w', y, hw, hw', rfl, rfl⟩ := hints htypes
    exact ⟨translates_sub x y hw hw', Nat.le_succ size⟩
  | neg =>
    simp only [newKind] at hnew
    split at hnew
    swap
    · cases hnew
    cases hnew
    obtain ⟨htypes, rfl⟩ := types_neg ht
    rcases hsame with _ | ⟨hv, _ | _⟩
    · simp at htypes
    · obtain ⟨w, x, hw, rfl, rfl⟩ := hv.of_int (by simpa using htypes)
      simp only [map_cons, map_nil, Value.type, maxSize] at hsize
      exact ⟨translates_neg x (by omega), Nat.le_succ size⟩
    · simp at htypes
  | lt | leq | gt | geq =>
    cases hnew
    have htypes := types_two (by simp) ht
    rw [htypes] at ht
    cases ht
    obtain ⟨w, x, w', y, hw, hw', rfl, rfl⟩ := hints htypes
    exact ⟨translates_compare x y hw hw' (by simp), Nat.le_refl size⟩
  | equal =>
    cases hnew
    rcases hsame with _ | ⟨h₁, _ | ⟨h₂, _ | _⟩⟩
    · cases ht
    · cases ht
    · change (if _ = _ then some TypeNode.boolean else none) = some tn at ht
      split at ht
      swap
      · cases ht
      rename_i heq
      cases ht
      cases h₁ with
      | bool b =>
        obtain ⟨b', rfl, rfl⟩ := h₂.of_bool heq.symm
        simp only [map_cons, map_nil, Value.type, maxSize] at hsize
        omega
      | int x hx =>
        obtain ⟨w, x, w', y, hw, hw', hvs, hvs'⟩ :=
          hints (by rw [map_cons, map_cons, map_nil, ← heq]; rfl)
        rw [hvs, hvs']
        exact ⟨translates_equal x y hw hw', Nat.le_refl size⟩
    · cases ht
  | ite =>
    cases hnew
    have htypes := types_ite ht
    rcases hsame with _ | ⟨h₀, _ | ⟨h₁, _ | ⟨h₂, _ | _⟩⟩⟩
    · simp at htypes
    · simp at htypes
    · simp at htypes
    · simp only [map_cons, map_nil, List.cons.injEq, and_true] at htypes
      obtain ⟨htypes₀, htypes₁, htypes₂⟩ := htypes
      obtain ⟨b, rfl, rfl⟩ := h₀.of_bool htypes₀
      cases h₁ with
      | bool b' =>
        obtain ⟨b'', rfl, rfl⟩ := h₂.of_bool (htypes₂.trans htypes₁.symm)
        simp only [map_cons, map_nil, Value.type, maxSize] at hsize
        omega
      | int x hx =>
        obtain ⟨w, y, hw, rfl, rfl⟩ := h₂.of_int (htypes₂.trans htypes₁.symm)
        cases htypes₁
        simp only [map_cons, map_nil, Value.type, maxSize] at hsize
        exact ⟨translates_ite x y b (by omega) (by omega) hpos, Nat.le_refl size⟩
    · simp at htypes
  | _ => cases hnew

lemma intToBVApp_same {m : Node} (hk : isClosure ops k = false)
    (htn : tn = .boolean ∨ tn = .integer) (ht : typeOfKind ops k (vs.map Value.type) = some tn)
    (hsame : Forall₂ Same vs vs') (hcs : EvaluateTo ops ρ' cs' vs')
    (h : intToBVApp ops k tn (vs.map Value.type) cs' = some m) :
    ∃ v v', valueOfKind ops k vs = some v ∧ v.type = tn ∧ Same v v' ∧ Evaluates ops ρ' m v' := by
  unfold intToBVApp at h
  rw [hcs.2, Option.bind_eq_bind, bind_some] at h
  by_cases hpos : 0 < maxSize (vs'.map Value.type)
  · rw [if_pos hpos] at h
    obtain ⟨⟨k', size'⟩, hnew, h⟩ := bind_inv h
    obtain ⟨_, _, h⟩ := bind_inv h
    obtain ⟨⟨v, v', hv, htv, hsame', hv', htv'⟩, hle⟩ := translates_newKind hsame
      (hcs.length.symm.trans hsame.length_eq.symm) rfl hpos ht hnew
    have hchildren := evaluateTo_signExtendTo hcs hle
    rw [if_pos hpos] at h
    dsimp only at h
    split at h
    · cases h
    · cases h
      exact ⟨v, v', hv, htv, hsame', hchildren.app hv' htv'⟩
  obtain ⟨rfl, hall⟩ := eq_of_maxSize hsame (Nat.eq_zero_of_not_pos hpos)
  rw [if_neg hpos] at h
  obtain ⟨⟨k', size'⟩, hnew, h⟩ := bind_inv h
  cases hnew
  obtain ⟨_, _, h⟩ := bind_inv h
  rw [if_neg hpos] at h
  dsimp only at h
  split at h
  · cases h
  rename_i hnot
  cases h
  have hbool : tn = .boolean := by
    refine htn.resolve_right fun hint => hnot ⟨hint, ?_, rfl⟩
    rintro rfl
    subst hint
    obtain ⟨v, hv, htv⟩ := List.mem_map.1
      (types_ite ht ▸ List.mem_of_getElem? (i := 1) rfl : TypeNode.integer ∈ vs'.map Value.type)
    exact absurd ((hall v hv).symm.trans htv) nofun
  subst hbool
  obtain ⟨b, hb⟩ := bool_of_typeOfKind hk hall ht
  exact ⟨.bool b, .bool b, hb, rfl, .bool b, hcs.app hb ht⟩

/-! ## Terms -/

/-- What the pass relies on from the rewriter: it keeps the type and the value of a term. -/
structure Sound (ops : Ops) (rewrite : Node → Node) : Prop where
  evaluates : ∀ ρ n v, Evaluates ops ρ n v → Evaluates ops ρ (rewrite n) v

lemma mem_intVarsOf {x : Nat} (hc : c ∈ cs) (hx : x ∈ intVars c) : x ∈ intVarsOf cs := by
  induction cs with
  | nil => cases hc
  | cons d cs ih =>
    rw [intVarsOf, mem_union_iff]
    rcases mem_cons.1 hc with rfl | hc
    · exact .inl hx
    · exact .inr (ih hc)

mutual

lemma translate_same (hrewrite : Sound ops rewrite) (hsize : 0 < size)
    (hbool : ρ.bool = ρ'.bool) (n n' : Node) (h : translate ops rewrite size n = some n')
    (hvars : ∀ x ∈ intVars n, ρ.int x = (ρ'.bv x size).toInt) :
    ∃ v v', Evaluates ops ρ n v ∧ Evaluates ops ρ' n' v' ∧ Same v v' := by
  cases n with
  | var x =>
    cases x with
    | intVar x =>
      cases h
      refine ⟨_, _, ⟨rfl, rfl⟩, ⟨rfl, rfl⟩, ?_⟩
      rw [Assignment.value, hvars x (by simp [intVars])]
      exact .int _ hsize
    | boolVar x =>
      cases h
      refine ⟨_, _, ⟨rfl, rfl⟩, ⟨rfl, rfl⟩, ?_⟩
      rw [Assignment.value, Assignment.value, hbool]
      exact .bool _
    | intToBVVar | other => cases h
  | constBool b =>
    cases h
    exact ⟨_, _, ⟨rfl, rfl⟩, ⟨rfl, rfl⟩, .bool b⟩
  | constInt z =>
    rw [translate] at h
    split at h
    swap
    · cases h
    rename_i hz
    cases h
    refine ⟨.int z, _, ⟨rfl, rfl⟩, ⟨rfl, rfl⟩, ?_⟩
    nth_rewrite 1 [← hz]
    exact .int _ hsize
  | constBV => cases h
  | app k cs =>
    rw [translate] at h
    obtain ⟨ts, hts, h⟩ := bind_inv h
    obtain ⟨tn, htn, h⟩ := bind_inv h
    obtain ⟨_, hguard, h⟩ := bind_inv h
    obtain ⟨cs', hcs', h⟩ := bind_inv h
    obtain ⟨m, hm, rfl⟩ := map_inv h
    have hchecks : isClosure ops k = false ∧ (tn = .boolean ∨ tn = .integer) := by
      by_contra hno
      simp [guard, hno] at hguard
    obtain ⟨hclosure, htype⟩ := hchecks
    obtain ⟨vs, vs', hvs, hvs', hsame⟩ :=
      translates_same hrewrite hsize hbool cs cs' hcs' fun c hc x hx => hvars x (mem_intVarsOf hc hx)
    cases hts.symm.trans hvs.2
    obtain ⟨v, v', hv, htv, hsame', hev⟩ := intToBVApp_same hclosure htype htn hsame hvs' hm
    exact ⟨v, v', hvs.app hv (htv ▸ htn), hrewrite.evaluates _ _ _ hev, hsame'⟩

lemma translates_same (hrewrite : Sound ops rewrite) (hsize : 0 < size)
    (hbool : ρ.bool = ρ'.bool) (cs cs' : List Node) (h : translates ops rewrite size cs = some cs')
    (hvars : ∀ c ∈ cs, ∀ x ∈ intVars c, ρ.int x = (ρ'.bv x size).toInt) :
    ∃ vs vs', EvaluateTo ops ρ cs vs ∧ EvaluateTo ops ρ' cs' vs' ∧ Forall₂ Same vs vs' := by
  cases cs with
  | nil =>
    cases h
    exact ⟨[], [], evaluateTo_nil, evaluateTo_nil, .nil⟩
  | cons c cs =>
    rw [translates] at h
    obtain ⟨c', hc', h⟩ := bind_inv h
    obtain ⟨ds, hds, h⟩ := bind_inv h
    cases h
    obtain ⟨v, v', hv, hv', hsame⟩ := translate_same hrewrite hsize hbool c c' hc' (hvars c (by simp))
    obtain ⟨vs, vs', hvs, hvs', hall⟩ :=
      translates_same hrewrite hsize hbool cs ds hds fun d hd => hvars d (by simp [hd])
    exact ⟨v :: vs, v' :: vs', hvs.cons hv, hvs'.cons hv', .cons hsame hall⟩

end

/-! ## The assertions -/

lemma toNat_of_toInt_nonneg {w : Nat} (x : BitVec w) (h : 0 ≤ x.toInt) :
    (x.toNat : Int) = x.toInt := by
  have hlt := x.isLt
  rw [BitVec.toInt_eq_toNat_cond] at h ⊢
  split at h <;> omega

lemma toNat_neg_of_toInt_neg {w : Nat} (x : BitVec w) (h : x.toInt < 0) :
    ((-x).toNat : Int) = -x.toInt := by
  have hlt := x.isLt
  rw [BitVec.toInt_eq_toNat_cond] at h ⊢
  split at h
  · omega
  rename_i hle
  rw [if_neg hle, BitVec.toNat_neg, Nat.mod_eq_of_lt (by omega)]
  omega

/-- The recorded substitution reads the bit-vector as a signed number. -/
lemma value_bv2int (x : Nat) : (bv2int size x).value ops ρ' = some (.int (ρ'.bv x size).toInt) := by
  have hslt : (ρ'.bv x size).slt 0 = decide ((ρ'.bv x size).toInt < 0) := by
    rw [BitVec.slt_eq_decide, BitVec.ofNat_eq_ofNat, BitVec.toInt_zero]
  simp only [bv2int, value, values, Assignment.value, bind_some, map_some,
    valueOfKind.eq_def, bvBinary, dif_pos, BitVec.cast_eq, hslt, Value.type, if_pos]
  by_cases hneg : (ρ'.bv x size).toInt < 0
  · rw [if_pos (by simpa using hneg), toNat_neg_of_toInt_neg _ hneg, Int.neg_neg]
  · rw [if_neg (by simpa using hneg), toNat_of_toInt_nonneg _ (Int.not_lt.1 hneg)]

lemma Node.Subterm.trans {a b c : Node} (hab : Subterm a b) (hbc : Subterm b c) : Subterm a c := by
  induction hbc with
  | refl => exact hab
  | child hc _ ih => exact .child hc ih

variable {s : Node}

lemma intVars_of_subterm (h : Subterm s n) {x : Nat} (hx : x ∈ intVars s) : x ∈ intVars n := by
  induction h with
  | refl => exact hx
  | child hc _ ih =>
    rw [intVars]
    exact mem_intVarsOf hc ih

lemma translates_mem (h : translates ops rewrite size cs = some cs') (hc : c ∈ cs) :
    ∃ c', translate ops rewrite size c = some c' := by
  induction cs generalizing cs' with
  | nil => cases hc
  | cons d cs ih =>
    rw [translates] at h
    obtain ⟨d', hd', h⟩ := bind_inv h
    obtain ⟨ds, hds, _⟩ := bind_inv h
    rcases mem_cons.1 hc with rfl | hc
    · exact ⟨d', hd'⟩
    · exact ih hds hc

lemma translate_subterm (hs : Subterm s n)
    (h : translate ops rewrite size n = some n') : ∃ s', translate ops rewrite size s = some s' := by
  induction hs generalizing n' with
  | refl => exact ⟨n', h⟩
  | child hc _ ih =>
    rw [translate] at h
    obtain ⟨ts, _, h⟩ := bind_inv h
    obtain ⟨tn, _, h⟩ := bind_inv h
    obtain ⟨_, _, h⟩ := bind_inv h
    obtain ⟨cs', hcs', _⟩ := bind_inv h
    obtain ⟨c', hc'⟩ := translates_mem hcs' hc
    exact ih hc'

lemma subterm_chainBinary (k : Kind) (r : Node) (cs : List Node) :
    Subterm r (chainBinary k r cs) ∧ ∀ c ∈ cs, Subterm c (chainBinary k r cs) := by
  induction cs generalizing r with
  | nil => exact ⟨.refl r, nofun⟩
  | cons c cs ih =>
    obtain ⟨hr, hcs⟩ := ih (.app k [r, c])
    refine ⟨(Subterm.child (by simp) (.refl r)).trans hr, ?_⟩
    rintro d (_ | ⟨_, hd⟩)
    · exact (Subterm.child (by simp) (.refl c)).trans hr
    · exact hcs d hd

lemma subterm_makeBinaryApp (k : Kind) (hc : c ∈ cs) : Subterm c (makeBinaryApp k cs) := by
  rcases makeBinaryApp_cases k cs with h | ⟨r, d, cs', -, rfl, h⟩
  · rw [h]
    exact .child hc (.refl c)
  rw [h]
  obtain ⟨hr, hcs⟩ := subterm_chainBinary k r (d :: cs')
  rcases mem_cons.1 hc with rfl | hc
  · exact hr
  · exact hcs c hc

lemma mem_intToBVMakeBinaries (hc : c ∈ cs) : intToBVMakeBinary c ∈ intToBVMakeBinaries cs := by
  induction cs with
  | nil => cases hc
  | cons d cs ih =>
    rw [intToBVMakeBinaries]
    rcases mem_cons.1 hc with rfl | hc
    · exact .head _
    · exact .tail _ (ih hc)

lemma subterm_intToBVMakeBinary (hs : Subterm s n) :
    Subterm (intToBVMakeBinary s) (intToBVMakeBinary n) := by
  induction hs with
  | refl => exact .refl _
  | child hc _ ih =>
    rw [intToBVMakeBinary]
    exact ih.trans (subterm_makeBinaryApp _ (mem_intToBVMakeBinaries hc))

lemma mem_intVarsOf_of_mem {a : Node} (ha : a ∈ cs) (hs : Subterm s a) {x : Nat}
    (hx : x ∈ intVars s) : x ∈ intVarsOf cs :=
  mem_intVarsOf ha (intVars_of_subterm hs hx)

lemma lookup_substitutions {xs : List Nat} {x : Nat} (hx : x ∈ xs) :
    (xs.map fun y => (y, bv2int size y)).lookup x = some (bv2int size x) := by
  induction xs with
  | nil => cases hx
  | cons y ys ih =>
    rw [map_cons, List.lookup_cons]
    by_cases heq : x = y
    · subst heq
      simp
    · simp only [beq_eq_false_iff_ne.2 heq]
      exact ih ((mem_cons.1 hx).resolve_left heq)

/-- The integers read back are the signed values of the bit-vectors. -/
lemma int_applySubstitutions {xs : List Nat} {x : Nat} (hx : x ∈ xs) :
    (applySubstitutions ops (xs.map fun y => (y, bv2int size y)) ρ').int x =
      (ρ'.bv x size).toInt := by
  simp only [applySubstitutions, lookup_substitutions hx, bind_some, value_bv2int]

lemma mem_intVarsOf_iff {x : Nat} : x ∈ intVarsOf cs ↔ ∃ c ∈ cs, x ∈ intVars c := by
  induction cs with
  | nil => simp [intVarsOf]
  | cons c cs ih => rw [intVarsOf, mem_union_iff, ih, List.exists_mem_cons_iff]

lemma intVars_chainBinary (k : Kind) (r : Node) (cs : List Node) {x : Nat}
    (hx : x ∈ intVars (chainBinary k r cs)) : x ∈ intVarsOf (r :: cs) := by
  induction cs generalizing r with
  | nil => exact mem_intVarsOf_iff.2 ⟨r, by simp, hx⟩
  | cons c cs ih =>
    obtain ⟨d, hd, hxd⟩ := mem_intVarsOf_iff.1 (ih _ hx)
    rcases mem_cons.1 hd with rfl | hd
    · rw [intVars] at hxd
      obtain ⟨e, he, hxe⟩ := mem_intVarsOf_iff.1 hxd
      exact mem_intVarsOf_iff.2 ⟨e, by grind, hxe⟩
    · exact mem_intVarsOf_iff.2 ⟨d, by grind, hxd⟩

lemma intVars_makeBinaryApp (k : Kind) (cs : List Node) {x : Nat}
    (hx : x ∈ intVars (makeBinaryApp k cs)) : x ∈ intVarsOf cs := by
  rcases makeBinaryApp_cases k cs with h | ⟨r, c, cs', -, rfl, h⟩
  · rw [h] at hx
    exact hx
  · rw [h] at hx
    exact intVars_chainBinary k r (c :: cs') hx

mutual

lemma intVars_intToBVMakeBinary (n : Node) {x : Nat} (hx : x ∈ intVars (intToBVMakeBinary n)) :
    x ∈ intVars n := by
  cases n with
  | app k cs =>
    rw [intToBVMakeBinary] at hx
    exact intVarsOf_intToBVMakeBinaries cs (intVars_makeBinaryApp k _ hx)
  | var | constBool | constInt | constBV => exact hx

lemma intVarsOf_intToBVMakeBinaries (cs : List Node) {x : Nat}
    (hx : x ∈ intVarsOf (intToBVMakeBinaries cs)) : x ∈ intVarsOf cs := by
  cases cs with
  | nil => exact hx
  | cons c cs =>
    rw [intToBVMakeBinaries, intVarsOf, mem_union_iff] at hx
    rw [intVarsOf, mem_union_iff]
    exact hx.imp (intVars_intToBVMakeBinary c) (intVarsOf_intToBVMakeBinaries cs)

end

/-- A term that is translated and its translation, under assignments that agree on its variables. -/
lemma intToBV_same (hrewrite : Sound ops rewrite) (hbool : ρ.bool = ρ'.bool)
    (h : intToBV ops rewrite size n = some n')
    (hvars : ∀ x ∈ intVars n, ρ.int x = (ρ'.bv x size).toInt) :
    ∃ v v', Evaluates ops ρ n v ∧ Evaluates ops ρ' n' v' ∧ Same v v' := by
  rw [intToBV] at h
  split at h
  swap
  · cases h
  rename_i hsize
  obtain ⟨v, v', hv, hv', hsame⟩ := translate_same hrewrite hsize hbool _ _ h
    fun x hx => hvars x (intVars_intToBVMakeBinary n hx)
  refine ⟨v, v', ⟨?_, ?_⟩, hv', hsame⟩
  · rw [← value_intToBVMakeBinary]
    exact hv.1
  · rw [← getType_intToBVMakeBinary]
    exact hv.2

lemma intToBV_subterm (hs : Subterm s n) (h : intToBV ops rewrite size n = some n') :
    ∃ s', intToBV ops rewrite size s = some s' := by
  rw [intToBV] at h ⊢
  split at h
  · rename_i hsize
    obtain ⟨s', hs'⟩ := translate_subterm (subterm_intToBVMakeBinary hs) h
    exact ⟨s', by rw [if_pos hsize, hs']⟩
  · cases h

lemma mapM_intToBV {as bs : List Node} (h : as.mapM (intToBV ops rewrite size) = some bs) :
    Forall₂ (fun a b => intToBV ops rewrite size a = some b) as bs := by
  induction as generalizing bs with
  | nil =>
    cases h
    exact .nil
  | cons a as ih =>
    rw [List.mapM_cons] at h
    obtain ⟨b, hb, h⟩ := bind_inv h
    obtain ⟨bs', hbs', h⟩ := bind_inv h
    cases h
    exact .cons hb (ih hbs')

/-- A model of the translated assertions, read back by the substitutions that the pass records, is a
model of the assertions; and every integer term in them has the value of its translation, read as a
signed number. -/
theorem applyInternal_models {assertions assertions' : List Node}
    {substitutions : List (Nat × Node)} (hrewrite : Sound ops rewrite)
    (h : applyInternal ops rewrite size assertions = some (assertions', substitutions))
    (hmodel : ∀ a' ∈ assertions', a'.value ops ρ' = some (.bool true)) :
    let ρ := applySubstitutions ops substitutions ρ'
    (∀ a ∈ assertions, a.value ops ρ = some (.bool true)) ∧
    ∀ a ∈ assertions, ∀ s, Subterm s a → s.getType ops = some .integer →
      ∃ s' w, ∃ x : BitVec w, intToBV ops rewrite size s = some s' ∧
        s'.value ops ρ' = some (.bv w x) ∧ s.value ops ρ = some (.int x.toInt) := by
  obtain ⟨bs, hbs, h⟩ := bind_inv h
  cases h
  have hall := mapM_intToBV hbs
  have htranslated : ∀ a ∈ assertions, ∃ b ∈ assertions', intToBV ops rewrite size a = some b := by
    intro a ha
    obtain ⟨i, hi, rfl⟩ := List.mem_iff_getElem.1 ha
    have hlen := hall.length_eq
    exact ⟨assertions'[i], List.getElem_mem _, hall.get hi (hlen ▸ hi)⟩
  intro ρ
  have hbool : ρ.bool = ρ'.bool := rfl
  have hread : ∀ a ∈ assertions, ∀ s, Subterm s a → ∀ x ∈ intVars s,
      ρ.int x = (ρ'.bv x size).toInt :=
    fun a ha s hs x hx => int_applySubstitutions (mem_intVarsOf_of_mem ha hs hx)
  clear_value ρ
  constructor
  · intro a ha
    obtain ⟨b, hb, hab⟩ := htranslated a ha
    obtain ⟨v, v', hv, hv', hsame⟩ := intToBV_same hrewrite hbool hab (hread a ha a (.refl a))
    cases hv'.1.symm.trans (hmodel b hb)
    cases hsame
    exact hv.1
  intro a ha s hs hint
  obtain ⟨b, _, hab⟩ := htranslated a ha
  obtain ⟨s', hs'⟩ := intToBV_subterm hs hab
  obtain ⟨v, v', hv, hv', hsame⟩ := intToBV_same hrewrite hbool hs' (hread a ha s hs)
  have htype : v.type = .integer := some.inj (hv.2.symm.trans hint)
  obtain ⟨w, x, -, rfl, rfl⟩ := hsame.of_int htype
  exact ⟨s', w, x, hs', hv'.1, hv.1⟩

/-- No operators besides those of the pass. -/
def plainOps : Ops where
  isClosure := fun _ => false
  typeOf := fun _ _ => none
  value := fun _ _ => none
  value_of_typeOf := nofun

/-- A bit-vector variable with the lowest value of three bits stands for `-4`. -/
theorem applyInternal_models_less :
    let a := Node.app .lt [.var (.intVar 0), .var (.intVar 1)]
    let ρ' : Assignment := ⟨fun _ => false, fun _ => 0, fun x w => if x = 0 then .ofInt w (-4) else 3,
      fun _ _ => 0⟩
    a.value plainOps (applySubstitutions plainOps [(0, bv2int 3 0), (1, bv2int 3 1)] ρ') =
      some (.bool true) := by
  intro a ρ'
  have h : applyInternal plainOps id 3 [a] =
      some ([.app .bitvectorSlt [.var (.intToBVVar 0 3), .var (.intToBVVar 1 3)]],
        [(0, bv2int 3 0), (1, bv2int 3 1)]) := by rfl
  exact (applyInternal_models ⟨fun _ _ _ h => h⟩ h (by decide +kernel)).1 a (.head _)

end EthosCpc.Cvc5.IntToBV
