import EthosCpc.Cpc.ArithRewritesSpec
import EthosCpc.Cpc.Booleans

/-!
# Propositional rules

The rules of `Booleans.eo` and `Uf.eo` whose patterns are built from formulas by connectives.
Each is a scheme over three parameters, and a truth table shows that its premises entail its
conclusion.  An instance of the scheme then does so in every interpretation.
-/

namespace EthosCpc

open Term (bop uop)

inductive Connective
  | or | and | imp | xor | eq
  deriving DecidableEq

namespace Connective

def sym : Connective → Sym
  | or => .or
  | and => .and
  | imp => .imp
  | xor => .xor
  | eq => .eq

def eval : Connective → Bool → Bool → Bool
  | or => Bool.or
  | and => Bool.and
  | imp => fun p q => !p || q
  | xor => fun p q => p != q
  | eq => fun p q => p == q

end Connective

/-- A formula over the parameters of a rule. -/
inductive Scheme
  | param (i : Fin 3)
  | bool (b : Bool)
  | not (F : Scheme)
  | op (s : Connective) (F G : Scheme)
  | ite (C F G : Scheme)

namespace Scheme

def inst (σ : Fin 3 → Term) : Scheme → Term
  | param i => σ i
  | bool b => .bool b
  | not F => uop .not (F.inst σ)
  | op s F G => bop s.sym (F.inst σ) (G.inst σ)
  | ite C F G => .app (bop .ite (C.inst σ) (F.inst σ)) (G.inst σ)

def eval (v : Fin 3 → Bool) : Scheme → Bool
  | param i => v i
  | bool b => b
  | not F => !F.eval v
  | op s F G => s.eval (F.eval v) (G.eval v)
  | ite C F G => bif C.eval v then F.eval v else G.eval v

def params : Scheme → List (Fin 3)
  | param i => [i]
  | bool _ => []
  | not F => F.params
  | op _ F G => F.params ++ G.params
  | ite C F G => C.params ++ F.params ++ G.params

/-- The parameters that are formulas if the scheme is one: the sides of an equation have any type. -/
def formulas : Scheme → List (Fin 3)
  | param i => [i]
  | bool _ => []
  | not F => F.formulas
  | op .eq _ _ => []
  | op _ F G => F.formulas ++ G.formulas
  | ite C F G => C.formulas ++ F.formulas ++ G.formulas

/-- What the parameters stand for where a term matches. -/
def read : Scheme → Term → List (Fin 3 × Term)
  | param i, t => [(i, t)]
  | not F, .app _ a => F.read a
  | op _ F G, .app (.app _ a) b => F.read a ++ G.read b
  | ite C F G, .app (.app (.app _ c) a) b => C.read c ++ F.read a ++ G.read b
  | _, _ => []

end Scheme

structure PropRule where
  premises : List Scheme
  args : List Scheme
  conclusion : Scheme

namespace PropRule

variable (r : PropRule)

def bindings (ts Fs : List Term) (i : Fin 3) : Term :=
  (((r.args ++ r.premises).zipWith Scheme.read (ts ++ Fs)).flatten.lookup i).getD (.bool false)

/-- The parameters are read off the arguments and premises, which then have to be the instances
of the patterns. -/
def apply (ts Fs : List Term) : Option Term :=
  if ts = r.args.map (Scheme.inst (r.bindings ts Fs)) ∧
      Fs = r.premises.map (Scheme.inst (r.bindings ts Fs)) then
    some (r.conclusion.inst (r.bindings ts Fs))
  else none

/-- The parameters are formulas, and the truth table is right. -/
def Valid : Prop :=
  (∀ i ∈ (r.conclusion :: r.premises).flatMap Scheme.params,
    i ∈ (r.conclusion :: r.premises).flatMap Scheme.formulas) ∧
  ∀ p q s : Bool, (∀ F ∈ r.premises, F.eval ![p, q, s] = true) → r.conclusion.eval ![p, q, s] = true

instance : Decidable r.Valid := inferInstanceAs (Decidable (_ ∧ _))

end PropRule

/-! ## The rules -/

namespace PropRule

abbrev C : Scheme := .param 0
abbrev F1 : Scheme := .param 1
abbrev F2 : Scheme := .param 2

def clause (Fs : List Scheme) : Scheme := Fs.foldr (.op .or) (.bool false)

def eqResolve : PropRule := ⟨[F1, .op .eq F1 F2], [], F2⟩
def modusPonens : PropRule := ⟨[F1, .op .imp F1 F2], [], F2⟩
def notNotElim : PropRule := ⟨[.not (.not F1)], [], F1⟩
def contra : PropRule := ⟨[F1, .not F1], [], .bool false⟩
def impliesElim : PropRule := ⟨[.op .imp F1 F2], [], clause [.not F1, F2]⟩
def notImpliesElim1 : PropRule := ⟨[.not (.op .imp F1 F2)], [], F1⟩
def notImpliesElim2 : PropRule := ⟨[.not (.op .imp F1 F2)], [], .not F2⟩
def equivElim1 : PropRule := ⟨[.op .eq F1 F2], [], clause [.not F1, F2]⟩
def equivElim2 : PropRule := ⟨[.op .eq F1 F2], [], clause [F1, .not F2]⟩
def notEquivElim1 : PropRule := ⟨[.not (.op .eq F1 F2)], [], clause [F1, F2]⟩
def notEquivElim2 : PropRule := ⟨[.not (.op .eq F1 F2)], [], clause [.not F1, .not F2]⟩
def xorElim1 : PropRule := ⟨[.op .xor F1 F2], [], clause [F1, F2]⟩
def xorElim2 : PropRule := ⟨[.op .xor F1 F2], [], clause [.not F1, .not F2]⟩
def notXorElim1 : PropRule := ⟨[.not (.op .xor F1 F2)], [], clause [F1, .not F2]⟩
def notXorElim2 : PropRule := ⟨[.not (.op .xor F1 F2)], [], clause [.not F1, F2]⟩
def iteElim1 : PropRule := ⟨[.ite C F1 F2], [], clause [.not C, F1]⟩
def iteElim2 : PropRule := ⟨[.ite C F1 F2], [], clause [C, F2]⟩
def notIteElim1 : PropRule := ⟨[.not (.ite C F1 F2)], [], clause [.not C, .not F1]⟩
def notIteElim2 : PropRule := ⟨[.not (.ite C F1 F2)], [], clause [C, .not F2]⟩

/-- A rule for a clause with the formula `F` or its negation in front. -/
def cnf (F : Scheme) (neg : Bool) (Fs : List Scheme) : PropRule :=
  ⟨[], [F], clause ((if neg then .not F else F) :: Fs)⟩

def cnfOrPos : PropRule := ⟨[], [F1], .op .or (.not F1) F1⟩
def cnfImpliesPos : PropRule := cnf (.op .imp F1 F2) true [.not F1, F2]
def cnfImpliesNeg1 : PropRule := cnf (.op .imp F1 F2) false [F1]
def cnfImpliesNeg2 : PropRule := cnf (.op .imp F1 F2) false [.not F2]
def cnfEquivPos1 : PropRule := cnf (.op .eq F1 F2) true [.not F1, F2]
def cnfEquivPos2 : PropRule := cnf (.op .eq F1 F2) true [F1, .not F2]
def cnfEquivNeg1 : PropRule := cnf (.op .eq F1 F2) false [F1, F2]
def cnfEquivNeg2 : PropRule := cnf (.op .eq F1 F2) false [.not F1, .not F2]
def cnfXorPos1 : PropRule := cnf (.op .xor F1 F2) true [F1, F2]
def cnfXorPos2 : PropRule := cnf (.op .xor F1 F2) true [.not F1, .not F2]
def cnfXorNeg1 : PropRule := cnf (.op .xor F1 F2) false [.not F1, F2]
def cnfXorNeg2 : PropRule := cnf (.op .xor F1 F2) false [F1, .not F2]
def cnfItePos1 : PropRule := cnf (.ite C F1 F2) true [.not C, F1]
def cnfItePos2 : PropRule := cnf (.ite C F1 F2) true [C, F2]
def cnfItePos3 : PropRule := cnf (.ite C F1 F2) true [F1, F2]
def cnfIteNeg1 : PropRule := cnf (.ite C F1 F2) false [.not C, .not F1]
def cnfIteNeg2 : PropRule := cnf (.ite C F1 F2) false [C, .not F2]
def cnfIteNeg3 : PropRule := cnf (.ite C F1 F2) false [.not F1, .not F2]

def trueIntro : PropRule := ⟨[F1], [], .op .eq F1 (.bool true)⟩
def trueElim : PropRule := ⟨[.op .eq F1 (.bool true)], [], F1⟩
def falseIntro : PropRule := ⟨[.not F1], [], .op .eq F1 (.bool false)⟩
def falseElim : PropRule := ⟨[.op .eq F1 (.bool false)], [], .not F1⟩

def all : List PropRule :=
  [eqResolve, modusPonens, notNotElim, contra, impliesElim, notImpliesElim1, notImpliesElim2,
    equivElim1, equivElim2, notEquivElim1, notEquivElim2, xorElim1, xorElim2, notXorElim1,
    notXorElim2, iteElim1, iteElim2, notIteElim1, notIteElim2, cnfOrPos, cnfImpliesPos,
    cnfImpliesNeg1, cnfImpliesNeg2, cnfEquivPos1, cnfEquivPos2, cnfEquivNeg1, cnfEquivNeg2,
    cnfXorPos1, cnfXorPos2, cnfXorNeg1, cnfXorNeg2, cnfItePos1, cnfItePos2, cnfItePos3, cnfIteNeg1,
    cnfIteNeg2, cnfIteNeg3, trueIntro, trueElim, falseIntro, falseElim]

lemma valid_of_mem : ∀ r ∈ all, r.Valid := by decide

end PropRule

/-! ## Rules with a computed conclusion -/

def lowerNotAnd : Term → Option Term
  | .bool true => some (.bool false)
  | .app (.app (.sym .and) l) ls => (lowerNotAnd ls).map (bop .or (uop .not l))
  | _ => none

def andElim (Fs : Term) (i : Int) : Option Term := eoListNth (.sym .and) (.bool true) Fs i

def notOrElim : Term → Int → Option Term
  | .app (.sym .not) Fs, i => (eoListNth (.sym .or) (.bool false) Fs i).map (uop .not)
  | _, _ => none

def notAnd : Term → Option Term
  | .app (.sym .not) F => lowerNotAnd F
  | _ => none

def cnfAndPos (Fs : Term) (i : Int) : Option Term :=
  (andElim Fs i).map fun F => mkOr [uop .not Fs, F]

def cnfAndNeg (Fs : Term) : Option Term := (lowerNotAnd Fs).map (bop .or Fs)

def cnfOrNeg (Fs : Term) (i : Int) : Option Term :=
  (eoListNth (.sym .or) (.bool false) Fs i).map fun F => mkOr [Fs, uop .not F]

def eqSides : Term → Option (Term × Term)
  | .app (.app (.sym .eq) a) b => some (a, b)
  | _ => none

namespace Uf

def refl (t : Term) : Term := bop .eq t t

def mkSymm : Term → Option Term
  | .app (.sym .not) F => (eqSides F).map fun p => uop .not (bop .eq p.2 p.1)
  | F => (eqSides F).map fun p => bop .eq p.2 p.1

/-- `$mk_trans` on the conjunction of the premises. -/
def mkTrans (t1 t2 : Term) : List Term → Option Term
  | [] => some (bop .eq t1 t2)
  | F :: tail => (eqSides F).bind fun p => if t2 = p.1 then mkTrans t1 p.2 tail else none

def trans : List Term → Option Term
  | [] => none
  | F :: tail => (eqSides F).bind fun p => mkTrans p.1 p.2 tail

end Uf

section Holds

variable {v : Term → Prop} {F Fs G : Term} {i : Int}

lemma holds_lowerNotAnd (h : lowerNotAnd F = some G) : holds v G ↔ ¬ holds v F := by
  induction F using lowerNotAnd.induct generalizing G with
  | case1 =>
    cases h
    simp
  | case2 l ls ih =>
    obtain ⟨r, hr, rfl⟩ := map_inv h
    rw [holds_or, ih hr, holds_not, holds_and, not_and_or]
  | case3 F hne hand =>
    rw [lowerNotAnd] at h
    · cases h
    · exact hne
    · exact hand

lemma holds_andElim (h : andElim Fs i = some G) (hFs : holds v Fs) : holds v G := by
  obtain ⟨xs, -, hxs, hG⟩ := eoListNth_spec h
  rw [eq_of_getNAryChildren hxs] at hFs
  exact (holds_mkAnd v xs).1 hFs G (List.mem_of_getElem? hG)

lemma holds_of_nth (h : eoListNth (.sym .or) (.bool false) Fs i = some G) (hG : holds v G) :
    holds v Fs := by
  obtain ⟨xs, -, hxs, hmem⟩ := eoListNth_spec h
  exact (holds_iff_of_orList v hxs).2 ⟨G, List.mem_of_getElem? hmem, hG⟩

lemma holds_notOrElim (h : notOrElim F i = some G) (hF : holds v F) : holds v G := by
  unfold notOrElim at h
  split at h
  · obtain ⟨x, hx, rfl⟩ := map_inv h
    exact mt (holds_of_nth hx) hF
  · cases h

lemma holds_notAnd (h : notAnd F = some G) (hF : holds v F) : holds v G := by
  unfold notAnd at h
  split at h
  · exact (holds_lowerNotAnd h).2 hF
  · cases h

lemma holds_cnfAndPos (h : cnfAndPos Fs i = some G) : holds v G := by
  obtain ⟨x, hx, rfl⟩ := map_inv h
  rw [holds_mkOr]
  by_cases hFs : holds v Fs
  · exact ⟨x, by simp, holds_andElim hx hFs⟩
  · exact ⟨_, .head _, hFs⟩

lemma holds_cnfAndNeg (h : cnfAndNeg Fs = some G) : holds v G := by
  obtain ⟨x, hx, rfl⟩ := map_inv h
  rw [holds_or, holds_lowerNotAnd hx]
  exact Classical.em _

lemma holds_cnfOrNeg (h : cnfOrNeg Fs i = some G) : holds v G := by
  obtain ⟨x, hx, rfl⟩ := map_inv h
  rw [holds_mkOr]
  by_cases hx' : holds v x
  · exact ⟨Fs, .head _, holds_of_nth hx hx'⟩
  · exact ⟨uop .not x, by simp, hx'⟩

end Holds

/-! ## Instances -/

variable {Γ : Nat → Ty} {I : Interp Γ} {σ : Fin 3 → Term}

lemma boolVal_xor {F G : Term} {p q : Prop} (hF : BoolVal I F p) (hG : BoolVal I G q) :
    BoolVal I (bop .xor F G) (¬ (p ↔ q)) := by
  unfold BoolVal at *
  rw [value_bop I rfl, hF, hG]
  by_cases hp : p <;> by_cases hq : q <;> simp [symVal.eq_def, vBool2, truth, hp, hq]

lemma boolVal_connective {F G : Term} {p q : Bool} (s : Connective) (hF : BoolVal I F p)
    (hG : BoolVal I G q) : BoolVal I (bop s.sym F G) (s.eval p q) := by
  cases s with
  | or => exact (boolVal_or hF hG).congr (by simp [Connective.eval])
  | and => exact (boolVal_and hF hG).congr (by simp [Connective.eval])
  | imp => exact (boolVal_imp hF hG).congr (by cases p <;> simp [Connective.eval])
  | xor => exact (boolVal_xor hF hG).congr (by cases p <;> cases q <;> simp [Connective.eval])
  | eq => exact (boolVal_eq hF hG).congr (by cases p <;> cases q <;> simp [Connective.eval])

namespace Scheme

lemma boolVal_inst {v : Fin 3 → Bool} {F : Scheme} (h : ∀ i ∈ F.params, BoolVal I (σ i) (v i)) :
    BoolVal I (F.inst σ) (F.eval v) := by
  induction F with
  | param i => exact h i (.head _)
  | bool b => exact boolVal_bool b
  | not F ih => exact (boolVal_not (ih h)).congr (by simp [eval])
  | op s F G ihF ihG =>
    obtain ⟨hF, hG⟩ := List.forall_mem_append.1 h
    exact boolVal_connective s (ihF hF) (ihG hG)
  | ite C F G ihC ihF ihG =>
    obtain ⟨hCF, hG⟩ := List.forall_mem_append.1 h
    obtain ⟨hC, hF⟩ := List.forall_mem_append.1 hCF
    exact (boolVal_ite (ihC hC) (ihF hF) (ihG hG)).congr (by cases hb : C.eval v <;> simp [eval, hb])

lemma typeof_formulas {F : Scheme} (h : typeof Γ (F.inst σ) = some .bool) :
    ∀ i ∈ F.formulas, typeof Γ (σ i) = some .bool := by
  induction F with
  | param i => exact List.forall_mem_singleton.2 h
  | bool b => exact List.forall_mem_nil _
  | not F ih => exact ih (typeof_not_inv h)
  | op s F G ihF ihG =>
    have hsides : s ≠ .eq → typeof Γ (F.inst σ) = some .bool ∧ typeof Γ (G.inst σ) = some .bool := by
      intro hs
      cases s with
      | eq => contradiction
      | _ => exact typeof_connective_inv rfl rfl h
    cases s with
    | eq => exact List.forall_mem_nil _
    | _ => exact List.forall_mem_append.2 ⟨ihF (hsides (by simp)).1, ihG (hsides (by simp)).2⟩
  | ite C F G ihC ihF ihG =>
    obtain ⟨hC, hF, hG⟩ := typeof_ite_inv h
    exact List.forall_mem_append.2 ⟨List.forall_mem_append.2 ⟨ihC hC, ihF hF⟩, ihG hG⟩

end Scheme

lemma PropRule.Valid.sat {r : PropRule} (hr : r.Valid) {ts Fs : List Term} {G : Term}
    (h : r.apply ts Fs = some G) (hG : typeof Γ G = some .bool)
    (hFs : ∀ F ∈ Fs, typeof Γ F = some .bool ∧ Sat I F) : Sat I G := by
  classical
  obtain ⟨⟨-, hprem⟩, h⟩ := Option.ite_none_right_eq_some.1 h
  cases h
  rw [hprem, List.forall_mem_map] at hFs
  generalize r.bindings ts Fs = σ at *
  let v : Fin 3 → Bool := fun i => decide (Sat I (σ i))
  have hv : ∀ i ∈ (r.conclusion :: r.premises).flatMap Scheme.params, BoolVal I (σ i) (v i) := by
    intro i hi
    obtain ⟨F, hF, hi⟩ := List.mem_flatMap.1 (hr.1 i hi)
    have hty : typeof Γ (F.inst σ) = some .bool := by
      cases hF with
      | head => exact hG
      | tail _ hF => exact (hFs F hF).1
    exact (boolVal_of_typeof (F.typeof_formulas hty i hi)).congr (by simp [v])
  have hval : ∀ F ∈ r.conclusion :: r.premises, BoolVal I (F.inst σ) (F.eval v) := fun F hF =>
    F.boolVal_inst fun i hi => hv i (List.mem_flatMap.2 ⟨F, hF, hi⟩)
  have htable := hr.2 (v 0) (v 1) (v 2)
  have heta : ![v 0, v 1, v 2] = v := by
    funext i
    fin_cases i <;> rfl
  rw [heta] at htable
  exact (hval _ (.head _)).sat.2 (htable fun F hF => (hval F (.tail _ hF)).sat.1 (hFs F hF).2)

/-- The propositional rules are sound. -/
theorem PropRule.sat_of_mem {r : PropRule} (hr : r ∈ all) {ts Fs : List Term} {G : Term}
    (h : r.apply ts Fs = some G) (hG : typeof Γ G = some .bool)
    (hFs : ∀ F ∈ Fs, typeof Γ F = some .bool ∧ Sat I F) : Sat I G := (valid_of_mem r hr).sat h hG hFs

/-- A clause for a conditional between constants. -/
theorem PropRule.sat_of_mem_ite : Sat (badInterp fun _ => .bool) (mkOr
    [uop .not (.app (bop .ite (.const 0) (.const 1)) (.const 2)), .const 1, .const 2]) :=
  @sat_of_mem _ _ cnfItePos3 (by simp [all]) [.app (bop .ite (.const 0) (.const 1)) (.const 2)] [] _
    rfl rfl (List.forall_mem_nil _)

/-! ## Equality -/

namespace Uf

variable {F G a b t : Term}

lemma eqSides_inv (h : eqSides F = some (a, b)) : F = bop .eq a b := by
  unfold eqSides at h
  split at h
  · cases h
    rfl
  · cases h

lemma refl_sat (h : typeof Γ (refl t) = some .bool) : Sat I (refl t) := by
  rw [refl, typeof_bop Γ rfl] at h
  obtain ⟨T, ht, -⟩ := bind_inv h
  obtain ⟨v, hv⟩ := value_of_typeof I ht
  exact sat_eq.2 ⟨_, hv, hv⟩

lemma sat_eq_symm (h : Sat I (bop .eq a b)) : Sat I (bop .eq b a) := by
  obtain ⟨v, ha, hb⟩ := sat_eq.1 h
  exact sat_eq.2 ⟨v, hb, ha⟩

lemma mkSymm_sat (h : mkSymm F = some G) (hG : typeof Γ G = some .bool) (hF : Sat I F) : Sat I G := by
  unfold mkSymm at h
  split at h
  · obtain ⟨p, hp, rfl⟩ := map_inv h
    obtain rfl := eqSides_inv hp
    have heq := boolVal_of_typeof (I := I) (typeof_not_inv hG)
    refine (boolVal_not heq).sat.2 fun hsat => ?_
    exact (sat_not.1 hF).sat.1 (sat_eq_symm hsat)
  · obtain ⟨p, hp, rfl⟩ := map_inv h
    obtain rfl := eqSides_inv hp
    exact sat_eq_symm hF

lemma mkTrans_sat {t1 t2 : Term} {tail : List Term} (h : mkTrans t1 t2 tail = some G)
    (heq : Sat I (bop .eq t1 t2)) (hFs : ∀ F ∈ tail, Sat I F) : Sat I G := by
  induction tail generalizing t2 with
  | nil =>
    cases h
    exact heq
  | cons F tail ih =>
    rw [mkTrans] at h
    obtain ⟨p, hp, h⟩ := bind_inv h
    obtain rfl := eqSides_inv hp
    obtain ⟨hmid, h⟩ := Option.ite_none_right_eq_some.1 h
    obtain ⟨v, h1, h2⟩ := sat_eq.1 heq
    obtain ⟨w, h2', h3⟩ := sat_eq.1 (hFs _ (.head _))
    rw [← hmid] at h2'
    cases h2.symm.trans h2'
    exact ih h (sat_eq.2 ⟨v, h1, h3⟩) fun F hF => hFs F (.tail _ hF)

lemma trans_sat {Fs : List Term} (h : trans Fs = some G) (hFs : ∀ F ∈ Fs, Sat I F) : Sat I G := by
  cases Fs with
  | nil => cases h
  | cons F tail =>
    rw [trans] at h
    obtain ⟨p, hp, h⟩ := bind_inv h
    obtain rfl := eqSides_inv hp
    exact mkTrans_sat h (hFs _ (.head _)) fun F hF => hFs F (.tail _ hF)

end Uf

end EthosCpc
