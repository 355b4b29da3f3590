import EthosCpc.Hol.Term
import EthosCpc.Library.Assignment
import EthosCpc.Semantics.Value

/-!
# Meaning of terms with binders

The meaning of the terms of `EthosCpc.Hol.Term` under an interpretation and
an assignment of the variables.  An interpretation chooses the sets behind
the declared sorts and the values of the declared symbols; its fields say
that the datatypes are freely generated by their constructors.

A binder over a list of variables ranges over the assignments that differ
on the variables of the list, `override`.
-/

namespace EthosCpc.Hol

open Library.Assignment
open EthosCpc (truth truth_eq_true truth_eq_false truth_inj truth_of truth_of_not eq_truth)
open Option (bind_some map_some some.inj)

/-! ## Values -/

/-- The domain of a type, given the sets behind declared sorts and their instances. -/
def Dom (U : Ty → Type) : Ty → Type
  | .bool => Bool
  | .int => Int
  | .real => ℝ
  | .char => Nat
  | .bitvec w => BitVec w
  | .seq T => List (Dom U T)
  | .set T => Set (Dom U T)
  | .unitTuple => Unit
  | .tuple A B => Dom U A × Dom U B
  | .sort n => U (.sort n)
  | .app F A => U (.app F A)
  | .fn A B => Dom U A → Dom U B

def Dom.elems {U : Ty → Type} {T : Ty} (A : Dom U (.set T)) : Set (Dom U T) := A

abbrev Val (U : Ty → Type) : Type := Σ T : Ty, Dom U T

/-- A value for every variable. -/
abbrev Env (U : Ty → Type) : Type := ∀ v : Var, Dom U v.2

abbrev Val.bool {U : Ty → Type} (b : Bool) : Val U := ⟨.bool, b⟩

abbrev Val.real {U : Ty → Type} (r : ℝ) : Val U := ⟨.real, r⟩

variable {T : Ty}

lemma Val.mk_inj {U : Ty → Type} {x y : Dom U T} : (⟨T, x⟩ : Val U) = ⟨T, y⟩ ↔ x = y := by
  constructor
  · intro h
    cases h
    rfl
  · intro h
    rw [h]

@[simp] lemma Val.bool_inj {U : Ty → Type} {b c : Bool} :
    (Val.bool b : Val U) = Val.bool c ↔ b = c := Val.mk_inj

/-- What an argument stands for. -/
inductive Arg (U : Ty → Type)
  | one (v : Val U)
  | many (vs : List (Val U))

variable {U : Ty → Type}

def Arg.ty : Arg U → ArgTy
  | .one v => .one v.1
  | .many vs => .many (vs.map Sigma.fst)

def vals : List (Arg U) → Option (List (Val U))
  | [] => some []
  | .one v :: as => (vals as).map (v :: ·)
  | .many _ :: _ => none

/-- An argument, or a head that waits for arguments. -/
inductive Den (U : Ty → Type)
  | arg (a : Arg U)
  | part (h : Head) (as : List (Arg U))

abbrev Den.val (v : Val U) : Den U := .arg (.one v)

def Den.arg? : Den U → Option (Arg U)
  | .arg a => some a
  | .part _ _ => none

abbrev Den.bool (b : Bool) : Den U := .val (Val.bool b)

def Den.shape : Den U → Shape
  | .arg a => .arg a.ty
  | .part h as => .part h (as.map Arg.ty)

@[simp] lemma Den.bool_inj {b c : Bool} : (Den.bool b : Den U) = Den.bool c ↔ b = c := by
  constructor
  · intro h
    cases h
    rfl
  · intro h
    rw [h]

lemma arg_of_ty {a : Arg U} (h : a.ty = .one T) : ∃ x : Dom U T, a = .one ⟨T, x⟩ := by
  cases a with
  | one v =>
    cases h
    exact ⟨v.2, rfl⟩
  | many vs => contradiction

lemma Den.val_of_shape {d : Den U} (h : d.shape = .arg (.one T)) :
    ∃ x : Dom U T, d = .val ⟨T, x⟩ := by
  cases d with
  | part h as => contradiction
  | arg a =>
    obtain ⟨x, rfl⟩ := arg_of_ty (Shape.arg.inj h)
    exact ⟨x, rfl⟩

/-- The component of a tuple. -/
def tupleNthVal : Val U → Nat → Option (Val U)
  | ⟨.tuple A _, p⟩, 0 => some ⟨A, Prod.fst p⟩
  | ⟨.tuple _ B, p⟩, n + 1 => tupleNthVal ⟨B, Prod.snd p⟩ n
  | _, _ => none
termination_by v => v.1

/-! ## Interpretations -/

/-- An interpretation of a signature.  The datatypes are freely generated. -/
structure Interp (Γ : Sig) where
  /-- The sets behind the declared sorts and their instances. -/
  U : Ty → Type
  nonempty : ∀ T, Nonempty (U T)
  /-- The declared constants and functions. -/
  const : ∀ n, Dom U (Γ.const n)
  /-- A constructor at an instance of its datatype. -/
  con : Nat → (D : Ty) → List (Val U) → Dom U D
  /-- A selector, which is arbitrary on the values of other constructors. -/
  sel : Nat → Nat → (D T : Ty) → Dom U D → Dom U T
  con_inj : ∀ {c D vs ws}, Γ.fields c D = some (vs.map Sigma.fst) →
    Γ.fields c D = some (ws.map Sigma.fst) → con c D vs = con c D ws → vs = ws
  con_disjoint : ∀ {c c' D vs ws}, Γ.fields c D = some (vs.map Sigma.fst) →
    Γ.fields c' D = some (ws.map Sigma.fst) → con c D vs = con c' D ws → c = c'
  con_exhaustive : ∀ {D cs}, Γ.dtConstructors D = some cs → ∀ x : Dom U D,
    ∃ c ∈ cs, ∃ vs, Γ.fields c D = some (vs.map Sigma.fst) ∧ con c D vs = x
  sel_con : ∀ {c i D T vs y}, Γ.fields c D = some (vs.map Sigma.fst) →
    vs[i]? = some ⟨T, y⟩ → sel c i D T (con c D vs) = y
  /-- No value is built from itself. -/
  con_wf : WellFounded fun v w : Val U =>
    ∃ c D vs, Γ.fields c D = some (vs.map Sigma.fst) ∧ w = ⟨D, con c D vs⟩ ∧ v ∈ vs

/-! ## Meaning of the heads -/

section Heads

variable {Γ : Sig} (I : Interp Γ)

/-- A connective of two formulas. -/
def vBool2 (f : Bool → Bool → Bool) : List (Arg U) → Option (Arg U)
  | [.one ⟨.bool, b⟩, .one ⟨.bool, c⟩] => some (.one (.bool (f b c)))
  | _ => none

lemma vBool2_inv {f : Bool → Bool → Bool} {as : List (Arg U)} {r : Arg U}
    (h : vBool2 f as = some r) :
    ∃ b c, as = [.one (.bool b), .one (.bool c)] ∧ r = .one (.bool (f b c)) := by
  unfold vBool2 at h
  split at h
  · rename_i b c
    exact ⟨b, c, rfl, (some.inj h).symm⟩
  · cases h

/-- An operation on two sets of one type. -/
noncomputable def vSet2 (f : ∀ T, Set (Dom U T) → Set (Dom U T) → Set (Dom U T)) :
    List (Arg U) → Option (Arg U)
  | [.one ⟨.set T, A⟩, .one ⟨.set T', B⟩] =>
    if h : T' = T then some (.one ⟨.set T, f T (Dom.elems A) (h ▸ Dom.elems B)⟩) else none
  | _ => none

lemma vSet2_inv {f : ∀ T, Set (Dom U T) → Set (Dom U T) → Set (Dom U T)} {as : List (Arg U)}
    {r : Arg U} (h : vSet2 f as = some r) :
    ∃ (T : Ty) (A B : Dom U (.set T)), as = [.one ⟨.set T, A⟩, .one ⟨.set T, B⟩] ∧
      r = .one ⟨.set T, f T A.elems B.elems⟩ := by
  unfold vSet2 at h
  split at h
  swap
  · cases h
  rename_i T A T' B
  split at h
  · rename_i hT
    subst hT
    exact ⟨_, A, B, rfl, (some.inj h).symm⟩
  · cases h

open Classical in
/-- The value of a head applied to all its arguments. -/
noncomputable def headVal : Head → List (Arg I.U) → Option (Arg I.U)
  | .sym .ite, [.one ⟨.bool, c⟩, .one v, .one w] =>
    if w.1 = v.1 then some (.one (bif c then v else w)) else none
  | .sym .not, [.one ⟨.bool, b⟩] => some (.one (.bool (Bool.not b)))
  | .sym .or, as => vBool2 Bool.or as
  | .sym .and, as => vBool2 Bool.and as
  | .sym .imp, as => vBool2 (fun b c => !b || c) as
  | .sym .eq, [a, a'] => if a'.ty = a.ty then some (.one (.bool (truth (a = a')))) else none
  | .sym .distinct, [.many (v :: vs)] =>
    if ∀ w ∈ vs, w.1 = v.1 then some (.one (.bool (truth (v :: vs).Nodup))) else none
  | .sym .listNil, [] => some (.many [])
  | .sym .listCons, [.one v, .many vs] => some (.many (v :: vs))
  | .sym (.setEmpty T), [] => some (.one ⟨.set T, (∅ : Set (Dom I.U T))⟩)
  | .sym .setSingleton, [.one ⟨T, x⟩] => some (.one ⟨.set T, ({x} : Set (Dom I.U T))⟩)
  | .sym .setUnion, as => vSet2 (fun _ A B => A ∪ B) as
  | .sym .setInter, as => vSet2 (fun _ A B => A ∩ B) as
  | .sym .setMinus, as => vSet2 (fun _ A B => A \ B) as
  | .sym .setInsert, [.many vs, .one ⟨.set T, A⟩] =>
    if ∀ v ∈ vs, v.1 = T then
      some (.one ⟨.set T, { x : Dom I.U T | x ∈ Dom.elems A ∨ (⟨T, x⟩ : Val I.U) ∈ vs }⟩)
    else none
  | .sym (.seqEmpty T), [] => some (.one ⟨.seq T, ([] : List (Dom I.U T))⟩)
  | .sym .seqUnit, [.one ⟨T, x⟩] => some (.one ⟨.seq T, ([x] : List (Dom I.U T))⟩)
  | .sym .seqConcat, [.one ⟨.seq T, x⟩, .one ⟨.seq T', y⟩] =>
    if h : T' = T then some (.one ⟨.seq T, List.append x (h ▸ y)⟩) else none
  | .sym .tupleUnit, [] => some (.one ⟨.unitTuple, ()⟩)
  | .sym .tuple, [.one v, .one w] => some (.one ⟨.tuple v.1 w.1, (v.2, w.2)⟩)
  | .con c none, as => (vals as).bind fun vs =>
    (Γ.result c (vs.map Sigma.fst)).map fun D => .one ⟨D, I.con c D vs⟩
  | .con c (some D), as => (vals as).bind fun vs =>
    if Γ.ambiguous c = true ∧ Γ.fields c D = some (vs.map Sigma.fst) then
      some (.one ⟨D, I.con c D vs⟩)
    else none
  | .sel c i, [.one v] => ((Γ.fields c v.1).bind fun Ts => Ts[i]?).map fun T =>
    .one ⟨T, I.sel c i v.1 T v.2⟩
  | .tester c, [.one v] => some (.one (.bool (truth
      (∃ vs, Γ.fields c v.1 = some (vs.map Sigma.fst) ∧ I.con c v.1 vs = v.2))))
  | .testTuple, [.one v] => some (.one (.bool (truth (∃ A B, v.1 = .tuple A B))))
  | .testUnit, [.one v] => some (.one (.bool (truth (v.1 = .unitTuple))))
  | .tupleSel n, [.one v] => (tupleNthVal v n).map .one
  | _, _ => none

/-- Close a head once it has all its arguments. -/
noncomputable def complete (h : Head) (as : List (Arg I.U)) : Option (Den I.U) :=
  if as.length = h.arity Γ then (headVal I h as).map .arg else some (.part h as)

/-- One more argument. -/
noncomputable def applyDen : Den I.U → Den I.U → Option (Den I.U)
  | .part h as, .arg a => if h.accepts a.ty.isList then complete I h (as ++ [a]) else none
  | .arg (.one ⟨.fn A B, f⟩), .arg (.one v) =>
    if h : v.1 = A then some (.val ⟨B, (f : Dom I.U A → Dom I.U B) (h ▸ v.2)⟩) else none
  | _, _ => none

/-! ### Well-typed arguments -/

variable {I}

lemma args_of_tys {a : Arg I.U} {Ts : List Ty} (h : a.ty = .many Ts) :
    ∃ vs : List (Val I.U), a = .many vs ∧ vs.map Sigma.fst = Ts := by
  cases a with
  | one v => contradiction
  | many vs => exact ⟨vs, rfl, ArgTy.many.inj h⟩

variable {as : List (Arg I.U)}

variable {A : ArgTy} {h : Head} {S : Shape}

lemma map_ty_one (h : as.map Arg.ty = [A]) : ∃ a, as = [a] ∧ a.ty = A := by
  obtain ⟨a, rfl, ha⟩ := List.map_eq_singleton_iff.1 h
  exact ⟨a, rfl, ha⟩

lemma map_ty_two {B : ArgTy} (h : as.map Arg.ty = [A, B]) :
    ∃ a b, as = [a, b] ∧ a.ty = A ∧ b.ty = B := by
  obtain ⟨a, as', rfl, ha, h⟩ := List.map_eq_cons_iff.1 h
  obtain ⟨b, rfl, hb⟩ := map_ty_one h
  exact ⟨a, b, rfl, ha, hb⟩

lemma map_ty_three {B C : ArgTy} (h : as.map Arg.ty = [A, B, C]) :
    ∃ a b c, as = [a, b, c] ∧ a.ty = A ∧ b.ty = B ∧ c.ty = C := by
  obtain ⟨a, as', rfl, ha, h⟩ := List.map_eq_cons_iff.1 h
  obtain ⟨b, c, rfl, hb, hc⟩ := map_ty_two h
  exact ⟨a, b, c, rfl, ha, hb, hc⟩

lemma vals_of_ones {Ts : List Ty} (h : ones (as.map Arg.ty) = some Ts) :
    ∃ vs, vals as = some vs ∧ vs.map Sigma.fst = Ts := by
  induction as generalizing Ts with
  | nil =>
    cases h
    exact ⟨[], rfl, rfl⟩
  | cons a as ih =>
    cases a with
    | one v =>
      obtain ⟨Ts', hTs, rfl⟩ := map_inv h
      obtain ⟨vs, hvs, hty⟩ := ih hTs
      exact ⟨v :: vs, by rw [vals, hvs, map_some], by rw [List.map_cons, hty]⟩
    | many vs => contradiction

lemma tupleNthVal_of_ty {v : Val I.U} {n : Nat} {T : Ty} (h : v.1.tupleNth n = some T) :
    ∃ w, tupleNthVal v n = some w ∧ w.1 = T := by
  obtain ⟨S, x⟩ := v
  induction S generalizing n with
  | tuple A B ihA ihB =>
    cases n with
    | zero =>
      cases h
      exact ⟨_, by rw [tupleNthVal], rfl⟩
    | succ n =>
      obtain ⟨w, hw, hT⟩ := ihB (x := Prod.snd x) h
      exact ⟨w, by rw [tupleNthVal]; exact hw, hT⟩
  | _ => contradiction

lemma headVal_of_headTy
    (hty : headTy Γ h (as.map Arg.ty) = some A) : ∃ a, headVal I h as = some a ∧ a.ty = A := by
  unfold headTy at hty
  split at hty
  case h_1 T T' heq =>
    obtain ⟨a, b, c, rfl, ha, hb, hc⟩ := map_ty_three heq
    obtain ⟨p, rfl⟩ := arg_of_ty ha
    obtain ⟨x, rfl⟩ := arg_of_ty hb
    obtain ⟨y, rfl⟩ := arg_of_ty hc
    split at hty
    swap
    · cases hty
    rename_i hT
    cases hty
    refine ⟨_, if_pos hT, ?_⟩
    cases p
    · exact congrArg ArgTy.one hT
    · rfl
  case h_2 heq =>
    obtain ⟨a, rfl, ha⟩ := map_ty_one heq
    obtain ⟨x, rfl⟩ := arg_of_ty ha
    cases hty
    exact ⟨_, rfl, rfl⟩
  case h_3 heq | h_4 heq | h_5 heq =>
    obtain ⟨a, b, rfl, ha, hb⟩ := map_ty_two heq
    obtain ⟨x, rfl⟩ := arg_of_ty ha
    obtain ⟨y, rfl⟩ := arg_of_ty hb
    cases hty
    exact ⟨_, rfl, rfl⟩
  case h_6 A A' heq =>
    obtain ⟨a, b, rfl, ha, hb⟩ := map_ty_two heq
    split at hty
    · rename_i hA
      cases hty
      exact ⟨_, if_pos (by rw [ha, hb, hA]), rfl⟩
    · cases hty
  case h_7 T Ts heq =>
    obtain ⟨a, rfl, ha⟩ := map_ty_one heq
    obtain ⟨vs, rfl, hvs⟩ := args_of_tys ha
    split at hty
    swap
    · cases hty
    rename_i hT
    cases hty
    obtain ⟨v, vs', rfl, rfl, rfl⟩ := List.map_eq_cons_iff.1 hvs
    refine ⟨_, if_pos ?_, rfl⟩
    intro w hw
    exact hT _ (List.mem_map_of_mem hw)
  case h_8 heq =>
    obtain rfl := List.map_eq_nil_iff.1 heq
    cases hty
    exact ⟨_, rfl, rfl⟩
  case h_9 T Ts heq =>
    obtain ⟨a, b, rfl, ha, hb⟩ := map_ty_two heq
    obtain ⟨x, rfl⟩ := arg_of_ty ha
    obtain ⟨vs, rfl, rfl⟩ := args_of_tys hb
    cases hty
    exact ⟨_, rfl, rfl⟩
  case h_10 T heq | h_16 T heq | h_19 heq =>
    obtain rfl := List.map_eq_nil_iff.1 heq
    cases hty
    exact ⟨_, rfl, rfl⟩
  case h_11 T heq | h_17 T heq =>
    obtain ⟨a, rfl, ha⟩ := map_ty_one heq
    obtain ⟨x, rfl⟩ := arg_of_ty ha
    cases hty
    exact ⟨_, rfl, rfl⟩
  case h_12 T T' heq | h_13 T T' heq | h_14 T T' heq =>
    obtain ⟨a, b, rfl, ha, hb⟩ := map_ty_two heq
    obtain ⟨x, rfl⟩ := arg_of_ty ha
    obtain ⟨y, rfl⟩ := arg_of_ty hb
    split at hty
    · rename_i hT
      cases hty
      exact ⟨_, dif_pos hT, rfl⟩
    · cases hty
  case h_15 Ts T heq =>
    obtain ⟨a, b, rfl, ha, hb⟩ := map_ty_two heq
    obtain ⟨vs, rfl, rfl⟩ := args_of_tys ha
    obtain ⟨y, rfl⟩ := arg_of_ty hb
    split at hty
    swap
    · cases hty
    rename_i hT
    cases hty
    refine ⟨_, if_pos ?_, rfl⟩
    intro w hw
    exact hT _ (List.mem_map_of_mem hw)
  case h_18 T T' heq =>
    obtain ⟨a, b, rfl, ha, hb⟩ := map_ty_two heq
    obtain ⟨x, rfl⟩ := arg_of_ty ha
    obtain ⟨y, rfl⟩ := arg_of_ty hb
    split at hty
    · rename_i hT
      cases hty
      exact ⟨_, dif_pos hT, rfl⟩
    · cases hty
  case h_20 A B heq =>
    obtain ⟨a, b, rfl, ha, hb⟩ := map_ty_two heq
    obtain ⟨x, rfl⟩ := arg_of_ty ha
    obtain ⟨y, rfl⟩ := arg_of_ty hb
    cases hty
    exact ⟨_, rfl, rfl⟩
  case h_21 _ c =>
    obtain ⟨D, hD, rfl⟩ := map_inv hty
    obtain ⟨Ts, hTs, hD⟩ := bind_inv hD
    obtain ⟨vs, hvs, rfl⟩ := vals_of_ones hTs
    refine ⟨.one ⟨D, I.con c D vs⟩, ?_, rfl⟩
    show (vals _).bind _ = _
    rw [hvs, bind_some, hD, map_some]
  case h_22 _ c D =>
    split at hty
    swap
    · cases hty
    rename_i hTs
    cases hty
    obtain ⟨hamb, hones, hsome⟩ := hTs
    obtain ⟨Ts, hfields⟩ := Option.isSome_iff_exists.1 hsome
    obtain ⟨vs, hvs, rfl⟩ := vals_of_ones (hones.trans hfields)
    refine ⟨.one ⟨D, I.con c D vs⟩, ?_, rfl⟩
    show (vals _).bind _ = _
    rw [hvs, bind_some, if_pos ⟨hamb, hfields⟩]
  case h_23 c i D heq =>
    obtain ⟨a, rfl, ha⟩ := map_ty_one heq
    obtain ⟨x, rfl⟩ := arg_of_ty ha
    obtain ⟨T, hT, rfl⟩ := map_inv hty
    refine ⟨.one ⟨T, I.sel c i D T x⟩, ?_, rfl⟩
    exact congrArg (Option.map _) hT
  case h_24 heq | h_25 heq | h_26 heq =>
    obtain ⟨a, rfl, ha⟩ := map_ty_one heq
    obtain ⟨x, rfl⟩ := arg_of_ty ha
    cases hty
    exact ⟨_, rfl, rfl⟩
  case h_27 n D heq =>
    obtain ⟨a, rfl, ha⟩ := map_ty_one heq
    obtain ⟨x, rfl⟩ := arg_of_ty ha
    obtain ⟨T, hT, rfl⟩ := map_inv hty
    obtain ⟨w, hw, rfl⟩ := tupleNthVal_of_ty (v := ⟨D, x⟩) hT
    exact ⟨.one w, congrArg (Option.map Arg.one) hw, rfl⟩
  case h_28 => contradiction

lemma complete_of_completeTy (hty : completeTy Γ h (as.map Arg.ty) = some S) :
    ∃ d, complete I h as = some d ∧ d.shape = S := by
  unfold completeTy at hty
  rw [List.length_map] at hty
  unfold complete
  split at hty
  swap
  · rename_i harity
    cases hty
    exact ⟨.part h as, if_neg harity, rfl⟩
  rename_i harity
  obtain ⟨A, hA, rfl⟩ := map_inv hty
  obtain ⟨a, ha, rfl⟩ := headVal_of_headTy hA
  exact ⟨.arg a, by rw [if_pos harity, ha, map_some], rfl⟩

lemma complete_nil_of_completeTy (hty : completeTy Γ h [] = some S) :
    ∃ d, complete I h [] = some d ∧ d.shape = S := complete_of_completeTy (by exact hty)

lemma applyDen_of_applyTy {d d' : Den I.U} (hty : applyTy Γ d.shape d'.shape = some S) :
    ∃ r, applyDen I d d' = some r ∧ r.shape = S := by
  cases d' with
  | part h' as' =>
    cases d with
    | part h as => contradiction
    | arg a =>
      unfold applyTy at hty
      split at hty
      · contradiction
      · rename_i heq
        contradiction
      · contradiction
  | arg a =>
    cases d with
    | part h as =>
      have hmap : as.map Arg.ty ++ [a.ty] = (as ++ [a]).map Arg.ty := by
        rw [List.map_append, List.map_singleton]
      rw [Den.shape, Den.shape, applyTy, hmap] at hty
      rw [applyDen]
      split at hty
      · rename_i hacc
        rw [if_pos hacc]
        exact complete_of_completeTy hty
      · contradiction
    | arg b =>
      cases b with
      | many vs => contradiction
      | one v =>
        obtain ⟨T, f⟩ := v
        cases T with
        | fn A B =>
          cases a with
          | many vs => contradiction
          | one w =>
            obtain ⟨T, x⟩ := w
            rw [Den.shape, Den.shape, Arg.ty, Arg.ty, applyTy] at hty
            split at hty
            · rename_i hT
              cases hty
              exact ⟨_, dif_pos hT, rfl⟩
            · contradiction
        | _ => contradiction

end Heads

/-! ## Meaning of terms -/

open Classical in
/-- A function of one variable, if its results have one type. -/
noncomputable def lamVal (T : Ty) (k : Dom U T → Option (Den U)) : Option (Den U) :=
  if h : ∃ B, ∀ d, ∃ b : Dom U B, k d = some (.val ⟨B, b⟩) then
    some (.val ⟨.fn T h.choose, fun d => (h.choose_spec d).choose⟩)
  else none

/-- A function of the variables `vs`, one after the other. -/
noncomputable def lamDen (f : Env U → Option (Den U)) : List Var → Env U → Option (Den U)
  | [], ρ => f ρ
  | v :: vs, ρ => lamVal v.2 fun d => lamDen f vs (Function.update ρ v d)

open Classical in
noncomputable def quantDen (formula value : Prop) : Option (Den U) :=
  if formula then some (Den.bool (truth value)) else none

/-- A binder over the variables `vs`, from the meaning of its body. -/
noncomputable def bindDen (q : Sym) (vs : List Var) (f : Env U → Option (Den U)) (ρ : Env U) :
    Option (Den U) :=
  match q with
  | .all => quantDen (∀ e, ∃ b, f (override vs e ρ) = some (Den.bool b))
      (∀ e, f (override vs e ρ) = some (Den.bool true))
  | .ex => quantDen (∀ e, ∃ b, f (override vs e ρ) = some (Den.bool b))
      (∃ e, f (override vs e ρ) = some (Den.bool true))
  | .lambda => lamDen f vs ρ
  | _ => none

lemma dom_nonempty (hU : ∀ T, Nonempty (U T)) (T : Ty) : Nonempty (Dom U T) := by
  induction T with
  | bool => exact ⟨true⟩
  | int => exact ⟨(0 : Int)⟩
  | real => exact ⟨(0 : ℝ)⟩
  | char => exact ⟨(0 : Nat)⟩
  | bitvec w => exact ⟨0#w⟩
  | seq T => exact ⟨([] : List (Dom U T))⟩
  | set T => exact ⟨(∅ : Set (Dom U T))⟩
  | unitTuple => exact ⟨()⟩
  | tuple A B ihA ihB =>
    obtain ⟨x⟩ := ihA
    obtain ⟨y⟩ := ihB
    exact ⟨(x, y)⟩
  | sort n => exact hU _
  | app F A => exact hU _
  | fn A B _ ihB =>
    obtain ⟨y⟩ := ihB
    exact ⟨fun _ : Dom U A => y⟩

lemma lamVal_eq {B : Ty} {k : Dom U T → Option (Den U)} {g : Dom U T → Dom U B}
    (hne : Nonempty (Dom U T)) (hg : ∀ d, k d = some (.val ⟨B, g d⟩)) :
    lamVal T k = some (.val ⟨.fn T B, g⟩) := by
  have hex : ∃ B', ∀ d, ∃ b : Dom U B', k d = some (.val ⟨B', b⟩) := ⟨B, fun d => ⟨g d, hg d⟩⟩
  have hval : ∀ B' (hB' : ∀ d, ∃ b : Dom U B', k d = some (.val ⟨B', b⟩)),
      (⟨.fn T B', fun d => (hB' d).choose⟩ : Val U) = ⟨.fn T B, g⟩ := by
    intro B' hB'
    have hchoose : ∀ d, (⟨B', (hB' d).choose⟩ : Val U) = ⟨B, g d⟩ := by
      intro d
      have hd := (hB' d).choose_spec.symm.trans (hg d)
      injection hd with hd
      injection hd with hd
      injection hd
    obtain ⟨d⟩ := hne
    obtain rfl : B' = B := congrArg Sigma.fst (hchoose d)
    apply Val.mk_inj.2
    funext d
    exact Val.mk_inj.1 (hchoose d)
  rw [lamVal, dif_pos hex, hval _ hex.choose_spec]

lemma lamDen_of_ty {f : Env U → Option (Den U)} {B : Ty} (hne : ∀ T, Nonempty (Dom U T))
    (h : ∀ ρ, ∃ b : Dom U B, f ρ = some (.val ⟨B, b⟩)) (vs : List Var) (ρ : Env U) :
    ∃ g : Dom U (fnTy vs B), lamDen f vs ρ = some (.val ⟨fnTy vs B, g⟩) := by
  induction vs generalizing ρ with
  | nil => exact h ρ
  | cons v vs ih =>
    choose g hg using fun d => ih (Function.update ρ v d)
    exact ⟨g, lamVal_eq (hne v.2) hg⟩

lemma bindDen_of_binderTy {f : Env U → Option (Den U)} {q : Sym} {vs : List Var} {S R : Shape}
    {ρ : Env U} (hne : ∀ T, Nonempty (Dom U T)) (hf : ∀ ρ, ∃ d, f ρ = some d ∧ d.shape = S)
    (h : binderTy q vs S = some R) : ∃ d, bindDen q vs f ρ = some d ∧ d.shape = R := by
  have hval : ∀ {T : Ty}, S = .arg (.one T) → ∀ ρ, ∃ x : Dom U T, f ρ = some (.val ⟨T, x⟩) := by
    intro T hS ρ
    obtain ⟨d, hd, hshape⟩ := hf ρ
    obtain ⟨x, rfl⟩ := Den.val_of_shape (hshape.trans hS)
    exact ⟨x, hd⟩
  unfold binderTy at h
  split at h
  · cases h
    exact ⟨_, if_pos fun e => hval rfl _, rfl⟩
  · cases h
    exact ⟨_, if_pos fun e => hval rfl _, rfl⟩
  · cases h
    obtain ⟨g, hg⟩ := lamDen_of_ty hne (hval rfl) vs ρ
    exact ⟨_, hg, rfl⟩
  · cases h

section Terms

variable {Γ : Sig} (I : Interp Γ)

/-- The meaning of a term under an assignment. -/
noncomputable def den : Term → Env I.U → Option (Den I.U)
  | .bool b, _ => some (Den.bool b)
  | .num z, _ => some (.val ⟨.int, z⟩)
  | .rat q, _ => some (.val (.real q))
  | .bin w v, _ => some (.val ⟨.bitvec w, v⟩)
  | .str s, _ => some (.val ⟨.string, s⟩)
  | .var x T, ρ => some (.val ⟨T, ρ (x, T)⟩)
  | .const n, _ => some (.val ⟨Γ.const n, I.const n⟩)
  | .cons c, _ => complete I (.con c none) []
  | .consAs c D, _ => complete I (.con c (some D)) []
  | .sel c i, _ => complete I (.sel c i) []
  | .sym s, _ => complete I (.sym s) []
  | .app f a, ρ =>
    match (Term.app f a).head? with
    | some h => complete I h []
    | none =>
      match f.binder? with
      | some (q, xs) => xs.varList.bind fun vs => bindDen q vs (den a) ρ
      | none => (den f ρ).bind fun d => (den a ρ).bind (applyDen I d)

variable {I} {ρ : Env I.U}

lemma den_head {f a : Term} {h : Head} (hh : (Term.app f a).head? = some h) :
    den I (.app f a) ρ = complete I h [] := by
  rw [den, hh]

lemma den_binder {q : Sym} {xs a : Term} (hq : q.isBinder = true) :
    den I (.app (.app (.sym q) xs) a) ρ = xs.varList.bind fun vs => bindDen q vs (den I a) ρ := by
  have hb : (Term.app (.sym q) xs).binder? = some (q, xs) := if_pos hq
  have hh : (Term.app (.app (.sym q) xs) a).head? = none := rfl
  rw [den, hh, hb]

lemma den_app {f a : Term} (hh : (Term.app f a).head? = none) (hb : f.binder? = none) :
    den I (.app f a) ρ = (den I f ρ).bind fun d => (den I a ρ).bind (applyDen I d) := by
  rw [den, hh, hb]

lemma den_of_typeof (I : Interp Γ) {t : Term} {S : Shape} (h : typeof Γ t = some S) (ρ : Env I.U) :
    ∃ d, den I t ρ = some d ∧ d.shape = S := by
  induction t generalizing S ρ with
  | cons c => exact complete_nil_of_completeTy h
  | consAs c D => exact complete_nil_of_completeTy h
  | sel c i => exact complete_nil_of_completeTy h
  | sym s => exact complete_nil_of_completeTy h
  | app f a ihf iha =>
    unfold typeof at h
    split at h
    · rename_i hd hh
      rw [den_head hh]
      exact complete_nil_of_completeTy h
    rename_i hh
    split at h
    · rename_i q xs hb
      obtain ⟨rfl, hq⟩ := Term.binder?_eq_some hb
      obtain ⟨vs, hvs, h⟩ := bind_inv h
      obtain ⟨B, hB, h⟩ := bind_inv h
      rw [den_binder hq, hvs, bind_some]
      exact bindDen_of_binderTy (fun T => dom_nonempty I.nonempty T) (iha hB) h
    rename_i hb
    obtain ⟨F, hF, h⟩ := bind_inv h
    obtain ⟨A, hA, h⟩ := bind_inv h
    obtain ⟨d, hd, rfl⟩ := ihf hF ρ
    obtain ⟨d', hd', rfl⟩ := iha hA ρ
    rw [den_app hh hb, hd, bind_some, hd', bind_some]
    exact applyDen_of_applyTy h
  | _ =>
    cases h
    exact ⟨_, rfl, rfl⟩

lemma den_of_hasTy (I : Interp Γ) {t : Term} {T : Ty} (h : HasTy Γ t T) (ρ : Env I.U) :
    ∃ x : Dom I.U T, den I t ρ = some (.val ⟨T, x⟩) := by
  obtain ⟨d, hd, hshape⟩ := den_of_typeof I h ρ
  obtain ⟨x, rfl⟩ := Den.val_of_shape hshape
  exact ⟨x, hd⟩

variable (I ρ)

/-- A formula that is true. -/
def Sat (F : Term) : Prop := den I F ρ = some (Den.bool true)

end Terms

/-! ## Signatures without datatypes -/

/-- A signature that declares constants and functions only. -/
def plainSig (const : Nat → Ty) : Sig where
  const := const
  constructors := fun _ => none
  arity := fun _ => 0
  ambiguous := fun _ => false
  fields := fun _ _ => none
  result := fun _ _ => none
  length_fields := fun h => nomatch h
  mem_of_fields := fun h => nomatch h
  fields_of_result := fun h => nomatch h
  result_of_fields := fun _ h => nomatch h
  result_ambiguous := fun h => nomatch h

/-- An interpretation of it in which every declared sort has one element. -/
noncomputable def plainInterp {const : Nat → Ty} (val : ∀ n, Dom (fun _ => Unit) (const n)) :
    Interp (plainSig const) where
  U := fun _ => Unit
  nonempty := fun _ => ⟨()⟩
  const := val
  con := fun _ D _ => (dom_nonempty (fun _ => ⟨()⟩) D).some
  sel := fun _ _ _ T _ => (dom_nonempty (fun _ => ⟨()⟩) T).some
  con_inj := fun h => nomatch h
  con_disjoint := fun h => nomatch h
  con_exhaustive := by
    intro D cs h
    obtain ⟨h, -⟩ := Option.filter_eq_some_iff.1 h
    obtain ⟨n, -, h⟩ := bind_inv h
    cases h
  sel_con := fun h => nomatch h
  con_wf := by
    refine ⟨fun w => ⟨w, fun v h => ?_⟩⟩
    obtain ⟨c, D, vs, h, -, -⟩ := h
    cases h

end EthosCpc.Hol
