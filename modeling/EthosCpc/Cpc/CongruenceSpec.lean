import EthosCpc.Cpc.Congruence
import EthosCpc.Hol.Collections

/-!
# Soundness of congruence under binders

A proof is read as a sequent: under every assignment that satisfies its
undischarged assumptions, its conclusion is true.  All congruence rules
produce a term that `Rewrites` the given one.  Rewriting keeps the meaning
under a set of assignments if the premises hold there and if the set is
closed under a change of the variables of each binder that is crossed
(`Rewrites.den_eq`).  The set of assignments that satisfy the assumptions is
closed in this way when the assumptions do not mention these variables.
-/

namespace EthosCpc.Hol

open Library.Assignment
open EthosCpc (truth truth_of truth_of_not)
open EthosCpc.Hol.Term (bop uop)
open Option (bind_some some.inj)
open List (mem_append_left mem_cons_of_mem mem_cons_self)

/-! ## Arguments and parts -/

section Parts

variable {Γ : Sig} {f a b t : Term}

/-- A term that can be a side of an equality: no head waits for arguments in it. -/
def IsArg (Γ : Sig) (t : Term) : Prop := ∃ A, typeof Γ t = some (.arg A)

lemma not_isArg_sym {s : Sym} (hs : s.arity ≠ 0) : ¬ IsArg Γ (.sym s) := by
  intro h
  obtain ⟨A, hA⟩ := h
  rw [typeof_sym_part hs] at hA
  cases hA

variable {q : Sym} {T : Shape}

lemma isBinder_arity (hq : q.isBinder = true) : q.arity ≠ 0 := by
  cases q <;> first | contradiction | decide

/-- A binder takes its variables and its body as a piece of syntax only. -/
lemma typeof_binder_part (hq : q.isBinder = true) : typeof Γ (.app (.sym q) a) = none := by
  have hsym : q ≠ .is ∧ q ≠ .tupleSelect := by cases q <;> first | contradiction | decide
  have happly : ∀ A, applyTy Γ (.part (.sym q) []) A = none := by
    intro A
    cases A with
    | part h As => rfl
    | arg A => cases q <;> first | contradiction | (cases A <;> rfl)
  rw [typeof_app (head?_uop hsym.1 hsym.2) rfl, typeof_sym_part (isBinder_arity hq), bind_some]
  cases typeof Γ a with
  | none => rfl
  | some A => exact happly A

lemma not_isArg_binder (hq : q.isBinder = true) : ¬ IsArg Γ (.app (.sym q) a) := by
  intro h
  obtain ⟨A, hA⟩ := h
  rw [typeof_binder_part hq] at hA
  cases hA

def Sym.takesIndex (s : Sym) : Prop := s = .is ∨ s = .tupleSelect

lemma head?_app_inv {h : Head} (hh : (Term.app f a).head? = some h) :
    ∃ s, f = .sym s ∧ s.takesIndex := by
  unfold Term.head? at hh
  split at hh
  case h_5 heq | h_6 heq | h_7 heq | h_8 heq =>
    cases heq
    exact ⟨.is, rfl, .inl rfl⟩
  case h_9 heq =>
    cases heq
    exact ⟨.tupleSelect, rfl, .inr rfl⟩
  all_goals contradiction

lemma head?_of_takesIndex {s : Sym} (hs : s.takesIndex)
    (ht : typeof Γ (.app (.sym s) a) = some T) : ∃ h, (Term.app (.sym s) a).head? = some h := by
  cases hh : (Term.app (.sym s) a).head? with
  | some h => exact ⟨h, rfl⟩
  | none =>
    have harity : s.arity ≠ 0 := by
      obtain rfl | rfl := hs
      · decide
      · decide
    have happly : ∀ A, applyTy Γ (.part (.sym s) []) A = none := by
      intro A
      obtain rfl | rfl := hs
      · cases A with
        | part h As => rfl
        | arg A => cases A <;> rfl
      cases A with
      | part h As => rfl
      | arg A => cases A <;> rfl
    rw [typeof_app hh rfl, typeof_sym_part harity, bind_some] at ht
    obtain ⟨A, _, hA⟩ := bind_inv ht
    rw [happly] at hA
    cases hA

lemma typeof_app_cases (ht : typeof Γ (.app f a) = some T) : (∃ h, (Term.app f a).head? = some h) ∨
    (∃ q xs vs, f = .app (.sym q) xs ∧ q.isBinder = true ∧ xs.varList = some vs ∧
      ∃ B, typeof Γ a = some B) ∨
    ((Term.app f a).head? = none ∧ f.binder? = none ∧ (∃ F, typeof Γ f = some F) ∧
      ∃ A, typeof Γ a = some A) := by
  cases hh : (Term.app f a).head? with
  | some h => exact .inl ⟨h, rfl⟩
  | none =>
    refine .inr ?_
    rw [typeof, hh] at ht
    cases hb : f.binder? with
    | some qxs =>
      obtain ⟨rfl, hq⟩ := Term.binder?_eq_some hb
      rw [hb] at ht
      obtain ⟨vs, hvs, ht⟩ := bind_inv ht
      obtain ⟨B, hB, _⟩ := bind_inv ht
      exact .inl ⟨qxs.1, qxs.2, vs, rfl, hq, hvs, B, hB⟩
    | none =>
      rw [hb] at ht
      obtain ⟨F, hF, ht⟩ := bind_inv ht
      obtain ⟨A, hA, _⟩ := bind_inv ht
      exact .inr ⟨rfl, rfl, ⟨F, hF⟩, A, hA⟩

lemma isArg_of_applyTy {F A : Shape} (h : applyTy Γ F A = some T) : ∃ B, A = .arg B := by
  cases A with
  | arg B => exact ⟨B, rfl⟩
  | part k As =>
    unfold applyTy at h
    split at h
    · contradiction
    · rename_i heq
      cases heq
    · contradiction

lemma isArg_of_eq (h : typeof Γ (bop .eq a b) = some T) : IsArg Γ a ∧ IsArg Γ b := by
  have hhead : (uop .eq a).head? = none := head?_uop (by decide) (by decide)
  rw [typeof_app rfl rfl, typeof_app hhead rfl] at h
  obtain ⟨F, hF, h⟩ := bind_inv h
  obtain ⟨B, hB, h⟩ := bind_inv h
  obtain ⟨_, _, hF⟩ := bind_inv hF
  obtain ⟨A, hA, hF⟩ := bind_inv hF
  obtain ⟨A', rfl⟩ := isArg_of_applyTy hF
  obtain ⟨B', rfl⟩ := isArg_of_applyTy h
  exact ⟨⟨A', hA⟩, B', hB⟩

end Parts

/-! ## Rewriting with the premises -/

section Rewrites

variable {Γ : Sig} {I : Interp Γ} {E : Term → Term → Prop} {ok : Term → Prop}
  {a b f t u : Term} {ρ : Env I.U}

/-- The second term is the first one with sides of premises replaced.  The binders that this
crosses satisfy `ok`. -/
inductive Rewrites (E : Term → Term → Prop) (ok : Term → Prop) : Term → Term → Prop
  | same (t : Term) : Rewrites E ok t t
  | premise {a b : Term} (h : E a b) : Rewrites E ok a b
  | app {f f' a a' : Term} (hf : Rewrites E ok f f') (ha : Rewrites E ok a a')
      (hok : ∀ xs ∈ boundList f, ok xs) : Rewrites E ok (.app f a) (.app f' a')

/-- The premises hold for the assignments `S`, and `S` is closed under a change of the variables
of a binder that may be crossed. -/
structure Justified (I : Interp Γ) (S : Set (Env I.U)) (E : Term → Term → Prop)
    (ok : Term → Prop) : Prop where
  isArg : ∀ {a b}, E a b → IsArg Γ a ∧ IsArg Γ b
  den_eq : ∀ {a b}, E a b → ∀ ρ ∈ S, den I a ρ = den I b ρ
  closed : ∀ {xs vs}, ok xs → xs.varList = some vs → ∀ ρ ∈ S, ∀ e, override vs e ρ ∈ S

variable {S : Set (Env I.U)} (hJ : Justified I S E ok)

include hJ

variable {s q : Sym} {xs ys : Term} {h k : Head}

lemma Rewrites.sym_left (h : Rewrites E ok (.sym s) u) (hs : s.arity ≠ 0) : u = .sym s := by
  cases h with
  | same => rfl
  | premise h => exact absurd (hJ.isArg h).1 (not_isArg_sym hs)

lemma Rewrites.sym_right (h : Rewrites E ok t (.sym s)) (hs : s.arity ≠ 0) : t = .sym s := by
  cases h with
  | same => rfl
  | premise h => exact absurd (hJ.isArg h).2 (not_isArg_sym hs)

lemma Rewrites.binder_left (hq : q.isBinder = true) (h : Rewrites E ok (.app (.sym q) xs) u) :
    ∃ ys, u = .app (.sym q) ys ∧ Rewrites E ok xs ys := by
  cases h with
  | same => exact ⟨xs, rfl, .same xs⟩
  | premise h => exact absurd (hJ.isArg h).1 (not_isArg_binder hq)
  | app hf ha _ =>
    obtain rfl := hf.sym_left hJ (isBinder_arity hq)
    exact ⟨_, rfl, ha⟩

lemma Rewrites.binder_right (hq : q.isBinder = true)
    (h : Rewrites E ok t (.app (.sym q) ys)) : ∃ xs, t = .app (.sym q) xs := by
  cases h with
  | same => exact ⟨ys, rfl⟩
  | premise h => exact absurd (hJ.isArg h).2 (not_isArg_binder hq)
  | app hf ha _ =>
    obtain rfl := hf.sym_right hJ (isBinder_arity hq)
    exact ⟨_, rfl⟩

omit hJ

/-! ### Indices -/

lemma conVal_of_isArg (ha : IsArg Γ a) (hargs : a.appArgs = [])
    (hh : a.appHead.consHead? = some h) (hc : ∀ ρ, den I a ρ = complete I h []) :
    ∃ v, den I a ρ = some (.val v) ∧ ConVal I a.appHead [] v := by
  obtain ⟨A, hA⟩ := ha
  obtain ⟨d, hd, hshape⟩ := den_of_typeof I hA ρ
  obtain ⟨vs, hvs, heq | ⟨v, rfl, hv⟩⟩ := den_con_nil hargs hh (hc ρ) hd
  · rw [heq] at hshape
    cases hshape
  rw [hargs] at hvs
  cases hvs
  exact ⟨v, hd, hv⟩

lemma ConVal.ne_unit {hd : Term} {v : Val I.U} (h : ConVal I hd [] v) : v.1 ≠ .unitTuple := by
  intro hv
  unfold ConVal at h
  split at h
  · obtain ⟨n, cs, hsym, _⟩ := Γ.mem_of_fields h.2.1
    rw [hv] at hsym
    cases hsym
  · obtain ⟨n, cs, hsym, _⟩ := Γ.mem_of_fields h.2.2.1
    rw [hv] at hsym
    cases hsym
  · obtain ⟨x, y, hvs, _⟩ := h
    cases hvs
  · exact h

lemma tester_cases (ha : IsArg Γ a) (hh : (Term.app (.sym .is) a).head? = some h) :
    (a.appHead = a ∧ ∃ v, den I a ρ = some (.val v) ∧ ConVal I a [] v) ∨ a = .sym .tupleUnit := by
  unfold Term.head? at hh
  split at hh
  case h_5 heq | h_6 heq =>
    cases heq
    exact .inl ⟨rfl, conVal_of_isArg ha rfl rfl fun _ => rfl⟩
  case h_7 heq =>
    cases heq
    exact absurd ha (not_isArg_sym (by decide))
  case h_8 heq =>
    cases heq
    exact .inr rfl
  case h_9 heq => cases heq
  all_goals contradiction

lemma tester_unique (ha : IsArg Γ a) (hb : IsArg Γ b)
    (hh : (Term.app (.sym .is) a).head? = some h) (hk : (Term.app (.sym .is) b).head? = some k)
    (heq : den I a ρ = den I b ρ) : a = b := by
  have hunit : den I (.sym .tupleUnit) ρ = some (.val ⟨.unitTuple, ()⟩) := rfl
  obtain ⟨-, v, hv, hcon⟩ | rfl := tester_cases (I := I) (ρ := ρ) ha hh
  · obtain ⟨-, w, hw, hcon'⟩ | rfl := tester_cases (I := I) (ρ := ρ) hb hk
    · rw [hv, hw, Option.some.injEq, Den.val_inj] at heq
      exact hcon.head_eq (heq ▸ hcon')
    · rw [hv, hunit, Option.some.injEq, Den.val_inj] at heq
      exact absurd (congrArg Sigma.fst heq) hcon.ne_unit
  obtain ⟨-, w, hw, hcon'⟩ | rfl := tester_cases (I := I) (ρ := ρ) hb hk
  · rw [hw, hunit, Option.some.injEq, Den.val_inj] at heq
    exact absurd (congrArg Sigma.fst heq.symm) hcon'.ne_unit
  · rfl

lemma tupleSelect_unique (hh : (Term.app (.sym .tupleSelect) a).head? = some h)
    (hk : (Term.app (.sym .tupleSelect) b).head? = some k) (heq : den I a ρ = den I b ρ) :
    a = b := by
  have hnum : ∀ {a : Term} {h : Head}, (Term.app (.sym .tupleSelect) a).head? = some h →
      ∃ n, a = .num n := by
    intro a h hh
    unfold Term.head? at hh
    split at hh
    case h_9 n heq =>
      cases heq
      exact ⟨n, rfl⟩
    case h_5 heq | h_6 heq | h_7 heq | h_8 heq => cases heq
    all_goals contradiction
  obtain ⟨n, rfl⟩ := hnum hh
  obtain ⟨m, rfl⟩ := hnum hk
  rw [den, den, Option.some.injEq, Den.val_inj] at heq
  exact congrArg Term.num (Val.mk_inj.1 heq)

include hJ in
lemma Rewrites.index (ha : Rewrites E ok a b) (hs : s.takesIndex)
    (hh : (Term.app (.sym s) a).head? = some h) (hk : (Term.app (.sym s) b).head? = some k)
    (hρ : ρ ∈ S) : a = b := by
  cases ha with
  | same => rfl
  | premise hE =>
    obtain ⟨hargA, hargB⟩ := hJ.isArg hE
    obtain rfl | rfl := hs
    · exact tester_unique hargA hargB hh hk (hJ.den_eq hE ρ hρ)
    · exact tupleSelect_unique hh hk (hJ.den_eq hE ρ hρ)
  | app hf ha hok =>
    obtain rfl | rfl := hs
    · contradiction
    · contradiction

/-! ### One application -/

/-- A list of variables with the same values, whatever a binder chooses, binds the same. -/
lemma interchangeable_of_den {vs ws : List Var} (hvs : xs.varList = some vs)
    (hws : ys.varList = some ws)
    (h : ∀ e, den I xs (override vs e ρ) = den I ys (override vs e ρ)) :
    List.Forall₂ (Interchangeable I.U) vs ws := by
  have hval : ∀ e, vs.map (fun v => (⟨v.2, override vs e ρ v⟩ : Val I.U)) =
      ws.map fun v => ⟨v.2, override vs e ρ v⟩ := by
    intro e
    have he := h e
    rw [den_of_varList hvs, den_of_varList hws] at he
    injection he with he
    injection he with he
    injection he
  have hlen : vs.length = ws.length := by
    have hl := congrArg List.length (hval ρ)
    rwa [List.length_map, List.length_map] at hl
  rw [List.forall₂_iff_get]
  refine ⟨hlen, fun i hi hi' => ?_⟩
  apply interchangeable_of_eq (ρ := ρ) (List.get_mem vs ⟨i, hi⟩)
  intro e
  have he : (vs.map (fun v => (⟨v.2, override vs e ρ v⟩ : Val I.U)))[i]? =
      (ws.map fun v => ⟨v.2, override vs e ρ v⟩)[i]? := by rw [hval e]
  rw [List.getElem?_map, List.getElem?_map, List.getElem?_eq_getElem hi,
    List.getElem?_eq_getElem hi'] at he
  exact some.inj he

include hJ in
lemma den_binder_congr {vs ws : List Var} (hq : q.isBinder = true)
    (hvs : xs.varList = some vs) (hws : ys.varList = some ws) (hok : ok xs)
    (hlist : ∀ ρ ∈ S, den I xs ρ = den I ys ρ) (hbody : ∀ ρ ∈ S, den I a ρ = den I b ρ)
    (hρ : ρ ∈ S) : den I (.app (.app (.sym q) xs) a) ρ = den I (.app (.app (.sym q) ys) b) ρ := by
  have hclosed : ∀ e, override vs e ρ ∈ S := hJ.closed hok hvs ρ hρ
  rw [den_binder hq, den_binder hq, hvs, hws, bind_some, bind_some]
  calc bindDen q vs (den I a) ρ
      = bindDen q vs (den I b) ρ := bindDen_congr fun e => hbody _ (hclosed e)
    _ = bindDen q ws (den I b) ρ :=
        bindDen_congr_vars (interchangeable_of_den hvs hws fun e => hlist _ (hclosed e))

include hJ in
lemma Rewrites.plain {f' : Term} {T : Shape} (a' : Term) (hf : Rewrites E ok f f')
    (hh : (Term.app f a).head? = none) (hb : f.binder? = none) (hty : ∃ F, typeof Γ f = some F)
    (ht : typeof Γ (.app f a) = some T) :
    (Term.app f' a').head? = none ∧ f'.binder? = none := by
  constructor
  · cases hh' : (Term.app f' a').head? with
    | none => rfl
    | some h =>
      obtain ⟨s, rfl, hs⟩ := head?_app_inv hh'
      have harity : s.arity ≠ 0 := by
        obtain rfl | rfl := hs
        · decide
        · decide
      obtain rfl := hf.sym_right hJ harity
      obtain ⟨k, hk⟩ := head?_of_takesIndex hs ht
      rw [hk] at hh
      cases hh
  · cases hb' : f'.binder? with
    | none => rfl
    | some qys =>
      obtain ⟨rfl, hq⟩ := Term.binder?_eq_some hb'
      obtain ⟨xs, rfl⟩ := hf.binder_right hJ hq
      obtain ⟨F, hF⟩ := hty
      rw [typeof_binder_part hq] at hF
      cases hF

/-! ### Any term -/

/-- What the induction on a term carries: the term, and the argument of an application, keep their
meaning under rewriting. -/
def KeepsDen (I : Interp Γ) (S : Set (Env I.U)) (E : Term → Term → Prop) (ok : Term → Prop)
    (t : Term) : Prop :=
  ∀ u, Rewrites E ok t u → (∃ T, typeof Γ t = some T) → (∃ T, typeof Γ u = some T) →
    ∀ ρ ∈ S, den I t ρ = den I u ρ

include hJ in
lemma keepsDen_app {f' a' : Term} (ihf : KeepsDen I S E ok f)
    (ihx : ∀ g x, f = .app g x → KeepsDen I S E ok x) (iha : KeepsDen I S E ok a)
    (hf : Rewrites E ok f f') (ha : Rewrites E ok a a') (hok : ∀ xs ∈ boundList f, ok xs)
    (ht : ∃ T, typeof Γ (.app f a) = some T) (hu : ∃ T, typeof Γ (.app f' a') = some T)
    (hρ : ρ ∈ S) : den I (.app f a) ρ = den I (.app f' a') ρ := by
  obtain ⟨T, ht⟩ := ht
  obtain ⟨R, hu⟩ := hu
  obtain ⟨h, hh⟩ | ⟨q, xs, vs, rfl, hq, hvs, hbody⟩ | ⟨hh, hb, hF, hA⟩ := typeof_app_cases ht
  · -- a symbol with its index
    obtain ⟨s, rfl, hs⟩ := head?_app_inv hh
    have harity : s.arity ≠ 0 := by
      obtain rfl | rfl := hs
      · decide
      · decide
    obtain rfl := hf.sym_left hJ harity
    obtain ⟨k, hk⟩ := head?_of_takesIndex hs hu
    rw [ha.index hJ hs hh hk hρ]
  · -- a binder
    obtain ⟨ys, rfl, hlist⟩ := hf.binder_left hJ hq
    have hbinder : (Term.app (.sym q) xs).binder? = some (q, xs) := if_pos hq
    have hokxs : ok xs := hok xs (by rw [boundList, hbinder]; exact List.mem_singleton_self xs)
    obtain ⟨k, hk⟩ | ⟨q', ys', ws, heq, -, hws, hbody'⟩ | ⟨-, hb', -⟩ := typeof_app_cases hu
    · cases hk
    · cases heq
      exact den_binder_congr hJ hq hvs hws hokxs
        (fun σ hσ => ihx _ _ rfl _ hlist ⟨_, typeof_of_varList hvs⟩ ⟨_, typeof_of_varList hws⟩ σ hσ)
        (fun σ hσ => iha _ ha hbody hbody' σ hσ) hρ
    have hbinder' : (Term.app (.sym q) ys).binder? = some (q, ys) := if_pos hq
    rw [hbinder'] at hb'
    cases hb'
  -- a function or a symbol with one more argument
  obtain ⟨hh', hb'⟩ := hf.plain hJ a' hh hb hF ht
  obtain ⟨k, hk⟩ | ⟨q', ys', ws, rfl, hq', -, -⟩ | ⟨-, -, hF', hA'⟩ := typeof_app_cases hu
  · rw [hk] at hh'
    cases hh'
  · have hbinder' : (Term.app (.sym q') ys').binder? = some (q', ys') := if_pos hq'
    rw [hbinder'] at hb'
    cases hb'
  · rw [den_app hh hb, den_app hh' hb', ihf _ hf hF hF' ρ hρ, iha _ ha hA hA' ρ hρ]

include hJ in
lemma Rewrites.den_eq (h : Rewrites E ok t u) (ht : ∃ T, typeof Γ t = some T)
    (hu : ∃ T, typeof Γ u = some T) : ∀ ρ ∈ S, den I t ρ = den I u ρ := by
  have key : ∀ t, KeepsDen I S E ok t ∧ ∀ g x, t = .app g x → KeepsDen I S E ok x := by
    intro t
    induction t with
    | app f a ihf iha =>
      refine ⟨?_, fun g x heq => ?_⟩
      · intro u h ht hu ρ hρ
        cases h with
        | same => rfl
        | premise hE => exact hJ.den_eq hE ρ hρ
        | app hf ha hok => exact keepsDen_app hJ ihf.1 ihf.2 iha.1 hf ha hok ht hu hρ
      · cases heq
        exact iha.1
    | _ =>
      refine ⟨?_, fun g x heq => by cases heq⟩
      intro u h _ _ ρ hρ
      cases h with
      | same => rfl
      | premise hE => exact hJ.den_eq hE ρ hρ
  exact (key t).1 u h ht hu

end Rewrites

/-! ## The congruence programs rewrite -/

section Programs

variable {E : Term → Term → Prop} {ok : Term → Prop} {f g t u φ F : Term} {Fs : List Term}

lemma mkCongRhs_true (t : Term) : mkCongRhs t (.bool true) = some t := by
  cases t <;> rfl

lemma mkNaryCongRhs_true (t : Term) : mkNaryCongRhs t (.bool true) = some t := by
  unfold mkNaryCongRhs
  split
  · contradiction
  · rfl
  · contradiction

lemma mkCongRhs_cons (h : mkCongRhs t (mkAnd (F :: Fs)) = some u) :
    ∃ f a b g, t = .app f a ∧ F = bop .eq a b ∧ mkCongRhs f (mkAnd Fs) = some g ∧ u = .app g b := by
  unfold mkCongRhs at h
  split at h
  · rename_i f a r b tail heq
    cases heq
    split at h
    · rename_i hr
      obtain ⟨g, hg, rfl⟩ := map_inv h
      exact ⟨f, a, b, g, rfl, by rw [hr], hg, rfl⟩
    · contradiction
  · contradiction
  · contradiction

lemma mkNaryCongRhs_cons (h : mkNaryCongRhs t (mkAnd (F :: Fs)) = some u) :
    ∃ f a b t' u', t = .app (.app f a) t' ∧ F = bop .eq a b ∧
      mkNaryCongRhs t' (mkAnd Fs) = some u' ∧ u = .app (.app f b) u' := by
  unfold mkNaryCongRhs at h
  split at h
  · rename_i f a t' r b tail heq
    cases heq
    split at h
    · rename_i hr
      obtain ⟨u', hu', rfl⟩ := map_inv h
      exact ⟨f, a, b, t', u', rfl, by rw [hr], hu', rfl⟩
    · contradiction
  · contradiction
  · contradiction

lemma changes_cons {a b : Term} :
    changes (mkAnd (bop .eq a b :: Fs)) = false ↔ a = b ∧ changes (mkAnd Fs) = false := by
  rw [mkAnd, changes, Bool.or_eq_false_iff, decide_eq_false_iff_not, not_not]

lemma mkCongRhs_of_not_changes (h : mkCongRhs t (mkAnd Fs) = some u)
    (hc : changes (mkAnd Fs) = false) : u = t := by
  induction Fs generalizing t u with
  | nil => exact some.inj (h.symm.trans (mkCongRhs_true t))
  | cons F Fs ih =>
    obtain ⟨f, a, b, g, rfl, rfl, hg, rfl⟩ := mkCongRhs_cons h
    obtain ⟨rfl, htail⟩ := changes_cons.1 hc
    rw [ih hg htail]

lemma mkNaryCongRhs_of_not_changes (h : mkNaryCongRhs t (mkAnd Fs) = some u)
    (hc : changes (mkAnd Fs) = false) : u = t := by
  induction Fs generalizing t u with
  | nil => exact some.inj (h.symm.trans (mkNaryCongRhs_true t))
  | cons F Fs ih =>
    obtain ⟨f, a, b, t', u', rfl, rfl, hu', rfl⟩ := mkNaryCongRhs_cons h
    obtain ⟨rfl, htail⟩ := changes_cons.1 hc
    rw [ih hu' htail]

lemma rewrites_of_mkCongRhs (h : mkCongRhs t (mkAnd Fs) = some u)
    (hok : ∀ xs ∈ congCrossed t (mkAnd Fs), ok xs) (hE : ∀ a b, bop .eq a b ∈ Fs → E a b) :
    Rewrites E ok t u := by
  induction Fs generalizing t u with
  | nil =>
    cases h.symm.trans (mkCongRhs_true t)
    exact .same _
  | cons F Fs ih =>
    cases hc : changes (mkAnd (F :: Fs)) with
    | false =>
      obtain rfl := mkCongRhs_of_not_changes h hc
      exact .same _
    | true =>
      obtain ⟨f, a, b, g, rfl, rfl, hg, rfl⟩ := mkCongRhs_cons h
      have hcross : congCrossed (.app f a) (mkAnd (bop .eq a b :: Fs)) =
          boundList f ++ congCrossed f (mkAnd Fs) := by
        rw [mkAnd] at hc ⊢
        rw [congCrossed, hc, if_pos rfl]
      rw [hcross] at hok
      apply Rewrites.app
      · exact ih hg (fun xs hxs => hok xs (List.mem_append_right _ hxs))
          fun c d hcd => hE c d (.tail _ hcd)
      · exact .premise (hE a b (.head _))
      · exact fun xs hxs => hok xs (mem_append_left _ hxs)

lemma rewrites_of_mkNaryCongRhs (h : mkNaryCongRhs t (mkAnd Fs) = some u)
    (hok : ∀ xs ∈ naryCrossed t (mkAnd Fs), ok xs) (hE : ∀ a b, bop .eq a b ∈ Fs → E a b) :
    Rewrites E ok t u := by
  induction Fs generalizing t u with
  | nil =>
    cases h.symm.trans (mkNaryCongRhs_true t)
    exact .same _
  | cons F Fs ih =>
    cases hc : changes (mkAnd (F :: Fs)) with
    | false =>
      obtain rfl := mkNaryCongRhs_of_not_changes h hc
      exact .same _
    | true =>
      obtain ⟨f, a, b, t', u', rfl, rfl, hu', rfl⟩ := mkNaryCongRhs_cons h
      have hcross : naryCrossed (.app (.app f a) t') (mkAnd (bop .eq a b :: Fs)) =
          boundList (.app f a) ++ (if changes (bop .and (bop .eq a b) (.bool true)) then
            boundList f else []) ++ naryCrossed t' (mkAnd Fs) := by
        rw [mkAnd] at hc ⊢
        rw [naryCrossed, hc, if_pos rfl]
      rw [hcross] at hok
      have hfirst : Rewrites E ok (.app f a) (.app f b) := by
        by_cases hab : a = b
        · rw [hab]
          exact .same _
        have hone : changes (bop .and (bop .eq a b) (.bool true)) = true := by
          rw [changes, decide_eq_true hab, Bool.true_or]
        rw [hone, if_pos rfl] at hok
        apply Rewrites.app (.same f) (.premise (hE a b (.head _)))
        exact fun xs hxs => hok xs (mem_append_left _ (List.mem_append_right _ hxs))
      apply Rewrites.app hfirst
      · exact ih hu' (fun xs hxs => hok xs (List.mem_append_right _ hxs))
          fun c d hcd => hE c d (.tail _ hcd)
      · exact fun xs hxs => hok xs (mem_append_left _ (mem_append_left _ hxs))

lemma boundList_app {a : Term} (h : ∀ s, f = .sym s → s.isBinder = false) :
    boundList (.app f a) = [] := by
  cases f with
  | sym s =>
    have hnone : (Term.app (.sym s) a).binder? = none := if_neg (by rw [h s rfl]; decide)
    rw [boundList, hnone]
  | _ => rfl

lemma rewrites_of_mkHoCong (h : mkHoCong f g (mkAnd Fs) = some φ) (hf : boundList f = [])
    (hsym : ∀ s, f = .sym s → s.isBinder = false) (hfg : Rewrites E ok f g) (hE : ∀ a b, bop .eq a b ∈ Fs → E a b) :
    ∃ t u, φ = bop .eq t u ∧ Rewrites E ok t u := by
  induction Fs generalizing f g with
  | nil =>
    cases h
    exact ⟨f, g, rfl, hfg⟩
  | cons F Fs ih =>
    unfold mkHoCong at h
    split at h
    · rename_i a b tail heq
      cases heq
      apply ih h (boundList_app hsym) nofun
      · apply Rewrites.app hfg (.premise (hE a b mem_cons_self))
        rw [hf]
        exact fun xs hxs => absurd hxs List.not_mem_nil
      · exact fun c d hcd => hE c d (mem_cons_of_mem _ hcd)
    · contradiction
    · contradiction

end Programs

/-! ## Soundness of the steps -/

section Steps

variable {Γ : Sig} {I : Interp Γ} {ρ : Env I.U} {Δ Fs : List Term} {a b t u F C φ : Term}

/-- The assignments that satisfy all formulas of a list. -/
def Models (I : Interp Γ) (Δ : List Term) : Set (Env I.U) := { ρ | ∀ A ∈ Δ, Sat I ρ A }

/-- Assumptions do not see a variable that is not free in them. -/
lemma override_mem_models {xs : Term} {vs : List Var} {e : Env I.U} (hfresh : Fresh Δ xs)
    (hvs : xs.varList = some vs) (hρ : ρ ∈ Models I Δ) : override vs e ρ ∈ Models I Δ := by
  intro A hA
  rw [Fresh, hvs, Option.getD_some] at hfresh
  rw [Sat, den_override_of_free fun v hv => hfresh v hv A hA]
  exact hρ A hA

lemma truth_of_hasTy (I : Interp Γ) (h : HasTy Γ F .bool) (ρ : Env I.U) :
    ∃ p, Truth I ρ F p := den_of_hasTy I h ρ

/-- The premises of a step are formulas that hold under the assumptions. -/
structure Premises (I : Interp Γ) (Δ Fs : List Term) : Prop where
  hasTy : ∀ F ∈ Fs, HasTy Γ F .bool
  sat : ∀ F ∈ Fs, ∀ ρ ∈ Models I Δ, Sat I ρ F

lemma justified_of_premises (hFs : Premises I Δ Fs) :
    Justified I (Models I Δ) (fun a b => bop .eq a b ∈ Fs) (Fresh Δ) where
  isArg := fun h => isArg_of_eq (hFs.hasTy _ h)
  den_eq := by
    intro a b h ρ hρ
    obtain ⟨x, ha, hb⟩ := sat_eq.1 (hFs.sat _ h ρ hρ)
    rw [ha, hb]
  closed := fun hfresh hvs ρ hρ e => override_mem_models hfresh hvs hρ

lemma sat_of_rewrites (hFs : Premises I Δ Fs)
    (h : Rewrites (fun a b => bop .eq a b ∈ Fs) (Fresh Δ) t u) (hty : HasTy Γ (bop .eq t u) .bool)
    (hρ : ρ ∈ Models I Δ) : Sat I ρ (bop .eq t u) := by
  obtain ⟨⟨A, hA⟩, B, hB⟩ := isArg_of_eq hty
  obtain ⟨d, hd, hshape⟩ := den_of_typeof I hA ρ
  cases d with
  | part h as => cases hshape
  | arg x =>
    refine sat_eq.2 ⟨x, hd, ?_⟩
    rw [← h.den_eq (justified_of_premises hFs) ⟨_, hA⟩ ⟨_, hB⟩ ρ hρ, hd]

/-! ### Equality -/

lemma mkSymm_sat (h : mkSymm F = some φ) (hF : Sat I ρ F) : Sat I ρ φ := by
  unfold mkSymm at h
  split at h
  · cases h
    obtain ⟨x, ha, hb⟩ := sat_eq.1 hF
    exact sat_eq.2 ⟨x, hb, ha⟩
  · cases h
    have hne := sat_not.1 hF
    obtain ⟨x, y, ha, hb, hty, heq⟩ := den_eq_inv hne
    rw [Den.bool_inj] at heq
    apply sat_not.2
    have hsymm := den_eq hb ha hty.symm
    have hxy : ¬ y = x := by
      intro hyx
      rw [truth_of hyx.symm] at heq
      cases heq
    rwa [truth_of_not hxy] at hsymm
  · cases h

lemma mkTrans_sat (h : mkTrans a b (mkAnd Fs) = some φ) (hab : Sat I ρ (bop .eq a b))
    (hFs : ∀ F ∈ Fs, Sat I ρ F) : Sat I ρ φ := by
  induction Fs generalizing b with
  | nil =>
    cases h
    exact hab
  | cons F Fs ih =>
    unfold mkTrans at h
    split at h
    · rename_i c d tail heq
      cases heq
      split at h
      swap
      · contradiction
      rename_i hbc
      obtain ⟨x, ha, hb⟩ := sat_eq.1 hab
      obtain ⟨y, hc, hd⟩ := sat_eq.1 (hFs _ mem_cons_self)
      rw [hbc, hc] at hb
      cases hb
      exact ih h (sat_eq.2 ⟨x, ha, hd⟩) fun G hG => hFs G (mem_cons_of_mem _ hG)
    · contradiction
    · contradiction

lemma trans_sat (h : trans (mkAnd Fs) = some φ) (hFs : ∀ F ∈ Fs, Sat I ρ F) : Sat I ρ φ := by
  cases Fs with
  | nil => contradiction
  | cons F Fs =>
    unfold trans at h
    split at h
    · rename_i a b tail heq
      cases heq
      exact mkTrans_sat h (hFs _ (.head _)) fun G hG => hFs G (.tail _ hG)
    · cases h

/-! ### Congruence -/

lemma cong_sat (h : cong t Fs = some φ) (hFs : Premises I Δ Fs)
    (hfresh : ∀ xs ∈ congCrossed t (mkAnd Fs.reverse), Fresh Δ xs) (hty : HasTy Γ φ .bool)
    (hρ : ρ ∈ Models I Δ) : Sat I ρ φ := by
  obtain ⟨u, hu, rfl⟩ := map_inv h
  exact sat_of_rewrites hFs
    (rewrites_of_mkCongRhs hu hfresh fun a b hab => List.mem_reverse.1 hab) hty hρ

lemma naryCong_sat (h : naryCong t (mkAnd Fs) = some φ) (hFs : Premises I Δ Fs)
    (hfresh : ∀ xs ∈ naryCrossed t (mkAnd Fs), Fresh Δ xs) (hty : HasTy Γ φ .bool)
    (hρ : ρ ∈ Models I Δ) : Sat I ρ φ := by
  obtain ⟨u, hu, rfl⟩ := map_inv h
  exact sat_of_rewrites hFs (rewrites_of_mkNaryCongRhs hu hfresh fun a b hab => hab) hty hρ

lemma pairwiseCong_sat (h : pairwiseCong t (mkAnd Fs) = some φ) (hFs : Premises I Δ Fs)
    (hfresh : ∀ xs ∈ pairwiseCrossed t (mkAnd Fs), Fresh Δ xs) (hty : HasTy Γ φ .bool)
    (hρ : ρ ∈ Models I Δ) : Sat I ρ φ := by
  cases t with
  | app f xs =>
    obtain ⟨ys, hys, rfl⟩ := map_inv h
    rw [pairwiseCrossed] at hfresh
    apply sat_of_rewrites hFs ?_ hty hρ
    cases hc : changes (mkAnd Fs) with
    | false =>
      rw [mkNaryCongRhs_of_not_changes hys hc]
      exact .same _
    | true =>
      rw [hc, if_pos rfl] at hfresh
      apply Rewrites.app (.same f)
      · exact rewrites_of_mkNaryCongRhs hys
          (fun zs hzs => hfresh zs (List.mem_append_right _ hzs)) fun a b hab => hab
      · exact fun zs hzs => hfresh zs (mem_append_left _ hzs)
  | _ => contradiction

lemma boundList_of_isArg (h : IsArg Γ t) : boundList t = [] := by
  unfold boundList
  split
  · rename_i q xs hb
    obtain ⟨rfl, hq⟩ := Term.binder?_eq_some hb
    exact absurd h (not_isArg_binder hq)
  · rfl

lemma isBinder_of_isArg (h : IsArg Γ t) : ∀ s, t = .sym s → s.isBinder = false := by
  intro s hs
  subst hs
  by_contra hq
  exact not_isArg_sym (isBinder_arity (eq_true_of_ne_false hq)) h

lemma hoCong_sat (h : hoCong (mkAnd Fs) = some φ) (hFs : Premises I Δ Fs)
    (hty : HasTy Γ φ .bool) (hρ : ρ ∈ Models I Δ) : Sat I ρ φ := by
  cases Fs with
  | nil => contradiction
  | cons F Fs =>
    unfold hoCong at h
    split at h
    swap
    · contradiction
    rename_i f g tail heq
    cases heq
    obtain ⟨hf, _⟩ := isArg_of_eq (hFs.hasTy _ mem_cons_self)
    obtain ⟨t, u, rfl, hrw⟩ := rewrites_of_mkHoCong h (boundList_of_isArg hf)
      (isBinder_of_isArg hf) (.premise (E := fun a b => bop .eq a b ∈ _) mem_cons_self)
      fun a b hab => mem_cons_of_mem _ hab
    exact sat_of_rewrites hFs hrw hty hρ

end Steps

end EthosCpc.Hol
