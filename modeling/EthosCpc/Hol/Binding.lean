import EthosCpc.Hol.Value

/-!
# Free variables and the logical symbols

The meaning of a term depends on its free variables only
(`den_congr_free`), and a binder depends on its body at the assignments
it ranges over (`bindDen_congr`).  The rest of the module says what the
logical symbols mean, in the form the soundness proofs use.
-/

namespace EthosCpc.Hol

open Library.Assignment
open EthosCpc (truth truth_eq_true truth_eq_false truth_inj truth_of truth_of_not eq_truth)
open EthosCpc.Hol.Term (bop uop lcons)
open Option (bind_eq_some_iff bind_some)

variable {U : Ty → Type}

/-! ## Binders and their bodies -/

variable {f : Env U → Option (Den U)}

variable {g : Env U → Option (Den U)}

lemma lamDen_congr {vs : List Var} {ρ ρ' : Env U}
    (h : ∀ e, f (override vs e ρ) = g (override vs e ρ')) : lamDen f vs ρ = lamDen g vs ρ' := by
  induction vs generalizing ρ ρ' with
  | nil =>
    have hρ := h ρ
    rwa [override_nil, override_nil] at hρ
  | cons v vs ih =>
    have hbody : (fun d => lamDen f vs (Function.update ρ v d)) =
        fun d => lamDen g vs (Function.update ρ' v d) := by
      funext d
      apply ih
      intro e
      have hset : ∀ σ : Env U, override (v :: vs) (override vs e (Function.update e v d)) σ =
          override vs e (Function.update σ v d) := by
        intro σ
        rw [override_cons]
        by_cases hv : v ∈ vs
        · rw [override_of_mem hv]
          funext w
          by_cases hw : w ∈ vs
          · rw [override_of_mem hw, override_of_mem hw, override_of_mem hw]
          have hne : w ≠ v := fun heq => hw (heq ▸ hv)
          rw [override_of_not_mem hw, override_of_not_mem hw, Function.update_of_ne hne,
            Function.update_of_ne hne]
        rw [override_of_not_mem hv, Function.update_self]
        apply override_congr
        intro w hw
        exact override_of_mem hw
      rw [← hset ρ, ← hset ρ']
      exact h _
    rw [lamDen, lamDen, hbody]

lemma bindDen_congr {q : Sym} {vs : List Var} {ρ ρ' : Env U}
    (h : ∀ e, f (override vs e ρ) = g (override vs e ρ')) :
    bindDen q vs f ρ = bindDen q vs g ρ' := by
  unfold bindDen
  split
  · simp only [h]
  · simp only [h]
  · exact lamDen_congr h
  · rfl

/-! ## Free variables -/

def Term.freeVars : Term → List Var
  | .var x T => [(x, T)]
  | .app f a =>
    match f.binder? with
    | some (_, xs) => (freeVars a).filter (· ∉ xs.varList.getD [])
    | none => freeVars f ++ freeVars a
  | _ => []

/-- A term without free variables. -/
def Term.Closed (t : Term) : Prop := t.freeVars = []

instance (t : Term) : Decidable t.Closed := inferInstanceAs (Decidable (_ = _))

lemma Term.freeVars_binder {q : Sym} {xs a : Term} (hq : q.isBinder = true) :
    (Term.app (.app (.sym q) xs) a).freeVars = a.freeVars.filter (· ∉ xs.varList.getD []) := by
  have hb : (Term.app (.sym q) xs).binder? = some (q, xs) := if_pos hq
  rw [freeVars, hb]

lemma Term.freeVars_app {f a : Term} (hb : f.binder? = none) :
    (Term.app f a).freeVars = f.freeVars ++ a.freeVars := by
  rw [freeVars, hb]

section Terms

variable {Γ : Sig} {I : Interp Γ} {ρ ρ' : Env I.U} {a b c F : Term}

lemma den_congr_free {t : Term} (h : ∀ v ∈ t.freeVars, ρ v = ρ' v) : den I t ρ = den I t ρ' := by
  induction t generalizing ρ ρ' with
  | var x T =>
    have hv := h (x, T) (.head _)
    rw [den, den, hv]
  | app f a ihf iha =>
    cases hh : (Term.app f a).head? with
    | some k => rw [den_head hh, den_head hh]
    | none =>
      cases hb : f.binder? with
      | some qxs =>
        obtain ⟨rfl, hq⟩ := Term.binder?_eq_some hb
        rw [Term.freeVars_binder hq] at h
        rw [den_binder hq, den_binder hq]
        cases hvs : qxs.2.varList with
        | none => rfl
        | some vs =>
          rw [hvs, Option.getD_some] at h
          apply bindDen_congr
          intro e
          apply iha
          intro v hv
          by_cases hmem : v ∈ vs
          · rw [override_of_mem hmem, override_of_mem hmem]
          · rw [override_of_not_mem hmem, override_of_not_mem hmem]
            exact h v (List.mem_filter.2 ⟨hv, decide_eq_true hmem⟩)
      | none =>
        rw [Term.freeVars_app hb] at h
        rw [den_app hh hb, den_app hh hb, ihf fun v hv => h v (List.mem_append_left _ hv),
          iha fun v hv => h v (List.mem_append_right _ hv)]
  | _ => rfl

lemma den_override_of_free {t : Term} {vs : List Var} {e : Env I.U}
    (h : ∀ v ∈ vs, v ∉ t.freeVars) : den I t (override vs e ρ) = den I t ρ := by
  apply den_congr_free
  intro v hv
  exact override_of_not_mem fun hmem => h v hmem hv

/-! ## Applications of a symbol -/

variable {s : Sym}

lemma head?_uop (hi : s ≠ .is) (ht : s ≠ .tupleSelect) : (uop s a).head? = none := by
  unfold Term.head?
  split <;> simp_all

lemma complete_sym_nil (hs : s.arity ≠ 0) :
    complete I (.sym s) [] = some (.part (.sym s) []) := if_neg fun h => hs h.symm

/-- What a term contributes as an argument of a symbol. -/
def argFor (s : Sym) (o : Option (Den U)) : Option (Arg U) :=
  (o.bind Den.arg?).filter fun x => (Head.sym s).accepts x.ty.isList

lemma argFor_eq_some {o : Option (Den U)} {x : Arg U} :
    argFor s o = some x ↔ o = some (.arg x) ∧ (Head.sym s).accepts x.ty.isList = true := by
  unfold argFor
  rw [Option.filter_eq_some_iff, bind_eq_some_iff]
  apply and_congr_left'
  constructor
  · intro h
    obtain ⟨d, rfl, hd⟩ := h
    cases d with
    | part h as => contradiction
    | arg y =>
      cases hd
      rfl
  · intro h
    exact ⟨_, h, rfl⟩

lemma bind_applyDen_sym {as : List (Arg I.U)} {o : Option (Den I.U)} :
    o.bind (applyDen I (.part (.sym s) as)) =
      (argFor s o).bind fun x => complete I (.sym s) (as ++ [x]) := by
  cases o with
  | none => rfl
  | some d =>
    cases d with
    | part h as => rfl
    | arg x =>
      rw [bind_some, applyDen, argFor, bind_some, Den.arg?, Option.filter_some]
      split
      · rfl
      · rfl

lemma den_uop (hs : s.arity = 1) (hi : s ≠ .is) (ht : s ≠ .tupleSelect) :
    den I (uop s a) ρ = (argFor s (den I a ρ)).bind fun x => (headVal I (.sym s) [x]).map .arg := by
  have hcomplete : ∀ x, complete I (.sym s) [x] = (headVal I (.sym s) [x]).map .arg :=
    fun x => if_pos hs.symm
  rw [den_app (head?_uop hi ht) rfl, den, complete_sym_nil (by rw [hs]; decide), bind_some,
    bind_applyDen_sym]
  simp only [List.nil_append, hcomplete]

/-- A symbol applied to the first of at least two arguments. -/
lemma den_uop_part (hs : 2 ≤ s.arity) (hi : s ≠ .is) (ht : s ≠ .tupleSelect) :
    den I (uop s a) ρ = (argFor s (den I a ρ)).map fun x => .part (.sym s) [x] := by
  have hpart : ∀ x, complete I (.sym s) [x] = some (.part (.sym s) [x]) := by
    intro x
    have harity : ([x] : List (Arg I.U)).length ≠ (Head.sym s).arity Γ := by
      show 1 ≠ s.arity
      omega
    exact if_neg harity
  rw [den_app (head?_uop hi ht) rfl, den, complete_sym_nil (by omega), bind_some,
    bind_applyDen_sym]
  simp only [List.nil_append, hpart]
  cases argFor s (den I a ρ) <;> rfl

lemma den_bop (hs : s.arity = 2) (hb : s.isBinder = false) (hi : s ≠ .is) (ht : s ≠ .tupleSelect) :
    den I (bop s a b) ρ = (argFor s (den I a ρ)).bind fun x => (argFor s (den I b ρ)).bind fun y =>
      (headVal I (.sym s) [x, y]).map .arg := by
  have hbind : (uop s a).binder? = none := if_neg (by rw [hb]; decide)
  have hcomplete : ∀ x y, complete I (.sym s) [x, y] = (headVal I (.sym s) [x, y]).map .arg :=
    fun x y => if_pos hs.symm
  rw [den_app rfl hbind, den_uop_part (by omega) hi ht]
  cases argFor s (den I a ρ) with
  | none => rfl
  | some x =>
    rw [Option.map_some, bind_some, bind_applyDen_sym, bind_some]
    simp only [List.cons_append, List.nil_append, hcomplete]

/-! ## Connectives -/

/-- A formula with the truth value `p`. -/
abbrev Truth (I : Interp Γ) (ρ : Env I.U) (t : Term) (p : Bool) : Prop :=
  den I t ρ = some (Den.bool p)

lemma den_bool (p : Bool) : Truth I ρ (.bool p) p := rfl

variable {p q : Bool} {xs : Term}

lemma den_not (h : Truth I ρ a p) : Truth I ρ (uop .not a) !p := by
  rw [Truth, den_uop rfl (by decide) (by decide), h]
  rfl

lemma den_or (ha : Truth I ρ a p) (hb : Truth I ρ b q) : Truth I ρ (bop .or a b) (p || q) := by
  rw [Truth, den_bop rfl rfl (by decide) (by decide), ha, hb]
  rfl

lemma den_imp (ha : Truth I ρ a p) (hb : Truth I ρ b q) : Truth I ρ (bop .imp a b) (!p || q) := by
  rw [Truth, den_bop rfl rfl (by decide) (by decide), ha, hb]
  rfl

lemma den_eq {x y : Arg I.U} (ha : den I a ρ = some (.arg x)) (hb : den I b ρ = some (.arg y))
    (hty : y.ty = x.ty) : Truth I ρ (bop .eq a b) (truth (x = y)) := by
  have haccepts : ∀ z : Arg I.U, argFor .eq (some (.arg z)) = some z := by
    intro z
    cases z with
    | one v => rfl
    | many vs => rfl
  rw [Truth, den_bop rfl rfl (by decide) (by decide), ha, hb, haccepts, haccepts]
  exact congrArg (Option.map Den.arg) (if_pos hty)

/-! ### Inversion -/

variable {d : Den I.U}

lemma den_uop_inv (hs : s.arity = 1) (hi : s ≠ .is)
    (ht : s ≠ .tupleSelect) (h : den I (uop s a) ρ = some d) :
    ∃ x r, den I a ρ = some (.arg x) ∧ headVal I (.sym s) [x] = some r ∧ d = .arg r := by
  rw [den_uop hs hi ht] at h
  obtain ⟨x, hx, h⟩ := bind_inv h
  obtain ⟨r, hr, rfl⟩ := map_inv h
  exact ⟨x, r, (argFor_eq_some.1 hx).1, hr, rfl⟩

lemma den_bop_inv (hs : s.arity = 2) (hb : s.isBinder = false)
    (hi : s ≠ .is) (ht : s ≠ .tupleSelect) (h : den I (bop s a b) ρ = some d) :
    ∃ x y r, den I a ρ = some (.arg x) ∧ den I b ρ = some (.arg y) ∧
      headVal I (.sym s) [x, y] = some r ∧ d = .arg r := by
  rw [den_bop hs hb hi ht] at h
  obtain ⟨x, hx, h⟩ := bind_inv h
  obtain ⟨y, hy, h⟩ := bind_inv h
  obtain ⟨r, hr, rfl⟩ := map_inv h
  exact ⟨x, y, r, (argFor_eq_some.1 hx).1, (argFor_eq_some.1 hy).1, hr, rfl⟩

/-- An argument of a connective is a formula. -/
lemma den_not_inv (h : den I (uop .not a) ρ = some d) : ∃ p, Truth I ρ a p ∧ d = Den.bool !p := by
  obtain ⟨x, r, ha, hr, rfl⟩ := den_uop_inv rfl (by decide) (by decide) h
  cases x with
  | many vs => contradiction
  | one v =>
    obtain ⟨T, p⟩ := v
    cases T with
    | bool =>
      cases hr
      exact ⟨p, ha, rfl⟩
    | _ => contradiction

lemma den_connective_inv {f : Bool → Bool → Bool} (hs : s.arity = 2)
    (hb : s.isBinder = false) (hi : s ≠ .is) (ht : s ≠ .tupleSelect)
    (hval : ∀ as, headVal I (.sym s) as = vBool2 f as) (h : den I (bop s a b) ρ = some d) :
    ∃ p q, Truth I ρ a p ∧ Truth I ρ b q ∧ d = Den.bool (f p q) := by
  obtain ⟨x, y, r, ha, hb, hr, rfl⟩ := den_bop_inv hs hb hi ht h
  rw [hval] at hr
  obtain ⟨p, q, heq, rfl⟩ := vBool2_inv hr
  cases heq
  exact ⟨p, q, ha, hb, rfl⟩

lemma headVal_or (as : List (Arg I.U)) : headVal I (.sym .or) as = vBool2 Bool.or as := rfl

lemma headVal_and (as : List (Arg I.U)) : headVal I (.sym .and) as = vBool2 Bool.and as := rfl

lemma headVal_imp (as : List (Arg I.U)) :
    headVal I (.sym .imp) as = vBool2 (fun b c => !b || c) as := rfl

lemma den_or_inv (h : den I (bop .or a b) ρ = some d) :
    ∃ p q, Truth I ρ a p ∧ Truth I ρ b q ∧ d = Den.bool (p || q) :=
  den_connective_inv rfl rfl (by decide) (by decide) headVal_or h

lemma den_and_inv (h : den I (bop .and a b) ρ = some d) :
    ∃ p q, Truth I ρ a p ∧ Truth I ρ b q ∧ d = Den.bool (p && q) :=
  den_connective_inv rfl rfl (by decide) (by decide) headVal_and h

lemma den_imp_inv (h : den I (bop .imp a b) ρ = some d) :
    ∃ p q, Truth I ρ a p ∧ Truth I ρ b q ∧ d = Den.bool (!p || q) :=
  den_connective_inv rfl rfl (by decide) (by decide) headVal_imp h

lemma den_eq_inv (h : den I (bop .eq a b) ρ = some d) :
    ∃ x y, den I a ρ = some (.arg x) ∧ den I b ρ = some (.arg y) ∧ y.ty = x.ty ∧
      d = Den.bool (truth (x = y)) := by
  obtain ⟨x, y, r, ha, hb, hr, rfl⟩ := den_bop_inv rfl rfl (by decide) (by decide) h
  unfold headVal at hr
  dsimp only at hr
  split at hr
  · rename_i hty
    cases hr
    exact ⟨x, y, ha, hb, hty, rfl⟩
  · cases hr

/-! ### Truth -/

lemma sat_not : Sat I ρ (uop .not a) ↔ Truth I ρ a false := by
  constructor
  · intro h
    obtain ⟨p, hp, heq⟩ := den_not_inv h
    rw [Den.bool_inj] at heq
    cases p
    · exact hp
    · contradiction
  · intro h
    exact den_not h

lemma sat_eq : Sat I ρ (bop .eq a b) ↔ ∃ x, den I a ρ = some (.arg x) ∧ den I b ρ = some (.arg x) := by
  constructor
  · intro h
    obtain ⟨x, y, ha, hb, _, heq⟩ := den_eq_inv h
    rw [Den.bool_inj, eq_comm, truth_eq_true] at heq
    rw [← heq] at hb
    exact ⟨x, ha, hb⟩
  · intro h
    obtain ⟨x, ha, hb⟩ := h
    have heq := den_eq ha hb rfl
    rwa [truth_of rfl] at heq

lemma sat_eq_of_truth (ha : Truth I ρ a p) (hb : Truth I ρ b q) (h : p = q) :
    Sat I ρ (bop .eq a b) := by
  rw [← h] at hb
  exact sat_eq.2 ⟨_, ha, hb⟩

/-! ### Quantifiers -/

lemma quantDen_inv {formula val : Prop} {d : Den U} (h : quantDen formula val = some d) :
    formula ∧ d = Den.bool (truth val) := by
  unfold quantDen at h
  split at h
  · exact ⟨‹_›, (Option.some.inj h).symm⟩
  · cases h

lemma den_all {vs : List Var} (hvs : xs.varList = some vs)
    (h : ∀ e, ∃ p, Truth I (override vs e ρ) F p) :
    Truth I ρ (bop .all xs F) (truth (∀ e, Sat I (override vs e ρ) F)) := by
  rw [Truth, den_binder rfl, hvs, bind_some]
  exact if_pos h

lemma den_all_inv (h : den I (bop .all xs F) ρ = some d) :
    ∃ vs, xs.varList = some vs ∧ (∀ e, ∃ p, Truth I (override vs e ρ) F p) ∧
      d = Den.bool (truth (∀ e, Sat I (override vs e ρ) F)) := by
  rw [den_binder rfl] at h
  obtain ⟨vs, hvs, h⟩ := bind_inv h
  obtain ⟨hF, rfl⟩ := quantDen_inv h
  exact ⟨vs, hvs, hF, rfl⟩

lemma sat_all : Sat I ρ (bop .all xs F) ↔
    ∃ vs, xs.varList = some vs ∧ ∀ e, Sat I (override vs e ρ) F := by
  constructor
  · intro h
    obtain ⟨vs, hvs, _, heq⟩ := den_all_inv h
    rw [Den.bool_inj, eq_comm, truth_eq_true] at heq
    exact ⟨vs, hvs, heq⟩
  intro h
  obtain ⟨vs, hvs, hF⟩ := h
  have hall := den_all hvs fun e => ⟨true, hF e⟩
  rwa [truth_of hF] at hall

end Terms

/-! ## Lists of variables -/

section Lists

variable {Γ : Sig} {I : Interp Γ} {ρ : Env I.U}

lemma typeof_sym_part {s : Sym} (hs : s.arity ≠ 0) :
    typeof Γ (.sym s) = some (.part (.sym s) []) := if_neg fun h => hs h.symm

lemma typeof_app {f a : Term} (hh : (Term.app f a).head? = none) (hb : f.binder? = none) :
    typeof Γ (.app f a) = (typeof Γ f).bind fun F => (typeof Γ a).bind (applyTy Γ F) := by
  rw [typeof, hh, hb]

lemma typeof_lcons {a l : Term} {T : Ty} {Ts : List Ty} (ha : HasTy Γ a T)
    (hl : typeof Γ l = some (.arg (.many Ts))) :
    typeof Γ (lcons a l) = some (.arg (.many (T :: Ts))) := by
  rw [typeof_app rfl rfl, typeof_app (head?_uop (by decide) (by decide)) rfl,
    typeof_sym_part (by decide), ha, hl]
  rfl

lemma typeof_of_varList {xs : Term} {vs : List Var} (h : xs.varList = some vs) :
    typeof Γ xs = some (.arg (.many (vs.map Prod.snd))) := by
  fun_induction Term.varList xs generalizing vs with
  | case1 =>
    cases h
    rfl
  | case2 x T l ih =>
    obtain ⟨vs', hvs', rfl⟩ := map_inv h
    exact typeof_lcons rfl (ih hvs')
  | case3 => contradiction

lemma den_of_varList {xs : Term} {vs : List Var} (h : xs.varList = some vs) :
    den I xs ρ = some (.arg (.many (vs.map fun v => ⟨v.2, ρ v⟩))) := by
  fun_induction Term.varList xs generalizing vs with
  | case1 =>
    cases h
    rfl
  | case2 x T l ih =>
    obtain ⟨vs', hvs', rfl⟩ := map_inv h
    rw [den_bop rfl rfl (by decide) (by decide), ih hvs', den]
    rfl
  | case3 => contradiction

end Lists

/-! ## Binders over other variables -/

/-- Two variables that are the same, or of one type with one value only. -/
def Interchangeable (U : Ty → Type) (v w : Var) : Prop :=
  v = w ∨ v.2 = w.2 ∧ Subsingleton (Dom U v.2)

variable {vs ws : List Var}

lemma lamDen_congr_vars {ρ : Env U}
    (h : List.Forall₂ (Interchangeable U) vs ws) : lamDen f vs ρ = lamDen f ws ρ := by
  induction h generalizing ρ with
  | nil => rfl
  | @cons v w vs ws hvw _ ih =>
    obtain ⟨x, T⟩ := v
    obtain ⟨y, S⟩ := w
    cases hvw with
    | inl heq =>
      cases heq
      simp only [lamDen, ih]
    | inr hty =>
      obtain ⟨hT, hone⟩ := hty
      cases hT
      have hset : ∀ (z : Nat) (d : Dom U T), Function.update ρ (z, T) d = ρ := by
        intro z d
        rw [Function.update_eq_self_iff]
        exact hone.elim _ _
      simp only [lamDen, hset, ih]

lemma Interchangeable.symm {v w : Var} (h : Interchangeable U v w) : Interchangeable U w v := by
  cases h with
  | inl heq => exact .inl heq.symm
  | inr hty => exact .inr ⟨hty.1.symm, hty.1 ▸ hty.2⟩

lemma subsingleton_of_interchangeable (h : List.Forall₂ (Interchangeable U) vs ws) :
    ∀ v ∈ vs, v ∉ ws → Subsingleton (Dom U v.2) := by
  induction h with
  | nil => exact fun v hv => absurd hv List.not_mem_nil
  | @cons w w' vs ws hw _ ih =>
    intro v hv hnot
    rw [List.mem_cons, not_or] at hnot
    cases List.mem_cons.1 hv with
    | inl heq =>
      obtain rfl := heq
      exact (hw.resolve_left hnot.1).2
    | inr hv => exact ih v hv hnot.2

lemma override_congr_vars {e ρ : Env U}
    (h : List.Forall₂ (Interchangeable U) vs ws) : override vs e ρ = override ws e ρ := by
  apply override_eq_of_subsingleton
  · exact subsingleton_of_interchangeable h
  · exact subsingleton_of_interchangeable (h.flip.imp fun _ _ => Interchangeable.symm)

lemma bindDen_congr_vars {q : Sym} {ρ : Env U}
    (h : List.Forall₂ (Interchangeable U) vs ws) : bindDen q vs f ρ = bindDen q ws f ρ := by
  unfold bindDen
  split
  · simp only [override_congr_vars h]
  · simp only [override_congr_vars h]
  · exact lamDen_congr_vars h
  · rfl

/-- If a variable that a binder ranges over always has the value of another one, then its type has
one value only. -/
lemma interchangeable_of_eq {vs : List Var} {v w : Var} {ρ : Env U} (hv : v ∈ vs)
    (h : ∀ e, (⟨v.2, override vs e ρ v⟩ : Val U) = ⟨w.2, override vs e ρ w⟩) :
    Interchangeable U v w := by
  by_cases heq : v = w
  · exact .inl heq
  refine .inr ⟨congrArg Sigma.fst (h ρ), ⟨fun x y => ?_⟩⟩
  have hval : ∀ d : Dom U v.2, (⟨v.2, d⟩ : Val U) = ⟨w.2, ρ w⟩ := by
    intro d
    have hd := h (Function.update ρ v d)
    have hw : override vs (Function.update ρ v d) ρ w = ρ w := by
      by_cases hmem : w ∈ vs
      · rw [override_of_mem hmem, Function.update_of_ne (Ne.symm heq)]
      · exact override_of_not_mem hmem
    rwa [override_of_mem hv, Function.update_self, hw] at hd
  exact Val.mk_inj.1 ((hval x).trans (hval y).symm)

end EthosCpc.Hol
