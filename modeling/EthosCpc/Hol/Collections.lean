import EthosCpc.Hol.Binding

/-!
# Values of sets, sequences and constructor applications

For every operator on sets and sequences, what its arguments are when the
application has a value, and what this value is.  An application of a
constructor is the constructor applied to the values of its arguments
(`den_con_inv`), however many arguments it has.
-/

namespace EthosCpc.Hol

open EthosCpc (truth)
open EthosCpc.Hol.Term (bop uop)

variable {Γ : Sig} {I : Interp Γ} {ρ : Env I.U} {a b t : Term} {T : Ty}

/-- The term has the value `x` of type `T`. -/
def TermVal (I : Interp Γ) (ρ : Env I.U) (T : Ty) (t : Term) (x : Dom I.U T) : Prop :=
  den I t ρ = some (.val ⟨T, x⟩)

variable {v : Val I.U}

lemma Den.val_inj {w : Val I.U} : (Den.val v : Den I.U) = Den.val w ↔ v = w := by
  constructor
  · intro h
    cases h
    rfl
  · intro h
    rw [h]

variable {x : Dom I.U T}

lemma TermVal.type {S : Ty} {y : Dom I.U S} (h : TermVal I ρ T t x)
    (h' : TermVal I ρ S t y) : T = S :=
  congrArg Sigma.fst (Den.val_inj.1 (Option.some.inj (h.symm.trans h')))

lemma TermVal.unique {x y : Dom I.U T} (h : TermVal I ρ T t x) (h' : TermVal I ρ T t y) :
    x = y := Val.mk_inj.1 (Den.val_inj.1 (Option.some.inj (h.symm.trans h')))

lemma termVal_of_hasTy (I : Interp Γ) (ρ : Env I.U) (h : HasTy Γ t T) :
    ∃ x, TermVal I ρ T t x := den_of_hasTy I h ρ

/-! ## Sets -/

lemma den_setEmpty (S : Ty) : TermVal I ρ (.set S) (.sym (.setEmpty S)) (∅ : Set (Dom I.U S)) := rfl

lemma den_setEmpty_inv {S : Ty} {A : Dom I.U (.set T)}
    (h : TermVal I ρ (.set T) (.sym (.setEmpty S)) A) : A.elems = ∅ := by
  obtain rfl := Ty.set.inj (h.type (den_setEmpty S))
  exact h.unique (den_setEmpty T)

lemma den_setSingleton_inv {A : Dom I.U (.set T)}
    (h : TermVal I ρ (.set T) (uop .setSingleton a) A) :
    ∃ x, TermVal I ρ T a x ∧ A.elems = {x} := by
  obtain ⟨x, r, ha, hr, heq⟩ := den_uop_inv rfl (by decide) (by decide) h
  cases x with
  | many vs => contradiction
  | one v =>
    obtain ⟨S, x⟩ := v
    cases hr
    cases heq
    exact ⟨x, ha, rfl⟩

lemma den_setSingleton (h : TermVal I ρ T a x) :
    TermVal I ρ (.set T) (uop .setSingleton a) ({x} : Set (Dom I.U T)) := by
  unfold TermVal
  rw [den_uop rfl (by decide) (by decide), show den I a ρ = _ from h]
  rfl

lemma headVal_setUnion (as : List (Arg I.U)) :
    headVal I (.sym .setUnion) as = vSet2 (fun _ A B => A ∪ B) as := rfl

lemma headVal_setInter (as : List (Arg I.U)) :
    headVal I (.sym .setInter) as = vSet2 (fun _ A B => A ∩ B) as := rfl

lemma headVal_setMinus (as : List (Arg I.U)) :
    headVal I (.sym .setMinus) as = vSet2 (fun _ A B => A \ B) as := rfl

section Binary

variable {s : Sym} {f : ∀ T, Set (Dom I.U T) → Set (Dom I.U T) → Set (Dom I.U T)}

lemma den_set2_inv {C : Dom I.U (.set T)} (hs : s.arity = 2) (hb : s.isBinder = false)
    (hi : s ≠ .is) (ht : s ≠ .tupleSelect) (hval : ∀ as, headVal I (.sym s) as = vSet2 f as)
    (h : TermVal I ρ (.set T) (bop s a b) C) :
    ∃ A B : Dom I.U (.set T), TermVal I ρ (.set T) a A ∧ TermVal I ρ (.set T) b B ∧
      C.elems = f T A.elems B.elems := by
  obtain ⟨x, y, r, ha, hb, hr, heq⟩ := den_bop_inv hs hb hi ht h
  rw [hval] at hr
  obtain ⟨S, A, B, hxy, rfl⟩ := vSet2_inv hr
  cases hxy
  cases heq
  exact ⟨A, B, ha, hb, rfl⟩

end Binary

lemma den_setUnion_inv {C : Dom I.U (.set T)} (h : TermVal I ρ (.set T) (bop .setUnion a b) C) :
    ∃ A B : Dom I.U (.set T), TermVal I ρ (.set T) a A ∧ TermVal I ρ (.set T) b B ∧
      C.elems = A.elems ∪ B.elems :=
  den_set2_inv (f := fun _ A B => A ∪ B) rfl rfl (by decide) (by decide) headVal_setUnion h

/-! ## Sequences -/

lemma den_seqEmpty (S : Ty) :
    TermVal I ρ (.seq S) (.sym (.seqEmpty S)) ([] : List (Dom I.U S)) := rfl

lemma den_seqUnit_inv {l : List (Dom I.U T)}
    (h : TermVal I ρ (.seq T) (uop .seqUnit a) l) : ∃ x, TermVal I ρ T a x ∧ l = [x] := by
  obtain ⟨x, r, ha, hr, heq⟩ := den_uop_inv rfl (by decide) (by decide) h
  cases x with
  | many vs => contradiction
  | one v =>
    obtain ⟨S, x⟩ := v
    cases hr
    cases heq
    exact ⟨x, ha, rfl⟩

lemma den_seqConcat_inv {l : List (Dom I.U T)} (h : TermVal I ρ (.seq T) (bop .seqConcat a b) l) :
    ∃ x y : List (Dom I.U T), TermVal I ρ (.seq T) a x ∧ TermVal I ρ (.seq T) b y ∧ l = x ++ y := by
  obtain ⟨x, y, r, ha, hb, hr, heq⟩ := den_bop_inv rfl rfl (by decide) (by decide) h
  cases x with
  | many vs => contradiction
  | one v =>
    obtain ⟨S, x'⟩ := v
    cases S <;> try contradiction
    cases y with
    | many vs => contradiction
    | one w =>
      obtain ⟨S', y'⟩ := w
      cases S' <;> try contradiction
      unfold headVal at hr
      dsimp only at hr
      split at hr
      · rename_i hS
        subst hS
        cases hr
        cases heq
        exact ⟨x', y', ha, hb, rfl⟩
      · cases hr

lemma den_seqConcat {x y : List (Dom I.U T)} (ha : TermVal I ρ (.seq T) a x)
    (hb : TermVal I ρ (.seq T) b y) : TermVal I ρ (.seq T) (bop .seqConcat a b) (x ++ y) := by
  unfold TermVal
  rw [den_bop rfl rfl (by decide) (by decide), show den I a ρ = _ from ha,
    show den I b ρ = _ from hb]
  exact congrArg (Option.map Den.arg) (dif_pos rfl)

/-! ## Constructor applications -/

def Term.appHead : Term → Term
  | .app f _ => f.appHead
  | t => t

/-- The arguments of an application. -/
def Term.appArgs : Term → List Term
  | .app f a => f.appArgs ++ [a]
  | _ => []

def Term.consHead? : Term → Option Head
  | .cons c => some (.con c none)
  | .consAs c D => some (.con c (some D))
  | .sym .tuple => some (.sym .tuple)
  | _ => none

/-- The value that the constructor `hd` builds from `vs`. -/
def ConVal (I : Interp Γ) (hd : Term) (vs : List (Val I.U)) (v : Val I.U) : Prop :=
  match hd with
  | .cons c => Γ.ambiguous c = false ∧ Γ.fields c v.1 = some (vs.map Sigma.fst) ∧
      v.2 = I.con c v.1 vs
  | .consAs c D => Γ.ambiguous c = true ∧ v.1 = D ∧ Γ.fields c v.1 = some (vs.map Sigma.fst) ∧
      v.2 = I.con c v.1 vs
  | .sym .tuple => ∃ x y, vs = [x, y] ∧ v = ⟨.tuple x.1 y.1, (x.2, y.2)⟩
  | _ => False

variable {hd : Term}

lemma ConVal.inj {vs ws : List (Val I.U)} (h : ConVal I hd vs v)
    (h' : ConVal I hd ws v) : vs = ws := by
  unfold ConVal at h h'
  split at h
  · exact I.con_inj h.2.1 h'.2.1 (h.2.2.symm.trans h'.2.2)
  · exact I.con_inj h.2.2.1 h'.2.2.1 (h.2.2.2.symm.trans h'.2.2.2)
  · obtain ⟨⟨A, x⟩, ⟨B, y⟩, rfl, rfl⟩ := h
    obtain ⟨⟨A', x'⟩, ⟨B', y'⟩, rfl, heq⟩ := h'
    cases heq
    rfl
  · cases h

variable {vs : List (Val I.U)}

lemma not_conVal_tuple {c : Nat} {s : Sym} {Ts : List Ty}
    (hfields : Γ.fields c v.1 = some Ts) : ¬ ConVal I (.sym s) vs v := by
  intro h
  unfold ConVal at h
  split at h
  · contradiction
  · contradiction
  · obtain ⟨x, y, -, rfl⟩ := h
    obtain ⟨n, cs, hsym, _⟩ := Γ.mem_of_fields hfields
    contradiction
  · contradiction

lemma ConVal.head_eq {hd hd' : Term} {vs ws : List (Val I.U)}
    (h : ConVal I hd vs v) (h' : ConVal I hd' ws v) : hd = hd' := by
  cases hd with
  | cons c =>
    obtain ⟨hamb, hfields, hv⟩ := h
    cases hd' with
    | cons c' => rw [I.con_disjoint hfields h'.2.1 (hv.symm.trans h'.2.2)]
    | consAs c' D =>
      obtain rfl := I.con_disjoint hfields h'.2.2.1 (hv.symm.trans h'.2.2.2)
      rw [h'.1] at hamb
      contradiction
    | sym s => exact absurd h' (not_conVal_tuple hfields)
    | _ => contradiction
  | consAs c D =>
    obtain ⟨hamb, hD, hfields, hv⟩ := h
    cases hd' with
    | cons c' =>
      obtain rfl := I.con_disjoint hfields h'.2.1 (hv.symm.trans h'.2.2)
      rw [h'.1] at hamb
      contradiction
    | consAs c' D' => rw [I.con_disjoint hfields h'.2.2.1 (hv.symm.trans h'.2.2.2), ← hD, h'.2.1]
    | sym s => exact absurd h' (not_conVal_tuple hfields)
    | _ => contradiction
  | sym s =>
    cases hd' with
    | cons c' => exact absurd h (not_conVal_tuple h'.2.1)
    | consAs c' D => exact absurd h (not_conVal_tuple h'.2.2.1)
    | sym s' =>
      unfold ConVal at h h'
      split at h
      · contradiction
      · contradiction
      · rename_i heq
        cases heq
        split at h'
        · contradiction
        · contradiction
        · rename_i heq
          exact heq.symm
        · contradiction
      · contradiction
    | _ => contradiction
  | _ => contradiction

lemma vals_map_one (vs : List (Val I.U)) : vals (vs.map Arg.one) = some vs := by
  induction vs with
  | nil => rfl
  | cons v vs ih => rw [List.map_cons, vals, ih, Option.map_some]

variable {h : Head}

lemma conVal_of_headVal {r : Arg I.U}
    (hh : hd.consHead? = some h) (hr : headVal I h (vs.map Arg.one) = some r) :
    ∃ v, r = .one v ∧ ConVal I hd vs v := by
  unfold Term.consHead? at hh
  split at hh
  · cases hh
    change (vals (vs.map Arg.one)).bind _ = some r at hr
    rw [vals_map_one, Option.bind_some] at hr
    obtain ⟨D, hD, rfl⟩ := map_inv hr
    refine ⟨_, rfl, ?_, Γ.fields_of_result hD, rfl⟩
    apply Bool.eq_false_iff.2
    intro hamb
    rw [Γ.result_ambiguous hamb] at hD
    contradiction
  · cases hh
    change (vals (vs.map Arg.one)).bind _ = some r at hr
    rw [vals_map_one, Option.bind_some] at hr
    split at hr
    · rename_i hD
      cases hr
      exact ⟨_, rfl, hD.1, rfl, hD.2, rfl⟩
    · cases hr
  · cases hh
    rcases vs with _ | ⟨x, _ | ⟨y, _ | ⟨z, vs⟩⟩⟩
    · cases hr
    · cases hr
    · cases hr
      exact ⟨_, rfl, x, y, rfl, rfl⟩
    · cases hr
  · cases hh

lemma eq_tuple_of_consHead {s : Sym} (hh : (Term.sym s).consHead? = some h) : s = .tuple := by
  unfold Term.consHead? at hh
  split at hh
  · contradiction
  · contradiction
  · rename_i heq
    exact Term.sym.inj heq
  · contradiction

lemma head?_of_con {f a : Term} (hh : f.appHead.consHead? = some h) :
    (Term.app f a).head? = none := by
  cases f with
  | sym s =>
    obtain rfl := eq_tuple_of_consHead hh
    rfl
  | _ => rfl

lemma binder?_of_con {f : Term} (hh : f.appHead.consHead? = some h) : f.binder? = none := by
  cases f with
  | app g xs =>
    cases g with
    | sym q =>
      obtain rfl := eq_tuple_of_consHead hh
      rfl
    | _ => rfl
  | _ => rfl

lemma not_conVal_fn {A B : Ty} {f : Dom I.U (.fn A B)} : ¬ ConVal I hd vs ⟨.fn A B, f⟩ := by
  intro h
  unfold ConVal at h
  split at h
  · obtain ⟨n, cs, hsym, _⟩ := Γ.mem_of_fields h.2.1
    contradiction
  · obtain ⟨n, cs, hsym, _⟩ := Γ.mem_of_fields h.2.2.1
    contradiction
  · obtain ⟨x, y, _, heq⟩ := h
    cases heq
  · contradiction

lemma accepts_con (hh : hd.consHead? = some h) : h.accepts true = false := by
  unfold Term.consHead? at hh
  split at hh <;> cases hh <;> rfl

variable {d : Den I.U}

lemma complete_con (hh : hd.consHead? = some h) (hd' : complete I h (vs.map Arg.one) = some d) :
    d = .part h (vs.map Arg.one) ∨ ∃ v, d = .val v ∧ ConVal I hd vs v := by
  unfold complete at hd'
  split at hd'
  · obtain ⟨r, hr, rfl⟩ := map_inv hd'
    obtain ⟨v, rfl, hv⟩ := conVal_of_headVal hh hr
    exact .inr ⟨v, rfl, hv⟩
  · exact .inl (Option.some.inj hd').symm

lemma den_con_nil (hargs : t.appArgs = [])
    (hh : t.appHead.consHead? = some h) (hc : den I t ρ = complete I h [])
    (hd : den I t ρ = some d) :
    ∃ vs : List (Val I.U), List.Forall₂ (fun a v => den I a ρ = some (.val v)) t.appArgs vs ∧
      (d = .part h (vs.map Arg.one) ∨ ∃ v, d = .val v ∧ ConVal I t.appHead vs v) := by
  refine ⟨[], by rw [hargs]; exact .nil, ?_⟩
  rw [hc] at hd
  exact complete_con hh hd

lemma den_con_cases (hh : t.appHead.consHead? = some h) (hd : den I t ρ = some d) :
    ∃ vs : List (Val I.U), List.Forall₂ (fun a v => den I a ρ = some (.val v)) t.appArgs vs ∧
      (d = .part h (vs.map Arg.one) ∨ ∃ v, d = .val v ∧ ConVal I t.appHead vs v) := by
  induction t generalizing d with
  | app f a ihf iha =>
    have hhf : f.appHead.consHead? = some h := hh
    rw [den_app (head?_of_con hhf) (binder?_of_con hhf)] at hd
    obtain ⟨df, hf, hd⟩ := bind_inv hd
    obtain ⟨da, ha, hd⟩ := bind_inv hd
    obtain ⟨vs, hvs, hcase⟩ := ihf hh hf
    rcases hcase with rfl | ⟨v, rfl, hv⟩
    · cases da with
      | part h' as => contradiction
      | arg x =>
        rw [applyDen] at hd
        cases x with
        | many ws =>
          have hacc : h.accepts (Arg.many ws).ty.isList = false := accepts_con hh
          rw [if_neg (by rw [hacc]; decide)] at hd
          contradiction
        | one v =>
          refine ⟨vs ++ [v], List.rel_append hvs (.cons ha .nil), ?_⟩
          have hmap : vs.map Arg.one ++ [Arg.one v] = (vs ++ [v]).map Arg.one := by
            rw [List.map_append, List.map_singleton]
          rw [hmap] at hd
          split at hd
          · exact complete_con hh hd
          · contradiction
    · -- no value of a datatype is a function
      unfold applyDen at hd
      split at hd
      · contradiction
      · rename_i A B g w heq
        cases heq
        exact absurd hv not_conVal_fn
      · contradiction
  | cons c =>
    cases hh
    exact den_con_nil rfl rfl rfl hd
  | consAs c D =>
    cases hh
    exact den_con_nil rfl rfl rfl hd
  | sym s =>
    obtain rfl := eq_tuple_of_consHead hh
    cases hh
    exact den_con_nil rfl rfl rfl hd
  | _ => contradiction

lemma den_con_inv (hh : t.appHead.consHead? = some h) (hx : TermVal I ρ T t x) :
    ∃ vs : List (Val I.U), List.Forall₂ (fun a v => den I a ρ = some (.val v)) t.appArgs vs ∧
      ConVal I t.appHead vs ⟨T, x⟩ := by
  obtain ⟨vs, hvs, heq | ⟨v, heq, hv⟩⟩ := den_con_cases hh hx
  · cases heq
  · cases heq
    exact ⟨vs, hvs, hv⟩

end EthosCpc.Hol
