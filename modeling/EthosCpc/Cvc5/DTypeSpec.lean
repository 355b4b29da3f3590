import EthosCpc.Cvc5.DType

/-!
# Well-founded datatypes have ground terms

Well-foundedness is decided for every family.  If all datatypes of a family are
well-founded, then every instance has a finite term, and the search for one finds
it whenever it ends.  It does not end if there is an infinite chain of instances
that are tried one below the other, which takes instances that keep growing.
-/

namespace EthosCpc.Cvc5.Datatypes

open Library CutSearch
open List (getElem?_eq_getElem getElem_mem length_map mem_cons mem_flatMap
  mem_map mem_of_getElem? not_mem_nil)

variable {F : Family} {σ : Family.Caches} {isValue : Bool} {d : Nat} {args : List Ty}

/-! ## Types -/

namespace Ty

@[simp]
lemma substituteAll_eq_map (inst tys : List Ty) :
    substituteAll inst tys = tys.map (substitute inst) := by
  induction tys with
  | nil => rfl
  | cons ty tys ih => rw [substituteAll, ih, List.map_cons]

lemma componentsAll_eq_flatMap (tys : List Ty) : componentsAll tys = tys.flatMap components := by
  induction tys with
  | nil => rfl
  | cons ty tys ih => rw [componentsAll, ih, List.flatMap_cons]

variable {datatypes : List DType}

variable {n : Nat}

lemma okAll_iff {tys : List Ty} : OkAll datatypes n tys ↔ ∀ ty ∈ tys, ty.Ok datatypes n := by
  induction tys with
  | nil => exact iff_of_true trivial fun _ h => absurd h not_mem_nil
  | cons ty tys ih => rw [OkAll, ih, List.forall_mem_cons]

lemma ok_data_iff :
    (data d args).Ok datatypes n ↔ (∃ dt, datatypes[d]? = some dt ∧ args.length = dt.numParams) ∧
      ∀ ty ∈ args, ty.Ok datatypes n := by
  rw [Ok, okAll_iff]

lemma Ok.component {ty : Ty} (h : ty.Ok datatypes n) {b : Nat}
    (hb : b ∈ ty.components) : b < datatypes.length := by
  induction ty with
  | other k => cases hb
  | param i => cases hb
  | data d args ih =>
    obtain ⟨⟨dt, hdt, _⟩, hargs⟩ := ok_data_iff.1 h
    rw [components, componentsAll_eq_flatMap, mem_cons, mem_flatMap] at hb
    rcases hb with rfl | ⟨ty, hty, hb⟩
    · exact (List.getElem?_eq_some_iff.1 hdt).1
    · exact ih ty hty (hargs ty hty) hb

lemma Ok.substitute {ty : Ty} (h : ty.Ok datatypes args.length)
    (hargs : ∀ ty ∈ args, ty.Ok datatypes 0) : (ty.substitute args).Ok datatypes 0 := by
  induction ty with
  | other k => trivial
  | param i =>
    have hi : i < args.length := h
    rw [Ty.substitute, List.getD_eq_getElem?_getD, getElem?_eq_getElem hi]
    exact hargs _ (getElem_mem hi)
  | data d args' ih =>
    obtain ⟨⟨dt, hdt, hlength⟩, hok⟩ := ok_data_iff.1 h
    rw [Ty.substitute, substituteAll_eq_map]
    refine ok_data_iff.2 ⟨⟨dt, hdt, by rw [length_map, hlength]⟩, fun ty hty => ?_⟩
    obtain ⟨ty', hty', rfl⟩ := mem_map.1 hty
    exact ih ty' hty' (hok ty' hty')

end Ty

variable {dt : DType} {ty : Ty} {ctor : List Ty}

variable {c : Nat} {t : Ty}

lemma Family.ok_ctor (hdt : F.datatypes[d]? = some dt)
    (hctor : dt.constructors[c]? = some ctor) (hty : ty ∈ ctor) :
    ty.Ok F.datatypes dt.numParams :=
  F.ok dt (mem_of_getElem? hdt) ctor (mem_of_getElem? hctor) ty hty

lemma Family.ok_argument (hok : (Ty.data d args).Ok F.datatypes 0) (hdt : F.datatypes[d]? = some dt)
    (hctor : dt.constructors[c]? = some ctor) (hty : ty ∈ ctor) :
    (ty.substitute args).Ok F.datatypes 0 := by
  obtain ⟨⟨dt', hdt', hlength⟩, hargs⟩ := Ty.ok_data_iff.1 hok
  rw [hdt] at hdt'
  cases hdt'
  have hok' := F.ok_ctor hdt hctor hty
  rw [← hlength] at hok'
  exact hok'.substitute hargs

/-! ## Terms -/

lemma Term.ind {motive : Term → Prop} (other : ∀ ty isValue, motive (.other ty isValue))
    (apply : ∀ ty c args, (∀ e ∈ args, motive e) → motive (.apply ty c args)) (e : Term) :
    motive e :=
  Term.rec (motive_1 := motive) (motive_2 := fun args => ∀ e ∈ args, motive e) other apply
    (fun _ h => absurd h not_mem_nil)
    (fun _ _ h hs _ hmem => (mem_cons.1 hmem).elim (fun heq => heq ▸ h) (hs _)) e

variable {e : Term}

lemma Typed.exists_apply (h : Typed F e (.data d args)) :
    ∃ c es, e = .apply (.data d args) c es := by
  cases h with
  | apply => exact ⟨_, _, rfl⟩

lemma getSubtermOfAny_some {es : List Term} {se : Term}
    (h : getSubtermOfAny t es = some se) : ∃ e ∈ es, getSubtermWithType t false e = some se := by
  induction es with
  | nil => cases h
  | cons e es ih =>
    unfold getSubtermOfAny at h
    cases he : getSubtermWithType t false e with
    | some se' =>
      rw [he] at h
      cases h
      exact ⟨e, .head _, he⟩
    | none =>
      rw [he] at h
      obtain ⟨e', he', hse⟩ := ih h
      exact ⟨e', List.mem_cons_of_mem e he', hse⟩

lemma Typed.subterm {ty : Ty} {e se : Term} {isTop : Bool} (h : Typed F e ty)
    (hsub : getSubtermWithType t isTop e = some se) : Typed F se t := by
  induction e using Term.ind generalizing ty isTop with
  | other ty' isValue =>
    unfold getSubtermWithType at hsub
    split at hsub
    swap
    · cases hsub
    rename_i hcond
    cases hsub
    rw [← hcond.2]
    cases h
    exact .other
  | apply ty' c es ih =>
    unfold getSubtermWithType at hsub
    split at hsub
    · rename_i hcond
      cases hsub
      rw [← hcond.2]
      cases h with
      | apply hdt hctor hlength hes => exact .apply hdt hctor hlength hes
    obtain ⟨e, he, hse⟩ := getSubtermOfAny_some hsub
    cases h with
    | apply hdt hctor hlength hes =>
      obtain ⟨i, hi, hget⟩ := List.getElem_of_mem he
      have hi' := hlength ▸ hi
      have htyped := hes i e _ (List.getElem?_eq_some_iff.2 ⟨hi, hget⟩) (getElem?_eq_getElem hi')
      exact ih e he htyped hse

lemma Typed.mkApply {es : List Term} (h : Typed F (.apply (.data d args) c es) (.data d args)) :
    Typed F (Family.mkApply (.data d args) c es) (.data d args) := by
  unfold Family.mkApply
  cases hsub : getSubtermWithType (.data d args) true (.apply (.data d args) c es) with
  | none => exact h
  | some se => exact h.subterm hsub

/-! ## What is tried -/

lemma mem_constructorOrder {ctor : List Ty × Nat} :
    ctor ∈ Family.constructorOrder dt ↔ dt.constructors[ctor.2]? = some ctor.1 := by
  unfold Family.constructorOrder
  rw [List.mem_append, List.mem_filter, List.mem_filter, ← List.mem_zipIdx_iff_getElem?]
  constructor
  · rintro (⟨h, -⟩ | ⟨h, -⟩)
    · exact h
    · exact h
  intro h
  cases hempty : ctor.1.isEmpty with
  | true => exact .inl ⟨h, rfl⟩
  | false => exact .inr ⟨h, rfl⟩

lemma arguments_eq (hdt : F.datatypes[d]? = some dt) :
    F.arguments σ isValue (.data d args) = (Family.constructorOrder dt).map fun ctor =>
      (ctor.2, ctor.1.map fun ty =>
        Family.argument (σ isValue d) isValue (ty.substitute args)) := by
  simp only [Family.arguments, hdt]

lemma arguments_of_none (hdt : F.datatypes[d]? = none) :
    F.arguments σ isValue (.data d args) = [] := by
  simp only [Family.arguments, hdt]

lemma mem_arguments {alt : Nat × List (Term ⊕ Ty)} : alt ∈ F.arguments σ isValue (.data d args) ↔
      ∃ dt ctor, F.datatypes[d]? = some dt ∧ dt.constructors[alt.1]? = some ctor ∧
        alt.2 = ctor.map fun ty => Family.argument (σ isValue d) isValue (ty.substitute args) := by
  cases hdt : F.datatypes[d]? with
  | none =>
    rw [arguments_of_none hdt]
    refine iff_of_false not_mem_nil ?_
    rintro ⟨dt, -, h, -⟩
    cases h
  | some dt =>
    rw [arguments_eq hdt, mem_map]
    constructor
    · rintro ⟨⟨ctor, i⟩, hmem, rfl⟩
      exact ⟨dt, ctor, rfl, mem_constructorOrder.1 hmem, rfl⟩
    rintro ⟨dt', ctor, hdt', hctor, halt⟩
    cases hdt'
    exact ⟨(ctor, alt.1), mem_constructorOrder.2 hctor, Prod.ext rfl halt.symm⟩

lemma argument_inr {gt : Ty → Option Term} {ty b : Ty}
    (h : Family.argument gt isValue ty = .inr b) : b = ty ∧ ∃ d args, ty = .data d args := by
  cases ty with
  | other k => cases h
  | param i => cases h
  | data d args =>
    refine ⟨?_, d, args, rfl⟩
    cases hgt : gt (.data d args) with
    | some arg => simp [Family.argument, hgt] at h
    | none =>
      rw [Family.argument, hgt] at h
      exact (Sum.inr.inj h).symm

/-! ## Results are finite terms -/

/-- What stands in the caches are finite terms of the types they stand for. -/
def CacheOk (F : Family) (σ : Family.Caches) : Prop :=
  ∀ isValue d t e, σ isValue d t = some e → Typed F e t

lemma typed_of_argument (hσ : CacheOk F σ) (hok : ty.Ok F.datatypes 0)
    (h : ItemOk (fun t e => t.Ok F.datatypes 0 → Typed F e t) e
      (Family.argument (σ isValue d) isValue ty)) : Typed F e ty := by
  cases ty with
  | other k =>
    rw [show e = .other (.other k) isValue from h]
    exact .other
  | param i => exact absurd hok (Nat.not_lt_zero i)
  | data d' args' =>
    unfold Family.argument at h
    dsimp only at h
    cases hcache : σ isValue d (.data d' args') with
    | some e' =>
      rw [hcache] at h
      rw [show e = e' from h]
      exact hσ _ _ _ _ hcache
    | none =>
      rw [hcache] at h
      exact h hok

variable {fuel : Nat}

lemma computeGroundTerm_typed (hσ : CacheOk F σ) {processing : List Ty} (hok : t.Ok F.datatypes 0)
    (h : F.computeGroundTerm σ isValue fuel processing t = some (some e)) : Typed F e t := by
  refine search_keeps (P := fun t e => t.Ok F.datatypes 0 → Typed F e t) ?_ fuel processing t e h hok
  intro t alt halt bs hbs hok
  cases t with
  | other k => cases halt
  | param i => cases halt
  | data d args =>
    obtain ⟨dt, ctor, hdt, hctor, halt2⟩ := mem_arguments.1 halt
    rw [halt2, List.forall₂_map_right_iff] at hbs
    refine Typed.mkApply (.apply hdt hctor hbs.length_eq fun i e ty he hty => ?_)
    have hmem := mem_of_getElem? hty
    have hpair := (List.forall₂_iff_get.1 hbs).2
    obtain ⟨hi, rfl⟩ := List.getElem?_eq_some_iff.1 he
    obtain ⟨hi', rfl⟩ := List.getElem?_eq_some_iff.1 hty
    exact typed_of_argument hσ (F.ok_argument hok hdt hctor hmem) (hpair i hi hi')

/-! ## Well-founded datatypes are inhabited -/

lemma mem_components {alt : Unit × List (Unit ⊕ Nat)} :
    alt ∈ F.components d ↔ ∃ (dt : DType) (c : Nat) (ctor : List Ty), F.datatypes[d]? = some dt ∧
      dt.constructors[c]? = some ctor ∧ alt.2 = (Ty.componentsAll ctor).map .inr := by
  unfold Family.components
  cases hdt : F.datatypes[d]? with
  | none =>
    refine iff_of_false not_mem_nil ?_
    rintro ⟨dt, _, _, h, -⟩
    cases h
  | some dt =>
    dsimp only
    rw [mem_map]
    constructor
    · rintro ⟨ctor, hctor, rfl⟩
      obtain ⟨c, hc⟩ := List.getElem?_of_mem hctor
      exact ⟨dt, c, ctor, rfl, hc, rfl⟩
    rintro ⟨dt', c, ctor, hdt', hctor, halt⟩
    cases hdt'
    exact ⟨ctor, mem_of_getElem? hctor, Prod.ext rfl halt.symm⟩

lemma exists_terms {R : Term → Ty → Prop} (h : ∀ ty ∈ ctor, ∃ e, R e ty) :
    ∃ es : List Term, es.length = ctor.length ∧
      ∀ (i : Nat) (e : Term) (ty : Ty), es[i]? = some e → ctor[i]? = some ty → R e ty := by
  have hchoice : ∀ ty : Ty, ∃ e, ty ∈ ctor → R e ty := by
    intro ty
    by_cases hty : ty ∈ ctor
    · obtain ⟨e, he⟩ := h ty hty
      exact ⟨e, fun _ => he⟩
    · exact ⟨.other ty false, fun hty' => absurd hty' hty⟩
  choose f hf using hchoice
  refine ⟨ctor.map f, length_map f, fun i e ty he hty => ?_⟩
  rw [List.getElem?_map, hty] at he
  cases he
  exact hf ty (mem_of_getElem? hty)

lemma typed_of_within {n : Nat} (h : Within F.components n d)
    (hdt : F.datatypes[d]? = some dt) (hlength : args.length = dt.numParams)
    (hargs : ∀ ty ∈ args, ∃ e, Typed F e ty) : ∃ e, Typed F e (.data d args) := by
  induction n generalizing d args dt with
  | zero => exact h.elim
  | succ n ih =>
    obtain ⟨alt, halt, hitems⟩ := h
    obtain ⟨dt', c, ctor, hdt', hctor, halt2⟩ := mem_components.1 halt
    rw [hdt] at hdt'
    cases hdt'
    have hwithin : ∀ b ∈ Ty.componentsAll ctor, Within F.components n b := by
      intro b hb
      refine hitems b ?_
      rw [halt2]
      exact List.mem_map_of_mem hb
    -- All argument types are inhabited, by induction on them.
    have harg : ∀ ty : Ty, ty.Ok F.datatypes dt.numParams →
        (∀ b ∈ ty.components, Within F.components n b) → ∃ e, Typed F e (ty.substitute args) := by
      intro ty hok hcomp
      induction ty with
      | other k => exact ⟨.other (.other k) false, .other⟩
      | param i =>
        have hi : i < args.length := hlength ▸ hok
        rw [Ty.substitute, List.getD_eq_getElem?_getD, getElem?_eq_getElem hi]
        exact hargs _ (getElem_mem hi)
      | data d' args' ihargs =>
        obtain ⟨⟨dt', hdt', hlength'⟩, hok'⟩ := Ty.ok_data_iff.1 hok
        rw [Ty.components, Ty.componentsAll_eq_flatMap] at hcomp
        rw [Ty.substitute, Ty.substituteAll_eq_map]
        refine ih (hcomp d' (.head _)) hdt' ?_ fun ty hty => ?_
        · rw [length_map, hlength']
        obtain ⟨ty', hty', rfl⟩ := mem_map.1 hty
        refine ihargs ty' hty' (hok' ty' hty') fun b hb => hcomp b ?_
        exact List.mem_cons_of_mem d' (mem_flatMap.2 ⟨ty', hty', hb⟩)
    have hall : ∀ ty ∈ ctor, ∃ e, Typed F e (ty.substitute args) := by
      intro ty hty
      refine harg ty (F.ok_ctor hdt hctor hty) fun b hb => hwithin b ?_
      rw [Ty.componentsAll_eq_flatMap]
      exact mem_flatMap.2 ⟨ty, hty, hb⟩
    obtain ⟨es, hes, htyped⟩ := exists_terms hall
    exact ⟨_, .apply hdt hctor hes htyped⟩

lemma components_acc (hd : d < F.datatypes.length) : Acc (Tried F.components) ([], d) := by
  refine acc_of_finite (Finset.range F.datatypes.length) (fun a _ alt halt b hb => ?_)
    (Finset.mem_range.2 hd) (fun _ hp => absurd hp not_mem_nil) List.nodup_nil
  obtain ⟨dt, c, ctor, hdt, hctor, halt2⟩ := mem_components.1 halt
  rw [halt2, Ty.componentsAll_eq_flatMap] at hb
  obtain ⟨b', hb', heq⟩ := mem_map.1 hb
  cases heq
  obtain ⟨ty, hty, hcomp⟩ := mem_flatMap.1 hb'
  exact Finset.mem_range.2 ((F.ok_ctor hdt hctor hty).component hcomp)

lemma exists_search (hd : d < F.datatypes.length) : ∃ fuel r,
    search F.components (fun _ _ _ => ()) fuel [] d = some r :=
  ends_iff_acc.2 (components_acc hd)

lemma exists_isWellFounded (hd : d < F.datatypes.length) : ∃ r, F.IsWellFounded d r := by
  obtain ⟨fuel, r, hr⟩ := exists_search hd
  refine ⟨r.isSome, fuel, ?_⟩
  unfold Family.computeWellFounded
  rw [hr]
  rfl

lemma isWellFounded_iff (hd : d < F.datatypes.length) :
    F.IsWellFounded d true ↔ ∃ n, Within F.components n d := by
  rw [← deriv_iff_within]
  constructor
  · rintro ⟨fuel, h⟩
    obtain ⟨r, hr, hsome⟩ := map_inv h
    exact (search_answer fuel [] d r hr).1 hsome
  intro h
  obtain ⟨fuel, r, hr⟩ := exists_search hd
  refine ⟨fuel, ?_⟩
  unfold Family.computeWellFounded
  rw [hr, Option.map_some, (search_answer fuel [] d r hr).2 h]

def AllWellFounded (F : Family) : Prop := ∀ d < F.datatypes.length, F.IsWellFounded d true

lemma AllWellFounded.exists_typed (h : AllWellFounded F) (hok : ty.Ok F.datatypes 0) :
    ∃ e, Typed F e ty := by
  induction ty with
  | other k => exact ⟨.other (.other k) false, .other⟩
  | param i => exact absurd hok (Nat.not_lt_zero i)
  | data d args ih =>
    obtain ⟨⟨dt, hdt, hlength⟩, hargs⟩ := Ty.ok_data_iff.1 hok
    have hd := (List.getElem?_eq_some_iff.1 hdt).1
    obtain ⟨n, hn⟩ := (isWellFounded_iff hd).1 (h d hd)
    exact typed_of_within hn hdt hlength fun ty hty => ih ty hty (hargs ty hty)

/-! ## Ground terms -/

/-- An inhabited instance has a derivation, whatever stands in the caches. -/
lemma Typed.within (h : Typed F e t) :
    ∀ d args, t = .data d args → ∃ n, Within (F.arguments σ isValue) n t := by
  induction h with
  | other =>
    intro d args heq
    cases heq
  | @apply d c args dt ctor es hdt hctor hlength _ ih =>
    intro _ _ _
    obtain ⟨n, hn⟩ : ∃ n, ∀ b, .inr b ∈ ctor.map (fun ty =>
        Family.argument (σ isValue d) isValue (ty.substitute args)) →
          Within (F.arguments σ isValue) n b := by
      refine exists_within_of_forall fun b hb => ?_
      obtain ⟨ty, hty, heq⟩ := mem_map.1 hb
      obtain ⟨rfl, d', args', hdata⟩ := argument_inr heq
      obtain ⟨i, hi, rfl⟩ := List.getElem_of_mem hty
      have hi' : i < es.length := hlength ▸ hi
      exact ih i es[i] ctor[i] (getElem?_eq_getElem hi') (getElem?_eq_getElem hi) d' args' hdata
    exact ⟨n + 1, (c, _), mem_arguments.2 ⟨dt, ctor, hdt, hctor, rfl⟩, hn⟩

/-- No infinite chain of instances is tried for the instance, unless its term is in the cache. -/
def Ends (F : Family) (σ : Family.Caches) (isValue : Bool) (d : Nat) (args : List Ty) : Prop :=
  σ isValue d (.data d args) = none → Acc (Tried (F.arguments σ isValue)) ([], .data d args)

lemma exists_call_of_found (hcache : σ isValue d (.data d args) = none)
    (h : F.computeGroundTerm σ isValue fuel [] (.data d args) = some (some e)) :
    ∃ σ', F.mkGroundTermInternal fuel isValue d args σ = some (some e, σ') := by
  unfold Family.mkGroundTermInternal
  rw [hcache]
  dsimp only
  rw [h]
  exact ⟨_, rfl⟩

lemma exists_mkGroundTerm (hσ : CacheOk F σ) (hok : (Ty.data d args).Ok F.datatypes 0)
    (hends : Ends F σ isValue d args) (hinh : ∃ e, Typed F e (.data d args)) :
    ∃ fuel e σ', F.mkGroundTermInternal fuel isValue d args σ = some (some e, σ') ∧
      Typed F e (.data d args) := by
  cases hcache : σ isValue d (.data d args) with
  | some e =>
    refine ⟨0, e, σ, ?_, hσ _ _ _ _ hcache⟩
    unfold Family.mkGroundTermInternal
    rw [hcache]
  | none =>
    obtain ⟨e, he⟩ := hinh
    obtain ⟨fuel, r, hr⟩ : ∃ fuel r,
        search (F.arguments σ isValue) Family.mkApply fuel [] (.data d args) = some r :=
      ends_iff_acc.2 (hends hcache)
    have hsome := (search_answer fuel [] _ r hr).2 (deriv_iff_within.2 (he.within d args rfl))
    obtain ⟨e', rfl⟩ := Option.isSome_iff_exists.1 hsome
    obtain ⟨σ', hcall⟩ := exists_call_of_found hcache hr
    exact ⟨fuel, e', σ', hcall, computeGroundTerm_typed hσ hok hr⟩

variable {σ' : Family.Caches}

/-- Where a call returns, the search has ended. -/
lemma ends_of_mkGroundTerm {r : Option Term}
    (h : F.mkGroundTermInternal fuel isValue d args σ = some (r, σ')) :
    Ends F σ isValue d args := by
  intro hcache
  unfold Family.mkGroundTermInternal at h
  rw [hcache] at h
  obtain ⟨r', hr', _⟩ := bind_inv h
  exact ends_iff_acc.1 ⟨fuel, r', hr'⟩

lemma mkGroundTerm_typed (hσ : CacheOk F σ) (hok : (Ty.data d args).Ok F.datatypes 0)
    (h : F.mkGroundTermInternal fuel isValue d args σ = some (some e, σ')) :
    Typed F e (.data d args) := by
  unfold Family.mkGroundTermInternal at h
  cases hcache : σ isValue d (.data d args) with
  | some e' =>
    rw [hcache] at h
    cases h
    exact hσ _ _ _ _ hcache
  | none =>
    rw [hcache] at h
    obtain ⟨r', hr', h⟩ := bind_inv h
    cases r' with
    | none => cases h
    | some e' =>
      cases h
      exact computeGroundTerm_typed hσ hok hr'

lemma CacheOk.call (hσ : CacheOk F σ) (hok : (Ty.data d args).Ok F.datatypes 0) {r : Option Term}
    (h : F.mkGroundTermInternal fuel isValue d args σ = some (r, σ')) : CacheOk F σ' := by
  unfold Family.mkGroundTermInternal at h
  cases hcache : σ isValue d (.data d args) with
  | some e' =>
    rw [hcache] at h
    cases h
    exact hσ
  | none =>
    rw [hcache] at h
    obtain ⟨r', hr', h⟩ := bind_inv h
    cases r' with
    | none =>
      cases h
      exact hσ
    | some e' =>
      cases h
      intro v d' t e he
      dsimp only at he
      split at he
      · rename_i heq
        obtain ⟨rfl, rfl, rfl⟩ := heq
        cases he
        exact computeGroundTerm_typed hσ hok hr'
      · exact hσ v d' t e he

lemma Family.Reachable.cacheOk (h : F.Reachable σ) : CacheOk F σ := by
  induction h with
  | init =>
    intro _ _ _ _ he
    cases he
  | call _ hok hcall ih => exact ih.call hok hcall

/-! ## Families without parameters -/

def NoParams (F : Family) : Prop := ∀ dt ∈ F.datatypes, dt.numParams = 0

lemma NoParams.cases (h : NoParams F) (hok : ty.Ok F.datatypes 0) :
    (∃ k, ty = .other k) ∨ ∃ d < F.datatypes.length, ty = .data d [] := by
  cases ty with
  | other k => exact .inl ⟨k, rfl⟩
  | param i => exact absurd hok (Nat.not_lt_zero i)
  | data d args =>
    obtain ⟨⟨dt, hdt, hlength⟩, _⟩ := Ty.ok_data_iff.1 hok
    rw [h dt (mem_of_getElem? hdt), List.length_eq_zero_iff] at hlength
    rw [hlength]
    exact .inr ⟨d, (List.getElem?_eq_some_iff.1 hdt).1, rfl⟩

lemma NoParams.ok (h : NoParams F) (hd : d < F.datatypes.length) :
    (Ty.data d []).Ok F.datatypes 0 := by
  refine Ty.ok_data_iff.2 ⟨⟨_, getElem?_eq_getElem hd, ?_⟩,
    fun _ hty => absurd hty not_mem_nil⟩
  rw [h _ (getElem_mem hd)]
  rfl

/-- A datatype without parameters that has a finite term is well-founded. -/
lemma Typed.within_components (hF : NoParams F) (h : Typed F e t) :
    ∀ d, t = .data d [] → ∃ n, Within F.components n d := by
  induction h with
  | other =>
    intro d heq
    cases heq
  | @apply d c args dt ctor es hdt hctor hlength _ ih =>
    intro d' heq
    cases heq
    obtain ⟨n, hn⟩ : ∃ n, ∀ b, (Sum.inr b : Unit ⊕ Nat) ∈ (Ty.componentsAll ctor).map .inr →
        Within F.components n b := by
      refine exists_within_of_forall fun b hb => ?_
      rw [Ty.componentsAll_eq_flatMap] at hb
      obtain ⟨b', hb', heq⟩ := mem_map.1 hb
      cases heq
      obtain ⟨ty, hty, hcomp⟩ := mem_flatMap.1 hb'
      have hok := F.ok_ctor hdt hctor hty
      rw [hF dt (mem_of_getElem? hdt)] at hok
      obtain ⟨i, hi, rfl⟩ := List.getElem_of_mem hty
      have hi' : i < es.length := hlength ▸ hi
      rcases hF.cases hok with ⟨k, heq⟩ | ⟨b, -, heq⟩
      · rw [heq] at hcomp
        cases hcomp
      rw [heq] at hcomp
      cases List.mem_singleton.1 hcomp
      refine ih i es[i] ctor[i] (getElem?_eq_getElem hi') (getElem?_eq_getElem hi) _ ?_
      rw [heq]
      rfl
    exact ⟨n + 1, ((), _), mem_components.2 ⟨dt, c, ctor, hdt, hctor, rfl⟩, hn⟩

lemma ends_of_finite (S : Finset Ty) (hS : ∀ d args, .data d args ∈ S →
    ∀ dt, F.datatypes[d]? = some dt → ∀ ctor ∈ dt.constructors, ∀ ty ∈ ctor, ∀ d' args',
      ty.substitute args = .data d' args' → .data d' args' ∈ S) (hmem : .data d args ∈ S) :
    Ends F σ isValue d args := by
  intro _
  refine acc_of_finite S (fun t ht alt halt b hb => ?_) hmem
    (fun _ hp => absurd hp not_mem_nil) List.nodup_nil
  cases t with
  | other k => cases halt
  | param i => cases halt
  | data d args =>
    obtain ⟨dt, ctor, hdt, hctor, halt2⟩ := mem_arguments.1 halt
    rw [halt2] at hb
    obtain ⟨ty, hty, heq⟩ := mem_map.1 hb
    obtain ⟨rfl, d', args', hdata⟩ := argument_inr heq
    rw [hdata]
    exact hS d args ht dt hdt ctor (mem_of_getElem? hctor) ty hty d' args' hdata

lemma NoParams.ends (h : NoParams F) (hd : d < F.datatypes.length) : Ends F σ isValue d [] := by
  refine ends_of_finite ((Finset.range F.datatypes.length).image fun d => Ty.data d []) ?_
    (Finset.mem_image_of_mem _ (Finset.mem_range.2 hd))
  intro d args hmem dt hdt ctor hctor ty hty d' args' heq
  obtain ⟨d0, hd0, heq0⟩ := Finset.mem_image.1 hmem
  cases heq0
  obtain ⟨c, hc⟩ := List.getElem?_of_mem hctor
  have hok := F.ok_argument (h.ok (Finset.mem_range.1 hd0)) hdt hc hty
  rcases h.cases hok with ⟨k, hother⟩ | ⟨b, hb, hdata⟩
  · rw [hother] at heq
    cases heq
  · rw [← heq, hdata]
    exact Finset.mem_image_of_mem _ (Finset.mem_range.2 hb)

/-! ## Agreement -/

/-- Well-foundedness and ground terms agree, for the instance `args` of `d` after earlier calls. -/
structure Agree (F : Family) (σ : Family.Caches) (d : Nat) (args : List Ty) : Prop where
  wellFounded_ends : ∀ d < F.datatypes.length, ∃ r, F.IsWellFounded d r
  ground : AllWellFounded F → ∀ isValue, ∃ fuel c es σ',
    F.mkGroundTermInternal fuel isValue d args σ = some (some (.apply (.data d args) c es), σ') ∧
      Typed F (.apply (.data d args) c es) (.data d args)
  wellFounded_iff : NoParams F → ∀ d < F.datatypes.length,
    (F.IsWellFounded d true ↔ ∃ e, Typed F e (.data d [])) ∧ (F.IsWellFounded d true ↔
        ∃ fuel e σ', F.mkGroundTermInternal fuel false d [] σ = some (some e, σ'))

lemma NoParams.isWellFounded_iff (h : NoParams F) (hd : d < F.datatypes.length) :
    F.IsWellFounded d true ↔ ∃ e, Typed F e (.data d []) := by
  rw [Datatypes.isWellFounded_iff hd]
  constructor
  · rintro ⟨n, hn⟩
    refine typed_of_within hn (getElem?_eq_getElem hd) ?_
      fun _ hty => absurd hty not_mem_nil
    rw [h _ (getElem_mem hd)]
    rfl
  · exact fun ⟨e, he⟩ => he.within_components h d rfl

lemma NoParams.exists_mkGroundTerm_iff (h : NoParams F) (hσ : CacheOk F σ)
    (hd : d < F.datatypes.length) : (∃ e, Typed F e (.data d [])) ↔
      ∃ fuel e σ', F.mkGroundTermInternal fuel false d [] σ = some (some e, σ') := by
  constructor
  · intro hinh
    obtain ⟨fuel, e, σ', hcall, -⟩ := exists_mkGroundTerm hσ (h.ok hd) (h.ends hd) hinh
    exact ⟨fuel, e, σ', hcall⟩
  · exact fun ⟨fuel, e, σ', hcall⟩ => ⟨e, mkGroundTerm_typed hσ (h.ok hd) hcall⟩

/-- Well-foundedness and ground terms agree if and only if no infinite chain of instances is
tried. -/
theorem agree_iff (hσ : F.Reachable σ) (hok : (Ty.data d args).Ok F.datatypes 0) :
    Agree F σ d args ↔ (AllWellFounded F → ∀ isValue, Ends F σ isValue d args) := by
  constructor
  · intro h hall isValue
    obtain ⟨fuel, c, es, σ', hcall, _⟩ := h.ground hall isValue
    exact ends_of_mkGroundTerm hcall
  intro h
  refine ⟨fun d hd => exists_isWellFounded hd, fun hall isValue => ?_, fun hF d hd => ?_⟩
  · obtain ⟨fuel, e, σ', hcall, htyped⟩ :=
      exists_mkGroundTerm hσ.cacheOk hok (h hall isValue) (hall.exists_typed hok)
    obtain ⟨c, es, rfl⟩ := htyped.exists_apply
    exact ⟨fuel, c, es, σ', hcall, htyped⟩
  · exact ⟨hF.isWellFounded_iff hd,
      (hF.isWellFounded_iff hd).trans (hF.exists_mkGroundTerm_iff hσ.cacheOk hd)⟩

/-- `List<X> = nil | cons(X, List<X>)`. -/
def lists : Family where
  datatypes := [⟨1, [[], [.param 0, .data 0 [.param 0]]]⟩]
  nonempty := by simp
  ok := by simp [Ty.Ok, Ty.OkAll]

theorem agree_iff_lists : Agree lists (fun _ _ _ => none) 0 [.other 0] := by
  refine (agree_iff .init ?_).2 fun _ isValue => ?_
  · exact Ty.ok_data_iff.2 ⟨⟨_, rfl, rfl⟩, fun ty hty => List.mem_singleton.1 hty ▸ trivial⟩
  refine ends_of_finite {.data 0 [.other 0]} ?_ (Finset.mem_singleton_self _)
  intro d args hmem dt hdt ctor hctor ty hty d' args' heq
  cases Finset.mem_singleton.1 hmem
  cases hdt
  simp only [mem_cons, not_mem_nil, or_false] at hctor
  rcases hctor with rfl | rfl
  · cases hty
  simp only [mem_cons, not_mem_nil, or_false] at hty
  rcases hty with rfl | rfl
  · cases heq
  · cases heq
    exact Finset.mem_singleton_self _

/-! ## Instances that grow -/

/-- `D<X> = node(D<Box<X>>) | stop(B)` and `Box<X> = box(X)`. -/
def growing : Family where
  datatypes := [⟨1, [[.data 0 [.data 1 [.param 0]]], [.other 0]]⟩, ⟨1, [[.param 0]]⟩]
  nonempty := by simp
  ok := by simp [Ty.Ok, Ty.OkAll]

/-- `Box<…Box<B>…>`. -/
def boxes : Nat → Ty
  | 0 => .other 0
  | n + 1 => .data 1 [boxes n]

lemma boxes_inj {n m : Nat} (h : boxes n = boxes m) : n = m := by
  induction n generalizing m with
  | zero =>
    cases m with
    | zero => rfl
    | succ m => cases h
  | succ n ih =>
    cases m with
    | zero => cases h
    | succ m =>
      simp only [boxes, Ty.data.injEq, List.cons.injEq, and_true, true_and] at h
      rw [ih h]

lemma computeGroundTerm_growing (k n : Nat) (path : List Ty)
    (hpath : ∀ p ∈ path, ∃ m < n, p = .data 0 [boxes m]) :
    growing.computeGroundTerm (fun _ _ _ => none) isValue k path (.data 0 [boxes n]) = none := by
  induction k generalizing n path with
  | zero => rfl
  | succ k ih =>
    have hnot : Ty.data 0 [boxes n] ∉ path := by
      intro hmem
      obtain ⟨m, hm, heq⟩ := hpath _ hmem
      simp only [Ty.data.injEq, List.cons.injEq, and_true, true_and] at heq
      exact absurd (boxes_inj heq) (Nat.ne_of_gt hm)
    have hnext := ih (n + 1) (.data 0 [boxes n] :: path) fun p hp => by
      cases hp with
      | head => exact ⟨n, Nat.lt_succ_self n, rfl⟩
      | tail _ hp =>
        obtain ⟨m, hm, heq⟩ := hpath p hp
        exact ⟨m, Nat.lt_succ_of_lt hm, heq⟩
    have hargs : growing.arguments (fun _ _ _ => none) isValue (.data 0 [boxes n]) =
        [(0, [.inr (.data 0 [boxes (n + 1)])]), (1, [.inl (.other (.other 0) isValue)])] := rfl
    unfold Family.computeGroundTerm at hnext ⊢
    unfold search
    rw [if_neg hnot, hargs, firstOf, allOf, hnext]
    rfl

lemma growing_allWellFounded : AllWellFounded growing := by
  intro d hd
  refine ⟨3, ?_⟩
  match d, hd with
  | 0, _ => rfl
  | 1, _ => rfl

/-- No bound is enough to get a ground term of `D<B>`. -/
theorem growing_not_agree : ¬ Agree growing (fun _ _ _ => none) 0 [.other 0] := by
  intro h
  obtain ⟨fuel, c, es, σ', hcall, _⟩ := h.ground growing_allWellFounded false
  have hnone : growing.computeGroundTerm (fun _ _ _ => none) false fuel [] (.data 0 [boxes 0]) =
      none := computeGroundTerm_growing fuel 0 [] fun _ hp => absurd hp not_mem_nil
  unfold Family.mkGroundTermInternal at hcall
  dsimp only at hcall
  obtain ⟨r, hr, _⟩ := bind_inv hcall
  rw [show (Ty.other 0) = boxes 0 from rfl, hnone] at hr
  cases hr

end EthosCpc.Cvc5.Datatypes
