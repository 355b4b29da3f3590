import EthosCpc.Cvc5.AssumptionSpec

/-!
# Constant bounds are valid

The bounds of a sum or a product are bounds for it: a lower bound of a product
is used when all factors are positive, and an upper bound exists only for what
is built from constants.
-/

namespace EthosCpc.Cvc5.Entail

open Library
open Library.MapPoly (IsOrder Over over_empty)
open Option (bind_some some.inj)

variable {Γ : Nat → Ty} {I : Interp Γ} {le : Node → Node → Bool} {isLower : Bool}

/-! ## Operations on constants -/

section Constants

lemma rewriteLengthIntros_constants (zs : List Int) :
    rewriteLengthIntros Γ (zs.map .constInteger) = some (zs.map .constInteger) := by
  induction zs with
  | nil => rfl
  | cons z zs ih =>
    rw [List.map_cons, rewriteLengthIntros, rewriteLengthIntro, bind_some, ih]
    · rfl
    · simp
    · simp
    · simp

/-- A polynomial without variables is a constant. -/
lemma toNode_of_over_false {p : PolyNorm} {n : Node} (hp : Over (fun _ => False) p)
    (h : toNode le .int p = some n) : ∃ z : Int, n = .constInteger z := by
  have hconst : ∀ {q : Rat} {m : Node}, mkConstRealOrInt .int q = some m →
      ∃ z : Int, m = .constInteger z := by
    intro q m hm
    unfold mkConstRealOrInt at hm
    simp only at hm
    split at hm
    · cases hm
      exact ⟨_, rfl⟩
    · cases hm
  obtain ⟨entries, hnodup⟩ := p
  have hkey : ∀ e ∈ entries, e.1 = [] := fun e he =>
    List.eq_nil_iff_forall_not_mem.2 fun v hv => hp e he v hv
  obtain ⟨sum, hsum, h⟩ := bind_inv h
  have hall := forall₂_of_mapM hsum
  change List.Forall₂ (fun m n => mkMonomial .int m = some n) entries sum at hall
  cases hall with
  | nil => exact hconst h
  | cons hm hrest =>
    have he := hkey _ (.head _)
    obtain ⟨c, hc, hcm⟩ := map_inv hm
    rw [if_pos he] at hcm
    cases hrest with
    | nil =>
      cases h
      exact hcm ▸ hconst hc
    | cons _ _ =>
      have hnot := (List.nodupKeys_cons.1 hnodup).1
      have he' := hkey _ (.tail _ (.head _))
      rw [he, ← he'] at hnot
      exact absurd (.head _) hnot

lemma over_false_mkPolyNorm_constants {k : Kind} (hk : isPolyOp k = true) (zs : List Int) :
    Over (fun _ => False) (mkPolyNorm le (.app k (zs.map .constInteger))) := by
  rw [mkPolyNorm, if_pos hk, mkPolyNorms_eq_map]
  refine over_combine ?_ 0 over_empty
  intro p hp
  simp only [List.map_map, List.mem_map] at hp
  obtain ⟨z, -, rfl⟩ := hp
  exact over_empty.addMonomial (by simp) _ false

lemma rewriteArith_constants {k : Kind} {zs : List Int} {n : Node}
    (hk : k = .add ∨ k = .mult) (h : rewriteArith Γ le (.app k (zs.map .constInteger)) = some n) :
    ∃ z : Int, n = .constInteger z := by
  unfold rewriteArith at h
  split at h
  swap
  · cases h
  rename_i hty
  have hintro : rewriteLengthIntro Γ (.app k (zs.map .constInteger)) =
      some (.app k (zs.map .constInteger)) := by
    rcases hk with rfl | rfl <;>
      (rw [rewriteLengthIntro, rewriteLengthIntros_constants]
       · rfl
       all_goals simp)
  rw [hintro, bind_some, getPolyNorm, hty, bind_some,
    if_pos (show Ty.int.isArithType = true from rfl)] at h
  refine toNode_of_over_false (over_false_mkPolyNorm_constants ?_ zs) h
  rcases hk with rfl | rfl
  · rfl
  · rfl

end Constants

/-! ## Bounds of sums and products -/

section Bounds

variable {a b n : Node} {k : Kind} {cs : List Node}

lemma not_arithVal_of_seq {T S : Ty} {r : ℝ} (h : typeOf Γ a = some (.seq S)) :
    ¬ ArithVal I T a r := by
  intro ha
  have hT := some.inj (ha.typeOf_eq.symm.trans h)
  have harith := ha.isArithType
  rw [hT] at harith
  cases harith

lemma not_seqVal_of_int {T : Ty} {l : List (Dom I.U T)} (h : typeOf Γ a = some .int) :
    ¬ SeqVal I T a l := by
  intro ha
  have hT := (typeOf_of_eval ha).symm.trans h
  cases hT

variable {z : Int}

lemma boundOk_of_int (hty : typeOf Γ a = some .int)
    (h : ∀ (I : Interp Γ) (T : Ty) (r : ℝ), ArithVal I T a r → if isLower then (z : ℝ) ≤ r else r = z) :
    BoundOk Γ isLower a (.constInteger z) :=
  ⟨z, rfl, h, fun _ _ _ hl => absurd hl (not_seqVal_of_int hty)⟩

lemma boundOk_of_seq {S : Ty} (hty : typeOf Γ a = some (.seq S))
    (h : ∀ (I : Interp Γ) (T : Ty) (l : List (Dom I.U T)), SeqVal I T a l →
      if isLower then z ≤ l.length else (l.length : Int) = z) :
    BoundOk Γ isLower a (.constInteger z) :=
  ⟨z, rfl, fun _ _ _ hr => absurd hr (not_arithVal_of_seq hty), h⟩

lemma cachedBound_ok {compute : M (Option Node)}
    (h : Keeps (CachesOk Γ) compute fun ret => ∀ b, ret = some b → BoundOk Γ isLower a b) :
    Keeps (CachesOk Γ) (cachedBound isLower a compute) fun ret =>
      ∀ b, ret = some b → BoundOk Γ isLower a b := by
  unfold cachedBound
  refine Keeps.get.bind fun c hc => ?_
  split
  · rename_i ret hret
    refine Keeps.pure ?_
    rintro b rfl
    exact hc.bound isLower a b hret
  refine h.bind fun ret hret => ?_
  refine Keeps.bind (P := fun _ => True) (Keeps.modify fun c hc => ?_) fun _ _ => Keeps.pure hret
  constructor
  · intro isSimple a' ap h'
    refine hc.approx isSimple a' ap ?_
    rw [← h']
    cases isSimple <;> cases isLower <;> rfl
  intro isLower' a' b h'
  by_cases heq : isLower' = isLower ∧ a' = a
  · obtain ⟨rfl, rfl⟩ := heq
    refine hret b ?_
    cases isLower' <;> simpa [Caches.getBound, Caches.setBound] using h'
  refine hc.bound isLower' a' b ?_
  rw [← h']
  by_cases ha : a' = a
  · subst ha
    cases isLower' <;> cases isLower <;> simp_all [Caches.getBound, Caches.setBound]
  · cases isLower' <;> cases isLower <;>
      simp [Caches.getBound, Caches.setBound, Function.update_of_ne ha]

variable (Γ isLower) in
/-- The numbers `zs` bound the sum, or the product, of the nodes. -/
structure BoundsOk (k : Kind) (cs : List Node) (zs : List Int) : Prop where
  length : k = .mult → zs.length = cs.length
  pos : k = .mult → isLower = true → ∀ z ∈ zs, 0 < z
  sum : k = .add → ∀ (I : Interp Γ) (T : Ty) (xs : List ℝ), List.Forall₂ (ArithVal I T) cs xs →
    if isLower then ((zs.sum : Int) : ℝ) ≤ xs.sum else xs.sum = (zs.sum : Int)
  prod : k = .mult → ∀ (I : Interp Γ) (T : Ty) (xs : List ℝ), List.Forall₂ (ArithVal I T) cs xs →
    if isLower then ((zs.prod : Int) : ℝ) ≤ xs.prod else xs.prod = (zs.prod : Int)

lemma boundsOk_nil : BoundsOk Γ isLower k [] [] := by
  refine ⟨fun _ => rfl, (fun _ _ z hz => by cases hz), fun _ I T xs hxs => ?_,
    fun _ I T xs hxs => ?_⟩
  · cases hxs
    cases isLower <;> simp
  · cases hxs
    cases isLower <;> simp

lemma BoundsOk.cons_zero {c : Node} {zs : List Int} (hk : k = .add)
    (hc : BoundOk Γ isLower c (.constInteger 0)) (h : BoundsOk Γ isLower k cs zs) :
    BoundsOk Γ isLower k (c :: cs) zs := by
  subst hk
  refine ⟨(fun h => by cases h), (fun h => by cases h), fun _ I T xs hxs => ?_,
    (fun h => by cases h)⟩
  obtain ⟨x, xs', hx, hxs', rfl⟩ := List.forall₂_cons_left_iff.1 hxs
  obtain ⟨z, hz, hval, _⟩ := hc
  cases hz
  have hx0 := hval I T x hx
  have hsum := h.sum rfl I T xs' hxs'
  rw [List.sum_cons]
  cases isLower with
  | true =>
    simp only [if_true, Int.cast_zero] at hx0 hsum ⊢
    linarith
  | false =>
    simp only [Bool.false_eq_true, if_false, Int.cast_zero] at hx0 hsum ⊢
    linarith

lemma BoundsOk.cons {c : Node} {zs : List Int}
    (hc : BoundOk Γ isLower c (.constInteger z)) (hpos : k = .mult → isLower = true → 0 < z)
    (h : BoundsOk Γ isLower k cs zs) : BoundsOk Γ isLower k (c :: cs) (z :: zs) := by
  obtain ⟨z', hz', hval, _⟩ := hc
  cases hz'
  refine ⟨fun hk => congrArg (· + 1) (h.length hk), fun hk hl => ?_, fun hk I T xs hxs => ?_,
    fun hk I T xs hxs => ?_⟩
  · exact List.forall_mem_cons.2 ⟨hpos hk hl, h.pos hk hl⟩
  · obtain ⟨x, xs', hx, hxs', rfl⟩ := List.forall₂_cons_left_iff.1 hxs
    have hx0 := hval I T x hx
    have hsum := h.sum hk I T xs' hxs'
    rw [List.sum_cons, List.sum_cons, Int.cast_add]
    cases isLower with
    | true =>
      simp only [if_true] at hx0 hsum ⊢
      linarith
    | false =>
      simp only [Bool.false_eq_true, if_false] at hx0 hsum ⊢
      linarith
  obtain ⟨x, xs', hx, hxs', rfl⟩ := List.forall₂_cons_left_iff.1 hxs
  have hx0 := hval I T x hx
  have hprod := h.prod hk I T xs' hxs'
  rw [List.prod_cons, List.prod_cons, Int.cast_mul]
  cases isLower with
  | true =>
    simp only [if_true] at hx0 hprod ⊢
    have hz : (0 : ℝ) < z := by exact_mod_cast hpos hk rfl
    have hzs : (0 : ℝ) < ((zs.prod : Int) : ℝ) := by exact_mod_cast List.prod_pos (h.pos hk rfl)
    exact mul_le_mul hx0 hprod hzs.le (hz.le.trans hx0)
  | false =>
    simp only [Bool.false_eq_true, if_false] at hx0 hprod ⊢
    rw [hx0, hprod]

lemma arithVal_constants (zs : List Int) :
    List.Forall₂ (ArithVal I .int) (zs.map .constInteger) (zs.map (Int.cast : Int → ℝ)) := by
  induction zs with
  | nil => exact .nil
  | cons z zs ih => exact .cons (arithVal_constInteger z) ih

lemma clean_constants (zs : List Int) (hk : k ≠ .applyUf) :
    clean (.app k (zs.map .constInteger)) = true := by
  refine (clean_app_iff hk).2 fun c hc => ?_
  obtain ⟨z, -, rfl⟩ := List.mem_map.1 hc
  rfl

lemma combineBounds_ok (hle : IsOrder le) (hk : k = .add ∨ k = .mult)
    (hty : typeOf Γ (.app k cs) = some .int) {acs : Option (List Node)}
    (h : ∀ acs', acs = some acs' → ∃ zs : List Int, acs' = zs.map .constInteger ∧
      BoundsOk Γ isLower k cs zs) :
    Keeps (CachesOk Γ) (combineBounds Γ le k acs) fun ret =>
      ∀ b, ret = some b → BoundOk Γ isLower (.app k cs) b := by
  -- any number that is the sum or the product is a bound
  have hbound : ∀ {zs : List Int} {z : Int}, BoundsOk Γ isLower k cs zs →
      (∀ _ : Interp Γ, (k = .add → z = zs.sum) ∧ (k = .mult → cs ≠ [] → z = zs.prod)) →
      BoundOk Γ isLower (.app k cs) (.constInteger z) := by
    intro zs z hzs hz
    refine boundOk_of_int hty fun I T r hr => ?_
    rcases hk with rfl | rfl
    · obtain ⟨-, xs, hxs, rfl⟩ := arithVal_add_inv hr
      rw [(hz I).1 rfl]
      exact hzs.sum rfl I T xs hxs
    obtain ⟨hne, xs, hxs, rfl⟩ := arithVal_mult_inv (.inl rfl) hr
    rw [(hz I).2 rfl hne]
    exact hzs.prod rfl I T xs hxs
  unfold combineBounds
  split
  · exact Keeps.pure fun _ h => by cases h
  · obtain ⟨zs, hzs, hok⟩ := h _ rfl
    obtain rfl : zs = [] := by simpa using hzs.symm
    refine Keeps.pure ?_
    rintro b ⟨⟩
    refine hbound hok fun _ => ⟨fun _ => rfl, fun hmult hne => ?_⟩
    exact absurd (List.length_eq_zero_iff.1 (hok.length hmult).symm) hne
  · rename_i c
    obtain ⟨zs, hzs, hok⟩ := h _ rfl
    obtain ⟨z, rfl, rfl⟩ : ∃ z, zs = [z] ∧ c = .constInteger z := by
      cases zs with
      | nil => cases hzs
      | cons z zs =>
        rw [List.map_cons, List.cons.injEq] at hzs
        exact ⟨z, by rw [List.map_eq_nil_iff.1 hzs.2.symm], hzs.1⟩
    refine Keeps.pure ?_
    rintro b ⟨⟩
    exact hbound hok fun _ => ⟨fun _ => by simp, fun _ _ => by simp⟩
  rename_i acs' hne _
  obtain ⟨zs, rfl, hok⟩ := h _ rfl
  refine (Keeps.lift (P := fun b => rewriteArith Γ le (.app k (zs.map .constInteger)) = some b)
    fun _ h => h).map ?_
  rintro b hb b' ⟨⟩
  obtain ⟨z, rfl⟩ := rewriteArith_constants hk hb
  have hval := (rewriteArith_spec hle (clean_constants zs
    (by rcases hk with rfl | rfl <;> simp)) hb).2
  have hne' : zs.map Node.constInteger ≠ [] := fun h => hne h
  refine hbound hok fun I => ⟨?_, ?_⟩
  · rintro rfl
    obtain ⟨_, heq⟩ := (arithVal_constInteger z).unique
      (hval I _ (arithVal_add (arithVal_constants zs) hne'))
    rw [← Int.cast_list_sum] at heq
    exact_mod_cast heq.symm
  rintro rfl _
  obtain ⟨_, heq⟩ := (arithVal_constInteger z).unique
    (hval I _ (arithVal_mult (.inl rfl) (arithVal_constants zs) hne'))
  rw [← Int.cast_list_prod] at heq
  exact_mod_cast heq.symm

lemma typeOf_children (hk : k = .add ∨ k = .mult) (h : typeOf Γ (.app k cs) = some .int) :
    ∀ c ∈ cs, typeOf Γ c = some .int := by
  have hpre : preComputeType k = none := by rcases hk with rfl | rfl <;> rfl
  rw [typeOf, hpre] at h
  obtain ⟨Ts, hTs, hty⟩ := bind_inv h
  have hsum : computeType Γ k Ts = some (sumTy Ts) := by rcases hk with rfl | rfl <;> rfl
  rw [hsum, sumTy] at hty
  split at hty
  swap
  · cases hty
  rename_i hall
  intro c hc
  obtain ⟨T, hT, hcT⟩ := mem_of_forall₂_left (typesOf_eq_some.1 hTs).flip hc
  rw [hcT, of_decide_eq_true (List.all_eq_true.1 hall T hT)]

lemma boundChildren_ok (hk : k = .add ∨ k = .mult)
    (h : ∀ c ∈ cs, Keeps (CachesOk Γ) (getConstantBound Γ le isLower c) fun ret =>
      ∀ b, ret = some b → BoundOk Γ isLower c b) :
    Keeps (CachesOk Γ) (boundChildren Γ le isLower k cs) fun acs => ∀ acs', acs = some acs' →
      ∃ zs : List Int, acs' = zs.map .constInteger ∧ BoundsOk Γ isLower k cs zs := by
  induction cs with
  | nil =>
    rw [boundChildren]
    refine Keeps.pure ?_
    rintro acs' ⟨⟩
    exact ⟨[], rfl, boundsOk_nil⟩
  | cons c cs ih =>
    obtain ⟨hc, hcs⟩ := List.forall_mem_cons.1 h
    have hnone : Keeps (CachesOk Γ) (pure none : M (Option (List Node))) fun acs =>
        ∀ acs', acs = some acs' → ∃ zs : List Int, acs' = zs.map .constInteger ∧
          BoundsOk Γ isLower k (c :: cs) zs := Keeps.pure fun _ h => by cases h
    rw [boundChildren]
    refine hc.bind fun ret hret => ?_
    split
    · exact hnone
    rename_i ac
    obtain ⟨z, rfl, -⟩ := hret ac rfl
    have hbound := hret _ rfl
    refine (Keeps.lift (P := fun q => q = (z : Rat)) fun q hq => (some.inj hq).symm).bind
      fun q hq => ?_
    subst hq
    refine Keeps.ite (fun hz => Keeps.ite (fun _ => hnone) fun hadd => ?_) fun hz =>
      Keeps.ite (fun _ => hnone) fun hsign => ?_
    · have hz0 : z = 0 := by exact_mod_cast hz
      subst hz0
      refine (ih hcs).mono fun acs hacs acs' heq => ?_
      obtain ⟨zs, hzs, hok⟩ := hacs acs' heq
      exact ⟨zs, hzs, hok.cons_zero (hk.resolve_right hadd) hbound⟩
    refine (ih hcs).bind fun acs hacs => Keeps.pure fun acs' heq => ?_
    obtain ⟨acs1, rfl, rfl⟩ := map_inv heq
    obtain ⟨zs, rfl, hok⟩ := hacs acs1 rfl
    refine ⟨z :: zs, rfl, hok.cons hbound fun hmult hl => ?_⟩
    subst hl
    by_contra hneg
    refine hsign ⟨hmult, ?_⟩
    rw [decide_eq_false (by exact_mod_cast hneg)]
    simp

lemma getConstantBound_ok (hle : IsOrder le) (hty : typeOf Γ n = some .int) :
    Keeps (CachesOk Γ) (getConstantBound Γ le isLower n) fun ret =>
      ∀ b, ret = some b → BoundOk Γ isLower n b := by
  have hnone : ∀ a, Keeps (CachesOk Γ) (pure none : M (Option Node)) fun ret =>
      ∀ b, ret = some b → BoundOk Γ isLower a b := fun _ => Keeps.pure fun _ h => by cases h
  induction n with
  | app k cs ih =>
    by_cases hlen : k = .strLen
    · subst hlen
      rw [getConstantBound]
      refine cachedBound_ok (Keeps.pure ?_)
      intro b hb
      split at hb
      · rename_i hl
        cases hb
        refine boundOk_of_int hty fun I T r hr => ?_
        rw [if_pos hl, Int.cast_zero]
        exact arithVal_strLen_nonneg hr
      · cases hb
    · rw [getConstantBound]
      · refine cachedBound_ok (Keeps.ite (fun hk => ?_) fun _ => hnone _)
        have hchildren := typeOf_children hk hty
        exact (boundChildren_ok hk fun c hc => ih c hc (hchildren c hc)).bind
          fun acs hacs => combineBounds_ok hle hk hty hacs
      · exact hlen
  | var m =>
    rw [getConstantBound]
    · exact cachedBound_ok (hnone _)
    · simp
    · simp
  | constInteger z =>
    rw [getConstantBound]
    · refine cachedBound_ok (Keeps.pure ?_)
      rintro b ⟨⟩
      refine boundOk_of_int hty fun I T r hr => ?_
      obtain ⟨-, rfl⟩ := (arithVal_constInteger z).unique hr
      cases isLower <;> simp
    · simp
    · simp
  | _ => rw [typeOf] at hty; cases hty

end Bounds

/-! ## Bounds of lengths -/

section Lengths

variable {s : Node} {cs : List Node} {T : Ty}

lemma typeOf_components (h : typeOf Γ (.app .strConcat cs) = some (.seq T)) :
    ∀ c ∈ cs, typeOf Γ c = some (.seq T) := by
  rw [typeOf, show preComputeType Kind.strConcat = none from rfl] at h
  obtain ⟨Ts, hTs, hty⟩ := bind_inv h
  intro c hc
  obtain ⟨S, hS, hcS⟩ := mem_of_forall₂_left (typesOf_eq_some.1 hTs).flip hc
  rw [hcS]
  cases Ts with
  | nil => cases hS
  | cons S0 Ss =>
    change (if Ss.all (· = S0) then some S0 else none) = _ at hty
    split at hty
    swap
    · cases hty
    rename_i hall
    cases hty
    rcases List.mem_cons.1 hS with rfl | hS
    · rfl
    · rw [of_decide_eq_true (List.all_eq_true.1 hall S hS)]

lemma boundComponents_ok (sum : Rat)
    (h : ∀ c ∈ cs, Keeps (CachesOk Γ) (getConstantBoundLength isLower c) fun ret =>
      ∀ b, ret = some b → BoundOk Γ isLower c b) (hsum : sum.den = 1) :
    Keeps (CachesOk Γ) (boundComponents isLower sum cs) fun ret => ∀ q, ret = some q →
      q.den = 1 ∧ ∀ (I : Interp Γ) (T : Ty) (ls : List (List (Dom I.U T))),
        List.Forall₂ (SeqVal I T) cs ls →
          if isLower then q ≤ sum + ls.flatten.length else sum + ls.flatten.length = q := by
  induction cs generalizing sum with
  | nil =>
    rw [boundComponents]
    refine Keeps.pure ?_
    rintro q ⟨⟩
    refine ⟨hsum, fun I T ls hls => ?_⟩
    cases hls
    cases isLower <;> simp
  | cons c cs ih =>
    obtain ⟨hc, hcs⟩ := List.forall_mem_cons.1 h
    rw [boundComponents]
    refine hc.bind fun ret hret => ?_
    split
    · refine Keeps.ite (fun hl => ?_) fun _ => Keeps.pure fun _ h => by cases h
      refine (ih sum hcs hsum).mono fun ret hret q hq => ?_
      obtain ⟨hden, hval⟩ := hret q hq
      refine ⟨hden, fun I T ls hls => ?_⟩
      obtain ⟨l, ls', -, hls', rfl⟩ := List.forall₂_cons_left_iff.1 hls
      have hrest := hval I T ls' hls'
      rw [if_pos hl] at hrest ⊢
      rw [List.flatten_cons, List.length_append, Nat.cast_add]
      have hnonneg : (0 : Rat) ≤ l.length := Nat.cast_nonneg _
      linarith
    rename_i b
    obtain ⟨z, rfl, -, hlen⟩ := hret b rfl
    refine (Keeps.lift (P := fun q => q = (z : Rat)) fun q hq =>
      (some.inj hq).symm).bind fun q hq => ?_
    subst hq
    refine (ih (sum + z) hcs ?_).mono fun ret hret q hq => ?_
    · rw [← Rat.coe_int_num_of_den_eq_one hsum, ← Int.cast_add]
      exact Rat.den_intCast _
    obtain ⟨hden, hval⟩ := hret q hq
    refine ⟨hden, fun I T ls hls => ?_⟩
    obtain ⟨l, ls', hl, hls', rfl⟩ := List.forall₂_cons_left_iff.1 hls
    have hrest := hval I T ls' hls'
    have hfirst := hlen I T l hl
    rw [List.flatten_cons, List.length_append, Nat.cast_add]
    cases isLower with
    | true =>
      simp only [if_true] at hrest hfirst ⊢
      have hcast : (z : Rat) ≤ l.length := by exact_mod_cast hfirst
      linarith
    | false =>
      simp only [Bool.false_eq_true, if_false] at hrest hfirst ⊢
      have hcast : (l.length : Rat) = z := by exact_mod_cast hfirst
      linarith

lemma length_unit {k : Kind} {l : List (Dom I.U T)} (hk : k = .seqUnit ∨ k = .strUnit)
    (h : SeqVal I T (.app k cs) l) : l.length = 1 := by
  obtain ⟨vs, _, hv⟩ := eval_app_iff.1 h
  rcases hk with rfl | rfl
  · obtain ⟨S, x, _, heq⟩ := vAny1_inv (show vAny1 _ vs = some _ from hv)
    obtain rfl := Ty.seq.inj (congrArg Sigma.fst heq)
    cases Val.mk_inj.1 heq
    rfl
  obtain ⟨x, _, heq⟩ := vInt1_inv (show vInt1 _ vs = some _ from hv)
  obtain rfl := Ty.seq.inj (congrArg Sigma.fst heq)
  cases Val.mk_inj.1 heq
  rfl

lemma getConstantBoundLength_ok (hty : typeOf Γ s = some (.seq T)) :
    Keeps (CachesOk Γ) (getConstantBoundLength isLower s) fun ret =>
      ∀ b, ret = some b → BoundOk Γ isLower s b := by
  -- zero is a lower bound
  have hzero : ∀ {a : Node} {S : Ty} {ret : Option Node}, typeOf Γ a = some (.seq S) →
      ret = (if isLower then some (.constInteger 0) else none) →
        ∀ b, ret = some b → BoundOk Γ isLower a b := by
    rintro a S ret ha rfl b hb
    split at hb
    swap
    · cases hb
    rename_i hl
    cases hb
    refine boundOk_of_seq ha fun I T l _ => ?_
    rw [if_pos hl]
    exact Int.natCast_nonneg _
  have hleaf : ∀ {a : Node}, typeOf Γ a = some (.seq T) → Keeps (CachesOk Γ) (do
        if a.isConst then
          let len ← ofOption (getLength a)
          pure (some (Node.constInteger len))
        else pure (if isLower then some (Node.constInteger 0) else none)) fun ret =>
          ∀ b, ret = some b → BoundOk Γ isLower a b := by
    intro a ha
    refine Keeps.ite (fun _ => ?_) fun _ => Keeps.pure (hzero ha rfl)
    refine (Keeps.lift (P := fun len => getLength a = some len) fun _ h => h).bind
      fun len hlen => Keeps.pure ?_
    rintro b ⟨⟩
    refine boundOk_of_seq ha fun I T l hl => ?_
    rw [getLength_spec hlen hl]
    cases isLower <;> simp
  induction s generalizing T with
  | app k cs ih =>
    by_cases hk : k = .strConcat
    · subst hk
      rw [getConstantBoundLength]
      have hchildren := typeOf_components hty
      refine cachedBound_ok ((boundComponents_ok 0 (fun c hc => ih c hc (hchildren c hc) hleaf)
        rfl).bind fun ret hret => Keeps.pure ?_)
      have hnone : ∀ {r : Option Node}, r = none → ∀ b,
          (if r.isNone && isLower then some (.constInteger 0) else r) = some b →
            BoundOk Γ isLower (.app .strConcat cs) b := by
        rintro r rfl
        exact hzero hty (by cases isLower <;> rfl)
      cases ret with
      | none => exact hnone rfl
      | some q =>
        obtain ⟨hden, hval⟩ := hret q rfl
        rw [bind_some]
        split
        · exact hnone rfl
        rintro b ⟨⟩
        refine boundOk_of_seq hty fun I S l hl => ?_
        obtain ⟨-, ls, hls, rfl⟩ := seqVal_concat_iff.1 hl
        have hbound := hval I S ls hls
        rw [zero_add, ← Rat.coe_int_num_of_den_eq_one hden] at hbound
        cases isLower with
        | true => exact_mod_cast hbound
        | false => exact_mod_cast hbound
    · rw [getConstantBoundLength]
      · refine cachedBound_ok (Keeps.pure ?_)
        split
        · rename_i hunit
          rintro b ⟨⟩
          refine boundOk_of_seq hty fun I S l hl => ?_
          rw [length_unit hunit hl]
          cases isLower <;> simp
        · exact hzero hty rfl
      · exact hk
  | _ =>
    rw [getConstantBoundLength]
    · exact cachedBound_ok (hleaf hty)
    · simp
    · simp

end Lengths

end EthosCpc.Cvc5.Entail
