import EthosCpc.Cvc5.ArithApproxSpec

/-!
# The entailment test is sound

A sum of monomials is at least the sum of their approximations, so a term is not
negative when a test shows it for the sum of approximations.  By induction on
the number of nested calls, `check` is right for clean terms, whatever the
caches have remembered from earlier tests (`check_ok`).
-/

namespace EthosCpc.Cvc5.Entail

open Library
open ArithMSum
open List (map_append map_cons map_singleton mem_append mem_cons_of_mem mem_cons_self mem_singleton
  sum_append sum_cons sum_singleton)

variable {Γ : Nat → Ty} {I : Interp Γ} {le : Node → Node → Bool} {chk : Check} {isSimple : Bool}

/-! ## Sums of approximations -/

section Sums

abbrev Choice := Node × Option Node × List Node

def entryOf (ch : Choice) : Option Node × Option Node := (some ch.1, ch.2.1)

variable (Γ) in
def ChoiceOk (ch : Choice) : Prop :=
  ∃ q, coeff ch.2.1 = some q ∧ ∀ aa ∈ ch.2.2, Approx Γ (decide (q < 0)) ch.1 aa

variable (Γ) in
/-- What is fixed, what has a choice and the remaining monomials `ms` are together at most the
monomials `ms₀` of the term. -/
structure SetupOk (ms₀ ms : MSum) (s : Setup) : Prop where
  fixed : ∀ t ∈ s.fixedSum, clean t = true
  choices : ∀ ch ∈ s.choices, ChoiceOk Γ ch ∧ entryOf ch ∈ ms₀
  remaining : ∀ e ∈ ms, e ∈ ms₀
  bound : ∀ I : Interp Γ, (∀ e ∈ ms₀, EntryOk I .int e) →
    (∀ t ∈ s.fixedSum, ∃ r, ArithVal I .int t r) ∧
      (s.fixedSum.map (leafNum I)).sum + (s.choices.map fun ch => entryNum I (entryOf ch)).sum +
        (ms.map (entryNum I)).sum ≤ (ms₀.map (entryNum I)).sum

variable {c : Option Node}

variable {q : Rat} {s : Setup}

lemma approx_entry {v aa mn : Node}
    (haa : Approx Γ (decide (q < 0)) v aa) (hv : clean v = true) (hq : coeff c = some q)
    (hmn : mkCoeffTerm Γ c aa = some mn) :
    clean mn = true ∧ (EntryOk I .int (some v, c) →
      ∃ r, ArithVal I .int mn r ∧ r ≤ entryNum I (some v, c)) := by
  obtain ⟨hclean, happrox⟩ := haa hv
  refine ⟨clean_mkCoeffTerm hmn hclean, fun hok => ?_⟩
  obtain ⟨y, hy⟩ := hok.var v rfl
  obtain ⟨q', hq', hden⟩ := hok.coeff
  cases hq.symm.trans hq'
  obtain ⟨z, hz, rfl⟩ := arithVal_int_iff.1 hy
  obtain ⟨w, hw, hbound⟩ := happrox I z hz
  refine ⟨q * w, arithVal_mkCoeffTerm hmn hq hden (arithVal_of_int hw), ?_⟩
  have hnum : entryNum I (some v, c) = q * z := by simp [entryNum, hq, leafNum_eq hy]
  rw [hnum]
  by_cases hneg : q < 0
  · rw [decide_eq_true hneg] at hbound
    exact mul_le_mul_of_nonpos_left (Int.cast_le.2 hbound) (by exact_mod_cast hneg.le)
  · rw [decide_eq_false hneg] at hbound
    exact mul_le_mul_of_nonneg_left (Int.cast_le.2 hbound) (by exact_mod_cast not_lt.1 hneg)

variable {ms₀ ms : MSum}

lemma SetupOk.fix_const (hclean : CleanSum ms₀) (h : SetupOk Γ ms₀ ((none, c) :: ms) s) :
    SetupOk Γ ms₀ ms { s with fixedSum := s.fixedSum ++ [c.getD (.constInteger 1)] } := by
  have hmem := h.remaining _ (.head _)
  constructor
  · intro t ht
    rcases mem_append.1 ht with ht | ht
    · exact h.fixed t ht
    rw [mem_singleton.1 ht]
    cases c with
    | none => rfl
    | some c => exact (hclean _ hmem).2 c rfl
  · exact h.choices
  · exact fun e he => h.remaining e (.tail _ he)
  intro I hok
  obtain ⟨hvals, hle⟩ := h.bound I hok
  obtain ⟨d, hd, hint⟩ := (hok _ hmem).const rfl
  obtain ⟨z, rfl⟩ := hint rfl
  cases hd
  have hz := arithVal_constInteger (I := I) z
  refine ⟨?_, ?_⟩
  · intro t ht
    rcases mem_append.1 ht with ht | ht
    · exact hvals t ht
    · rw [mem_singleton.1 ht]
      exact ⟨z, hz⟩
  have hnum : entryNum I (none, some (.constInteger z)) = z := by
    simp [entryNum, coeff, Node.rational?]
  rw [map_cons, sum_cons, hnum] at hle
  rw [map_append, sum_append, map_singleton, sum_singleton, Option.getD_some, leafNum_eq hz]
  linarith

lemma SetupOk.fix_approx {v aa mn : Node}
    {am : List (Node × Node)} {ch : Bool} (hclean : CleanSum ms₀)
    (haa : Approx Γ (decide (q < 0)) v aa) (hq : coeff c = some q)
    (hmn : mkCoeffTerm Γ c aa = some mn) (h : SetupOk Γ ms₀ ((some v, c) :: ms) s) :
    SetupOk Γ ms₀ ms ⟨s.fixedSum ++ [mn], s.choices, am, ch⟩ := by
  have hmem := h.remaining _ (.head _)
  have hv := (hclean _ hmem).1 v rfl
  constructor
  · intro t ht
    rcases mem_append.1 ht with ht | ht
    · exact h.fixed t ht
    · rw [mem_singleton.1 ht]
      exact clean_mkCoeffTerm hmn (haa hv).1
  · exact h.choices
  · exact fun e he => h.remaining e (.tail _ he)
  intro I hok
  obtain ⟨hvals, hle⟩ := h.bound I hok
  obtain ⟨r, hr, hrle⟩ := (approx_entry (I := I) haa hv hq hmn).2 (hok _ hmem)
  refine ⟨?_, ?_⟩
  · intro t ht
    rcases mem_append.1 ht with ht | ht
    · exact hvals t ht
    · rw [mem_singleton.1 ht]
      exact ⟨r, hr⟩
  rw [map_cons, sum_cons] at hle
  rw [map_append, sum_append, map_singleton, sum_singleton, leafNum_eq hr]
  linarith

lemma SetupOk.choose {v : Node} {aas : List Node}
    (haas : ∀ aa ∈ aas, Approx Γ (decide (q < 0)) v aa) (hq : coeff c = some q)
    (h : SetupOk Γ ms₀ ((some v, c) :: ms) s) :
    SetupOk Γ ms₀ ms { s with choices := s.choices ++ [(v, c, aas)], changed := true } := by
  have hmem := h.remaining _ (.head _)
  constructor
  · exact h.fixed
  · intro ch hch
    rcases mem_append.1 hch with hch | hch
    · exact h.choices ch hch
    · rw [mem_singleton.1 hch]
      exact ⟨⟨q, hq, haas⟩, hmem⟩
  · exact fun e he => h.remaining e (.tail _ he)
  intro I hok
  obtain ⟨hvals, hle⟩ := h.bound I hok
  refine ⟨hvals, ?_⟩
  rw [map_cons, sum_cons] at hle
  rw [map_append, sum_append, map_singleton, sum_singleton]
  change _ + (_ + entryNum I (some v, c)) + _ ≤ _
  linarith

/-- The approximations of all monomials. -/
lemma setup_ok (hle : MapPoly.IsOrder le) (hchk : CheckOk Γ chk) (fuel : Nat) {ms₀ : MSum}
    (ms : MSum) (s : Setup) (h : CleanSum ms₀ → SetupOk Γ ms₀ ms s) :
    Keeps (CachesOk Γ) (setup Γ le chk isSimple fuel ms s) fun s' =>
      CleanSum ms₀ → SetupOk Γ ms₀ [] s' := by
  induction ms generalizing s with
  | nil =>
    rw [setup]
    exact Keeps.pure h
  | cons e ms ih =>
    obtain ⟨v?, c⟩ := e
    cases v? with
    | none =>
      rw [setup]
      exact ih _ fun hclean => (h hclean).fix_const hclean
    | some v =>
      rw [setup]
      refine (Keeps.lift (P := fun q => coeff c = some q) fun q hq => hq).bind fun q hq => ?_
      have hself : ∀ t ∈ [v], Approx Γ (decide (q < 0)) v t := by
        simpa using Approx.refl _ v
      refine (closeApprox_ok hle hchk fuel [v] [] [] hself (by simp)).bind fun aas haas => ?_
      split
      · exact Keeps.lift fun _ hnone => by cases hnone
      · rename_i aa
        refine (Keeps.lift (P := fun mn => mkCoeffTerm Γ c aa = some mn) fun _ hmn => hmn).bind
          fun mn hmn => ?_
        exact ih _ fun hclean =>
          (h hclean).fix_approx hclean (haas aa (.head _)) hq hmn
      · exact ih _ fun hclean => (h hclean).choose haas hq

lemma bestApprox_mem {msumAar : MSum} {cr : Option Node} {aas : List Node} {vapprox w : Node}
    {maxScore : Nat} (h : bestApprox Γ le msumAar cr aas vapprox maxScore = some w) :
    w ∈ vapprox :: aas := by
  induction aas generalizing vapprox maxScore with
  | nil =>
    cases h
    exact .head _
  | cons aa aas ih =>
    rw [bestApprox] at h
    obtain ⟨s, _, h⟩ := bind_inv h
    split at h
    · exact .tail _ (ih h)
    rcases List.mem_cons.1 (ih h) with rfl | hw
    · exact .head _
    · exact .tail _ (.tail _ hw)

lemma resolve_ok (hle : MapPoly.IsOrder le) {choices : List Choice} {aar aar' : Node}
    {msumAar : MSum} {approxMap approxMap' : List (Node × Node)}
    (h : resolve Γ le choices aar msumAar approxMap = some (some (aar', approxMap')))
    (hchoices : ∀ ch ∈ choices, ChoiceOk Γ ch ∧ clean ch.1 = true) (haar : clean aar = true) :
    clean aar' = true ∧ ∀ (I : Interp Γ) (r : ℝ),
      (∀ ch ∈ choices, EntryOk I .int (entryOf ch)) → ArithVal I .int aar r →
        ∃ r', ArithVal I .int aar' r' ∧
          r' ≤ r + (choices.map fun ch => entryNum I (entryOf ch)).sum := by
  induction choices generalizing aar msumAar approxMap with
  | nil =>
    cases h
    exact ⟨haar, fun I r _ hr => ⟨r, hr, by simp⟩⟩
  | cons ch choices ih =>
    obtain ⟨v, c, aas⟩ := ch
    obtain ⟨⟨⟨q, hq, haas⟩, hv⟩, hrest⟩ := List.forall_mem_cons.1 hchoices
    cases aas with
    | nil => cases h
    | cons aa aas =>
      rw [resolve] at h
      obtain ⟨s, _, h⟩ := bind_inv h
      obtain ⟨w, hw, h⟩ := bind_inv h
      obtain ⟨mn, hmn, h⟩ := bind_inv h
      obtain ⟨aar1, haar1, h⟩ := bind_inv h
      have happrox := haas w (bestApprox_mem hw)
      have hcleanmn := clean_mkCoeffTerm hmn (happrox hv).1
      have hclean1 := clean_getPolyNorm (clean_two (k := .add) (by simp) haar hcleanmn) haar1
      split at h
      · cases h
      obtain ⟨hclean', hval⟩ := ih h hrest hclean1
      refine ⟨hclean', fun I r hok hr => ?_⟩
      obtain ⟨hokv, hokrest⟩ := List.forall_mem_cons.1 hok
      obtain ⟨x, hx, hxle⟩ := (approx_entry (I := I) happrox hv hq hmn).2 hokv
      have hsum := getPolyNorm_spec hle (arithVal_add_two hr hx) haar1
      obtain ⟨r', hr', hr'le⟩ := hval I (r + x) hokrest hsum
      refine ⟨r', hr', ?_⟩
      rw [map_cons, sum_cons]
      change _ ≤ r + (entryNum I (some v, c) + _)
      linarith

end Sums

/-! ## The test -/

section Test

lemma arithVal_mkSum {ts : List Node} (h : ∀ t ∈ ts, ∃ r, ArithVal I .int t r) :
    ArithVal I .int (mkSum ts) (ts.map (leafNum I)).sum := by
  have hall := forall₂_leafNum h
  unfold mkSum
  split
  · simpa using arithVal_constInteger (I := I) 0
  · obtain ⟨x, xs, hx, _, heq⟩ := List.forall₂_cons_left_iff.1 hall
    rw [map_singleton, List.cons.injEq] at heq
    rw [map_singleton, sum_singleton, heq.1]
    exact hx
  · rename_i hne _
    exact arithVal_add hall hne

lemma clean_mkSum {ts : List Node} (h : ∀ t ∈ ts, clean t = true) : clean (mkSum ts) = true := by
  unfold mkSum
  split
  · rfl
  · exact h _ (.head _)
  · exact (clean_app_iff (by simp)).2 h

lemma checkSimple_sound {n : Node} {T : Ty} {r : ℝ} (h : checkSimple n = true)
    (hn : ArithVal I T n r) : 0 ≤ r := by
  induction n generalizing T r with
  | app k ds ih =>
    have hlist : checkSimples ds = true → ∀ c ∈ ds, checkSimple c = true := by
      clear ih h hn
      induction ds with
      | nil => simp
      | cons c cs ih =>
        intro hcs
        rw [checkSimples, Bool.and_eq_true] at hcs
        exact List.forall_mem_cons.2 ⟨hcs.1, ih hcs.2⟩
    have hnonneg : ∀ {xs : List ℝ}, checkSimples ds = true →
        List.Forall₂ (ArithVal I T) ds xs → ∀ x ∈ xs, 0 ≤ x := by
      intro xs hcs hxs x hx
      obtain ⟨c, hc, hcx⟩ := mem_of_forall₂_left hxs hx
      exact ih c hc (hlist hcs c hc) hcx
    unfold checkSimple at h
    split at h
    · rename_i heq
      cases heq
      exact arithVal_strLen_nonneg hn
    · rename_i heq
      cases heq
      obtain ⟨-, xs, hxs, rfl⟩ := arithVal_add_inv hn
      exact List.sum_nonneg (hnonneg h hxs)
    · rename_i heq
      cases heq
      obtain ⟨-, xs, hxs, rfl⟩ := arithVal_mult_inv (.inl rfl) hn
      exact List.prod_nonneg (hnonneg h hxs)
    · cases h
  | constInteger z =>
    obtain ⟨-, rfl⟩ := (arithVal_constInteger z).unique hn
    have hz : (0 : ℚ) ≤ z := of_decide_eq_true h
    exact_mod_cast hz
  | constRational q =>
    obtain ⟨-, rfl⟩ := (arithVal_constRational q).unique hn
    have hq : 0 ≤ q := of_decide_eq_true h
    exact_mod_cast hq
  | _ => cases h

lemma findApproxInternal_ok (hle : MapPoly.IsOrder le) (hchk : CheckOk Γ chk) (recApprox : Bool)
    (fuel : Nat) (ar : Node) (isSimple : Bool) :
    Keeps (CachesOk Γ) (findApproxInternal Γ le recApprox fuel chk ar isSimple) fun ret =>
      ret ≠ none → clean ar = true → Sound Γ false ar := by
  have hnone : Keeps (CachesOk Γ) (pure none : M (Option Node)) fun ret =>
      ret ≠ none → clean ar = true → Sound Γ false ar := Keeps.pure fun h => absurd rfl h
  unfold findApproxInternal
  dsimp only
  split
  · exact hnone
  rename_i ms hms
  have hstart : CleanSum ms → SetupOk Γ ms ms ⟨[], [], [], false⟩ := fun _ =>
    ⟨by simp, by simp, fun _ he => he, fun I _ => ⟨by simp, by simp⟩⟩
  refine (setup_ok hle hchk fuel ms ⟨[], [], [], false⟩ hstart).bind fun s hs => ?_
  refine Keeps.ite (fun _ => ?_) fun _ => hnone
  refine (Keeps.lift (P := fun aar => getPolyNorm Γ le (mkSum s.fixedSum) = some aar)
    fun _ h => h).bind fun aar haar => ?_
  -- the sum with all choices made is at most the term
  refine (Keeps.lift (P := fun r => ∀ aar' am, r = some (aar', am) → clean ar = true →
    clean aar' = true ∧ ∀ (I : Interp Γ) (z : Int), eval I ar = some (.int z) →
      ∃ y : Int, eval I aar' = some (.int y) ∧ y ≤ z) ?_).bind fun r hr => ?_
  · rintro r hr aar' am rfl hclean
    have hcleansum := clean_getMonomialSum hms hclean
    have hok := hs hcleansum
    have hcleanaar := clean_getPolyNorm (clean_mkSum hok.fixed) haar
    have hfixed : ∀ (I : Interp Γ) (z : Int), eval I ar = some (.int z) →
        (∀ e ∈ ms, EntryOk I .int e) ∧ ArithVal I .int aar (s.fixedSum.map (leafNum I)).sum ∧
          (s.fixedSum.map (leafNum I)).sum +
            (s.choices.map fun ch => entryNum I (entryOf ch)).sum ≤ z := by
      intro I z hz
      obtain ⟨hentries, hsum⟩ := getMonomialSum_spec hms (arithVal_of_int hz)
      obtain ⟨hvals, hbound⟩ := hok.bound I hentries
      refine ⟨hentries, getPolyNorm_spec hle (arithVal_mkSum hvals) haar, ?_⟩
      rw [hsum] at hbound
      simpa using hbound
    have hint : ∀ {I : Interp Γ} {n : Node} {r : ℝ} {z : Int}, ArithVal I .int n r → r ≤ z →
        ∃ y : Int, eval I n = some (.int y) ∧ y ≤ z := by
      intro I n r z hn hle
      obtain ⟨y, hy, rfl⟩ := arithVal_int_iff.1 hn
      exact ⟨y, hy, by exact_mod_cast hle⟩
    split at hr
    · rename_i hnil
      cases hr
      refine ⟨hcleanaar, fun I z hz => ?_⟩
      obtain ⟨_, hval, hbound⟩ := hfixed I z hz
      rw [hnil] at hbound
      exact hint hval (by simpa using hbound)
    split at hr
    · cases hr
    have hchoices : ∀ ch ∈ s.choices, ChoiceOk Γ ch ∧ clean ch.1 = true := by
      intro ch hch
      obtain ⟨h1, h2⟩ := hok.choices ch hch
      exact ⟨h1, (hcleansum _ h2).1 ch.1 rfl⟩
    obtain ⟨hclean', hval'⟩ := resolve_ok hle hr hchoices hcleanaar
    refine ⟨hclean', fun I z hz => ?_⟩
    obtain ⟨hentries, hval, hbound⟩ := hfixed I z hz
    obtain ⟨r', hr', hr'le⟩ := hval' I _ (fun ch hch => hentries _ (hok.choices ch hch).2) hval
    exact hint hr' (hr'le.trans hbound)
  · split
    · exact hnone
    · rename_i aar' am
      refine Keeps.ite (fun _ => hnone) fun _ => ?_
      refine (hchk aar' false _).bind fun b hb => ?_
      cases b with
      | false => exact hnone
      | true =>
        refine Keeps.pure fun _ hclean I z hz => ?_
        obtain ⟨hclean', hval⟩ := hr aar' am rfl hclean
        obtain ⟨y, hy, hyz⟩ := hval I z hz
        have hy0 : 0 ≤ y := hb rfl hclean' I y hy
        change 0 ≤ z
        omega

/-- A result that is right can be remembered. -/
lemma CachesOk.setApprox {c : Caches} (hc : CachesOk Γ c) {isSimple : Bool} {ar : Node}
    {ret : Option Node} (hret : ret ≠ none → clean ar = true → Sound Γ false ar) :
    CachesOk Γ (c.setApprox isSimple ar ret) := by
  constructor
  · intro isSimple' a ap h hclean
    by_cases heq : isSimple' = isSimple ∧ a = ar
    · obtain ⟨rfl, rfl⟩ := heq
      refine hret ?_ hclean
      rintro rfl
      cases isSimple' <;> simp [Caches.findApprox, Caches.setApprox] at h
    refine hc.approx isSimple' a ap ?_ hclean
    rw [← h]
    by_cases ha : a = ar
    · subst ha
      cases isSimple' <;> cases isSimple <;> simp_all [Caches.findApprox, Caches.setApprox]
    · cases isSimple' <;> cases isSimple <;>
        simp [Caches.findApprox, Caches.setApprox, Function.update_of_ne ha]
  · intro isLower a b h
    refine hc.bound isLower a b ?_
    rw [← h]
    cases isLower <;> cases isSimple <;> rfl

lemma findApprox_ok (hle : MapPoly.IsOrder le) (hchk : CheckOk Γ chk) (recApprox : Bool)
    (fuel : Nat) (ar : Node) (isSimple : Bool) :
    Keeps (CachesOk Γ) (findApprox Γ le recApprox fuel chk ar isSimple) fun ret =>
      ret ≠ none → clean ar = true → Sound Γ false ar := by
  unfold findApprox
  refine Keeps.get.bind fun c hc => ?_
  split
  · rename_i ret hret
    refine Keeps.pure fun hne hclean => ?_
    obtain ⟨ap, rfl⟩ := Option.ne_none_iff_exists'.1 hne
    exact hc.approx isSimple ar ap hret hclean
  have hstore : ∀ ret : Option Node, (ret ≠ none → clean ar = true → Sound Γ false ar) →
      Keeps (CachesOk Γ) (do modify fun c => c.setApprox isSimple ar ret; pure ret) fun ret =>
        ret ≠ none → clean ar = true → Sound Γ false ar := fun ret hret =>
    Keeps.bind (P := fun _ => True) (Keeps.modify fun c hc => hc.setApprox hret) fun _ _ =>
      Keeps.pure hret
  dsimp only
  refine Keeps.ite (fun hsimple => (Keeps.pure fun _ _ I z hz => ?_).bind hstore) fun _ =>
    (findApproxInternal_ok hle hchk recApprox fuel ar isSimple).bind hstore
  have hr := checkSimple_sound hsimple (arithVal_of_int hz)
  exact_mod_cast hr

lemma checkWith_ok (hle : MapPoly.IsOrder le) (hchk : CheckOk Γ chk) (recApprox : Bool)
    (fuel : Nat) : CheckOk Γ (checkWith Γ le recApprox fuel chk) := by
  intro a strict isSimple
  have hstrict : ∀ {ar : Node} {I : Interp Γ} {z : Int},
      eval I a = some (.int z) → ar = (if strict then mkSub a (.constInteger 1) else a) →
        ∃ y : Int, eval I ar = some (.int y) ∧ (0 ≤ y → if strict then 0 < z else 0 ≤ z) := by
    rintro ar I z hz rfl
    cases strict with
    | false => exact ⟨z, hz, fun h => h⟩
    | true =>
      refine ⟨z - 1, eval_sub hz (eval_constInteger 1), fun h => ?_⟩
      change 0 < z
      omega
  have hclean : clean a = true →
      clean (if strict then mkSub a (.constInteger 1) else a) = true := by
    intro h
    cases strict with
    | false => exact h
    | true => exact clean_two (by simp) h rfl
  unfold checkWith
  refine Keeps.ite (fun hconst => Keeps.lift ?_) fun _ => ?_
  · intro b hb htrue _ I z hz
    obtain ⟨q, hq, rfl⟩ := map_inv hb
    obtain ⟨T, hT⟩ := arithVal_rational (I := I) hq
    obtain ⟨_, hzq⟩ := hT.unique (arithVal_of_int hz)
    have hcast : q = (z : ℚ) := by exact_mod_cast hzq.symm
    rw [hcast] at htrue
    cases strict with
    | false => simpa using htrue
    | true => simpa using htrue
  dsimp only
  refine Keeps.ite (fun _ => Keeps.lift ?_) fun _ => ?_
  · intro b hb htrue _ I z hz
    obtain ⟨n, hn, rfl⟩ := map_inv hb
    obtain ⟨y, hy, hyz⟩ := hstrict hz rfl
    have hr := checkSimple_sound htrue (arithVal_of_int (eval_getPolyNorm hle hy hn))
    exact hyz (by exact_mod_cast hr)
  refine (Keeps.lift (P := fun ar => rewriteArith Γ le
    (if strict then mkSub a (.constInteger 1) else a) = some ar) fun _ h => h).bind
      fun ar har => ?_
  refine (findApprox_ok hle hchk recApprox fuel ar isSimple).bind fun ret hret => Keeps.pure ?_
  intro htrue hcl I z hz
  obtain ⟨hclar, hval⟩ := rewriteArith_spec hle (hclean hcl) har
  obtain ⟨y, hy, hyz⟩ := hstrict hz rfl
  have hne : ret ≠ none := by
    rintro rfl
    cases htrue
  exact hyz (hret hne hclar I y (eval_of_arithVal (hval I y (arithVal_of_int hy))))

/-- The entailment test is right for clean terms. -/
lemma check_ok (hle : MapPoly.IsOrder le) (recApprox : Bool) (fuel : Nat) :
    CheckOk Γ (check Γ le recApprox fuel) := by
  induction fuel with
  | zero => exact fun _ _ _ => Keeps.lift fun _ h => by cases h
  | succ fuel ih => exact checkWith_ok hle ih recApprox fuel

end Test

end EthosCpc.Cvc5.Entail
