import EthosCpc.Cvc5.ArithEntailSpec

/-!
# Tests with an assumption are sound

A term keeps its value when a part is replaced by the solution of an equation
that holds.  An inequality is an equation with a fresh slack variable, which an
interpretation may choose without changing any other term.
-/

namespace EthosCpc.Cvc5.Entail

open Library
open ArithMSum
open Option (bind_some elim_some some.inj)
open List (forall_mem_cons map_append map_cons mem_append sum_append sum_cons)

variable {Γ : Nat → Ty} {I : Interp Γ} {le : Node → Node → Bool}

/-! ## Substitution -/

section Substitution

variable {v s n : Node}

lemma evalList_substituteList {ds : List Node}
    (h : ∀ c ∈ ds, eval I (substitute v s c) = eval I c) :
    evalList I (substituteList v s ds) = evalList I ds := by
  induction ds with
  | nil => rw [substituteList]
  | cons c cs ih =>
    obtain ⟨hc, hcs⟩ := forall_mem_cons.1 h
    rw [substituteList, evalList, evalList, hc, ih hcs]

/-- Equals are replaced by equals. -/
lemma eval_substitute (h : eval I v = eval I s) (n : Node) :
    eval I (substitute v s n) = eval I n := by
  have hleaf : ∀ n : Node, eval I (if n = v then s else n) = eval I n := by
    intro n
    split
    · rename_i heq
      rw [heq, h]
    · rfl
  induction n with
  | app k ds ih =>
    rw [substitute]
    split
    · rename_i heq
      rw [heq, h]
    · rw [eval, eval, evalList_substituteList ih]
  | _ =>
    rw [substitute]
    · exact hleaf _
    · simp

end Substitution

/-! ## Equations -/

section Equations

variable {T : Ty} {a b v s : Node} {x y : ℝ} {ms ms' : MSum} {e : Option Node × Option Node}

/-- A list of entries of one type, one for each variable. -/
structure SumOk (I : Interp Γ) (T : Ty) (ms : MSum) : Prop where
  nodup : (ms.map Prod.fst).Nodup
  entries : ∀ e ∈ ms, EntryOk I T e

lemma SumOk.perm (h : SumOk I T ms) (hperm : ms'.Perm ms) : SumOk I T ms' :=
  ⟨((hperm.map Prod.fst).nodup_iff).2 h.nodup, fun e he => h.entries e (hperm.mem_iff.1 he)⟩

lemma sum_perm (hperm : ms'.Perm ms) : (ms'.map (entryNum I)).sum = (ms.map (entryNum I)).sum :=
  (hperm.map _).sum_eq

lemma nodup_getMonomialSum (h : getMonomialSum le a = some ms) : (ms.map Prod.fst).Nodup := by
  obtain ⟨ms0, hfold, rfl⟩ := map_inv h
  have hrun : ∀ (cs : List Node) (ms ms' : MSum), (ms.map Prod.fst).Nodup →
      cs.foldlM (fun msum c => getMonomial c msum) ms = some ms' → (ms'.map Prod.fst).Nodup := by
    intro cs
    induction cs with
    | nil =>
      intro ms ms' hms h
      cases h
      exact hms
    | cons c cs ih =>
      intro ms ms' hms h
      obtain ⟨ms1, h1, h⟩ := bind_inv h
      simp only [getMonomial] at h1
      split at h1
      · cases h1
      rename_i hnew
      cases h1
      refine ih _ _ ?_ h
      rw [map_append, List.map_singleton]
      refine List.nodup_append.2 ⟨hms, List.nodup_singleton _, ?_⟩
      rintro k hk k' hk' rfl
      rw [List.mem_singleton.1 hk'] at hk
      exact hnew (by simpa using hk)
  exact (((List.mergeSort_perm _ _).map Prod.fst).nodup_iff).2 (hrun _ [] _ List.nodup_nil hfold)

lemma sumOk_getMonomialSum (h : getMonomialSum le a = some ms) (ha : ArithVal I T a x) :
    SumOk I T ms :=
  ⟨nodup_getMonomialSum h, (getMonomialSum_spec h ha).1⟩

/-- The entry under a key of a list with one entry for each key. -/
lemma lookup_split {c : Option Node} {k : Option Node} (h : ms.lookup k = some c)
    (hms : (ms.map Prod.fst).Nodup) : ∃ l1 l2, ms = l1 ++ (k, c) :: l2 ∧
      (∀ e ∈ l1, e.1 ≠ k) ∧ ∀ e ∈ l2, e.1 ≠ k := by
  obtain ⟨l1, l2, rfl, hl1⟩ := List.lookup_eq_some_iff.1 h
  refine ⟨l1, l2, rfl, fun e he heq => ?_, fun e he heq => ?_⟩
  · simpa [heq] using hl1 e he
  rw [map_append, map_cons] at hms
  have hnot := (List.nodup_cons.1 (List.nodup_append.1 hms).2.1).1
  exact hnot (List.mem_map.2 ⟨e, he, heq⟩)

lemma rational_mkConst (q : Rat) : (mkConst q).rational? = some q := by
  unfold mkConst
  split
  · rename_i h
    exact congrArg some (Rat.coe_int_num_of_den_eq_one h)
  · rfl

lemma entryOk_mkConst {q : Rat} {k c : Option Node} (h : EntryOk I T (k, c))
    (hq : T = .int → q.den = 1) : EntryOk I T (k, some (mkConst q)) := by
  refine ⟨⟨q, rational_mkConst q, hq⟩, fun _ => ⟨_, rfl, fun hT => ?_⟩, h.var⟩
  exact ⟨q.num, if_pos (hq hT)⟩

lemma entryNum_mkConst (q : Rat) (k : Option Node) :
    entryNum I (k, some (mkConst q)) = q * k.elim 1 (leafNum I) := by
  simp [entryNum, coeff, rational_mkConst]

lemma entryNum_eq {q : Rat} (h : coeff e.2 = some q) :
    entryNum I e = q * e.1.elim 1 (leafNum I) := by
  simp [entryNum, h]

lemma den_sub {q r : Rat} (hq : q.den = 1) (hr : r.den = 1) : (q - r).den = 1 := by
  rw [← Rat.coe_int_num_of_den_eq_one hq, ← Rat.coe_int_num_of_den_eq_one hr, ← Int.cast_sub]
  exact Rat.den_intCast _

lemma subtractEntry_spec (hms : SumOk I T ms) (he : EntryOk I T e)
    (h : subtractEntry ms e = some ms') :
    SumOk I T ms' ∧ (ms'.map (entryNum I)).sum = (ms.map (entryNum I)).sum - entryNum I e := by
  obtain ⟨k, c2⟩ := e
  obtain ⟨r2, hr2, h⟩ := bind_inv h
  have hden2 : T = .int → r2.den = 1 := by
    obtain ⟨q, hq, hden⟩ := he.coeff
    rwa [some.inj (hr2.symm.trans hq)]
  split at h
  · rename_i c hc
    obtain ⟨r1, hr1, rfl⟩ := map_inv h
    obtain ⟨l1, l2, rfl, hl1, hl2⟩ := lookup_split hc hms.nodup
    have hsame : ∀ l : MSum, (∀ e ∈ l, e.1 ≠ k) →
        l.map (fun e' => if e'.1 = k then (k, some (mkConst (r1 - r2))) else e') = l := by
      intro l hl
      rw [List.map_congr_left fun e he => if_neg (hl e he), List.map_id']
    have hentry := hms.entries (k, c) (List.mem_append_right _ (.head _))
    have hden : T = .int → (r1 - r2).den = 1 := by
      intro hT
      obtain ⟨q, hq, hq1⟩ := hentry.coeff
      cases hr1.symm.trans hq
      exact den_sub (hq1 hT) (hden2 hT)
    rw [map_append, map_cons, if_pos rfl, hsame l1 hl1, hsame l2 hl2]
    refine ⟨⟨?_, ?_⟩, ?_⟩
    · simpa using hms.nodup
    · intro e he
      rcases mem_append.1 he with he | he
      · exact hms.entries e (List.mem_append_left _ he)
      rcases List.mem_cons.1 he with rfl | he
      · exact entryOk_mkConst hentry hden
      · exact hms.entries e (List.mem_append_right _ (.tail _ he))
    have h1 : entryNum I (k, c) = r1 * k.elim 1 (leafNum I) := entryNum_eq hr1
    have h2 : entryNum I (k, c2) = r2 * k.elim 1 (leafNum I) := entryNum_eq hr2
    simp only [map_append, sum_append, map_cons, sum_cons, h1, h2, entryNum_mkConst, Rat.cast_sub]
    ring
  rename_i hnone
  cases h
  refine ⟨⟨?_, ?_⟩, ?_⟩
  · rw [map_append, List.map_singleton]
    refine List.nodup_append.2 ⟨hms.nodup, List.nodup_singleton _, ?_⟩
    rintro k' hk k'' hk'' rfl
    obtain ⟨e, he, rfl⟩ := List.mem_map.1 hk
    have hne := List.lookup_eq_none_iff.1 hnone e he
    rw [List.mem_singleton.1 hk''] at hne
    simp at hne
  · intro e' he'
    rcases mem_append.1 he' with he' | he'
    · exact hms.entries e' he'
    · rw [List.mem_singleton.1 he']
      exact entryOk_mkConst he fun hT => by rw [Rat.neg_den, hden2 hT]
  · rw [map_append, sum_append, List.map_singleton, List.sum_singleton,
      entryNum_mkConst, entryNum_eq hr2, Rat.cast_neg]
    ring

lemma getMonomialSumLit_spec (h : getMonomialSumLit Γ le a b = some ms)
    (ha : ArithVal I T a x) (hb : ArithVal I T b y) :
    SumOk I T ms ∧ (ms.map (entryNum I)).sum = x - y := by
  unfold getMonomialSumLit at h
  split at h
  swap
  · cases h
  obtain ⟨ms1, h1, h⟩ := bind_inv h
  have hok1 := sumOk_getMonomialSum h1 ha
  have hsum1 := (getMonomialSum_spec h1 ha).2
  split at h
  · rename_i hzero
    cases h
    obtain ⟨S, hS⟩ := arithVal_rational (I := I) hzero
    obtain ⟨_, hy⟩ := hb.unique hS
    refine ⟨hok1, ?_⟩
    rw [hsum1, ← hy]
    simp
  obtain ⟨ms2, h2, h⟩ := bind_inv h
  obtain ⟨ms3, h3, rfl⟩ := map_inv h
  have hok2 := (sumOk_getMonomialSum h2 hb).entries
  have hrun : ∀ (es ms ms' : MSum), (∀ e ∈ es, EntryOk I T e) → SumOk I T ms →
      es.foldlM subtractEntry ms = some ms' → SumOk I T ms' ∧
        (ms'.map (entryNum I)).sum = (ms.map (entryNum I)).sum - (es.map (entryNum I)).sum := by
    intro es
    induction es with
    | nil =>
      intro ms ms' _ hms h
      cases h
      exact ⟨hms, by simp⟩
    | cons e es ih =>
      intro ms ms' hes hms h
      obtain ⟨he, hes⟩ := forall_mem_cons.1 hes
      obtain ⟨ms1, h1, h⟩ := bind_inv h
      obtain ⟨hok, hsum⟩ := subtractEntry_spec hms he h1
      obtain ⟨hok', hsum'⟩ := ih _ _ hes hok h
      refine ⟨hok', ?_⟩
      rw [hsum', hsum, map_cons, sum_cons]
      ring
  obtain ⟨hok, hsum⟩ := hrun _ _ _ hok2 hok1 h3
  have hperm : (inOrder le ms3).Perm ms3 := List.mergeSort_perm _ _
  refine ⟨hok.perm hperm, ?_⟩
  rw [sum_perm hperm, hsum, hsum1, (getMonomialSum_spec h2 hb).2]

lemma arithVal_mkSummand {n : Node} (hT : T = .int ∨ T = .real) (he : EntryOk I T e)
    (h : mkSummand Γ (decide (T = .real)) e = some n) : ArithVal I T n (entryNum I e) := by
  obtain ⟨k, c⟩ := e
  obtain ⟨q, hq, hden⟩ := he.coeff
  obtain ⟨m, hm, hn⟩ := bind_inv h
  clear h
  cases k with
  | some w =>
    obtain ⟨z, hz⟩ := he.var w rfl
    have hval := arithVal_mkCoeffTerm hm hq hden hz
    have hnum : entryNum I (some w, c) = q * z := by rw [entryNum_eq hq, elim_some, leafNum_eq hz]
    rw [hnum]
    split at hn
    · rename_i hcast
      rw [hval.typeOf_eq] at hcast
      simp at hcast
    · cases hn
      exact hval
  | none =>
    obtain ⟨d, hd, hint⟩ := he.const rfl
    change c = some d at hd
    subst hd
    obtain rfl : d = m := some.inj hm
    change d.rational? = some q at hq
    have hnum : entryNum I (none, some d) = q := by
      rw [entryNum_eq (show coeff (some d) = some q from hq), Option.elim_none, mul_one]
    obtain ⟨S, hS⟩ := arithVal_rational (I := I) hq
    rw [hnum]
    split at hn
    · rename_i hcast
      have hreal : T = .real := by
        simp only [Bool.and_eq_true, decide_eq_true_eq] at hcast
        exact hcast.1
      rw [castToReal, if_pos (isConst_of_rational? hq), hq] at hn
      cases hn
      rw [hreal]
      exact arithVal_constRational q
    rename_i hcast
    cases hn
    rcases hT with rfl | rfl
    · obtain ⟨z, rfl⟩ := hint rfl
      cases hq
      exact_mod_cast arithVal_constInteger (I := I) z
    simp only [hS.typeOf_eq, decide_true, Bool.true_and, decide_eq_true_eq, ne_eq,
      Option.some.injEq, not_not] at hcast
    rwa [hcast] at hS
where
  isConst_of_rational? {c : Node} {q : Rat} (h : c.rational? = some q) : c.isConst = true := by
    cases c <;> first | rfl | cases h

/-- The solution for a variable has its value. -/
lemma isolate_spec (hms : SumOk I T ms) (hsum : (ms.map (entryNum I)).sum = 0)
    (h : isolate Γ v ms = some s) : eval I v = eval I s := by
  obtain ⟨c, hc, h⟩ := bind_inv h
  obtain ⟨r, hr, h⟩ := bind_inv h
  obtain ⟨l1, l2, rfl, hl1, hl2⟩ := lookup_split hc hms.nodup
  have hentry := hms.entries _ (List.mem_append_right _ (.head _))
  obtain ⟨y, hy⟩ := hentry.var v rfl
  have harith := hy.isArithType
  have hT : T = .int ∨ T = .real := by cases T <;> simp [Ty.isArithType] at harith ⊢
  rw [hy.typeOf_eq, bind_some] at h
  split at h
  · cases h
  rename_i hr0
  obtain ⟨children, hchildren, h⟩ := bind_inv h
  have hrest : (l1 ++ (some v, c) :: l2).filter (fun e => e.1 ≠ some v) = l1 ++ l2 := by
    rw [List.filter_append, List.filter_cons_of_neg (by simp),
      List.filter_eq_self.2 fun e he => by simpa using hl1 e he,
      List.filter_eq_self.2 fun e he => by simpa using hl2 e he]
  rw [hrest] at hchildren
  have hnums : List.Forall₂ (ArithVal I T) children ((l1 ++ l2).map (entryNum I)) := by
    have hok : ∀ e ∈ l1 ++ l2, EntryOk I T e := by
      intro e he
      refine hms.entries e ?_
      rcases mem_append.1 he with he | he
      · exact List.mem_append_left _ he
      · exact List.mem_append_right _ (.tail _ he)
    have hall := forall₂_of_mapM hchildren
    clear hchildren h hrest
    generalize l1 ++ l2 = l at hok hall
    induction hall with
    | nil => exact .nil
    | cons hm _ ih =>
      obtain ⟨he, hes⟩ := forall_mem_cons.1 hok
      exact .cons (arithVal_mkSummand hT he hm) (ih hes)
  obtain ⟨val, hval, h⟩ := bind_inv h
  set rest := ((l1 ++ l2).map (entryNum I)).sum with hrestdef
  have hbalance : rest + r * y = 0 := by
    have hv : entryNum I (some v, c) = r * y := by
      rw [entryNum_eq (show coeff c = some r from hr), elim_some, leafNum_eq hy]
    rw [map_append, sum_append, map_cons, sum_cons, hv] at hsum
    rw [hrestdef, map_append, sum_append]
    linarith
  have hvalnum : ArithVal I T val rest := by
    split at hval
    · rw [List.forall₂_nil_left_iff.1 hnums] at hrestdef
      rw [hrestdef]
      simpa using arithVal_mkConstRealOrInt hval
    · cases hval
      obtain ⟨z, zs, hz, hzs, heq⟩ := List.forall₂_cons_left_iff.1 hnums
      rw [hrestdef, heq, List.forall₂_nil_left_iff.1 hzs, List.sum_singleton]
      exact hz
    rename_i hne _
    cases hval
    exact arithVal_add hnums hne
  obtain ⟨val', hval', h⟩ := bind_inv h
  have hrR : (r : ℝ) ≠ 0 := by exact_mod_cast hr0
  -- the value without the sign of the coefficient
  have hval'num : ArithVal I T val' (rest / |(r : ℝ)|) := by
    split at hval'
    · rename_i hunit
      cases hval'
      have habs : |(r : ℝ)| = 1 := by
        rcases hunit with rfl | rfl <;> simp
      rwa [habs, div_one]
    split at hval'
    · cases hval'
    rename_i hnint
    cases hval'
    have hreal : T = .real := hT.resolve_left hnint
    rw [hreal] at hvalnum ⊢
    have hq := arithVal_constRational (I := I) (1 / |r|)
    have hprod := arithVal_mult_two hvalnum hq
    rwa [Rat.cast_div, Rat.cast_one, Rat.cast_abs, ← div_eq_mul_one_div] at hprod
  split at h
  · rename_i hpos
    rw [hval'num.typeOf_eq, bind_some] at h
    obtain ⟨c', hc', rfl⟩ := map_inv h
    have hprod := arithVal_mult_two (arithVal_mkConstRealOrInt (I := I) hc') hval'num
    have hrpos : (0 : ℝ) < r := by exact_mod_cast hpos
    have hyval : ((-1 : Rat) : ℝ) * (rest / |(r : ℝ)|) = y := by
      rw [abs_of_pos hrpos]
      push_cast
      field_simp
      linarith
    rw [hyval] at hprod
    exact hy.eval_eq hprod
  rename_i hneg
  cases h
  have hrneg : (r : ℝ) < 0 := lt_of_le_of_ne (by exact_mod_cast not_lt.1 hneg) hrR
  have hyval : rest / |(r : ℝ)| = y := by
    rw [abs_of_neg hrneg]
    field_simp
    linarith
  rw [hyval] at hval'num
  exact hy.eval_eq hval'num

lemma arithVal_of_typeOf {w : Val I.U} (ha : eval I a = some w)
    (h : (typeOf Γ a).any Ty.isArithType = true) : ∃ r, ArithVal I w.1 a r := by
  rw [typeOf_of_eval ha, Option.any_some] at h
  obtain ⟨S, d⟩ := w
  cases S with
  | int => exact ⟨_, _, ha, isNum_int d⟩
  | real => exact ⟨_, _, ha, isNum_real d⟩
  | _ => cases h

/-- A solution of an equation that holds. -/
lemma solveEqualityFor_spec {w : Val I.U} (ha : eval I a = some w) (hb : eval I b = some w)
    (h : solveEqualityFor Γ le a b v = some s) : eval I v = eval I s := by
  unfold solveEqualityFor at h
  split at h
  · rename_i hav
    cases h
    rw [← hav, ha, hb]
  split at h
  · rename_i hbv
    cases h
    rw [← hbv, ha, hb]
  obtain ⟨ms, hms, h⟩ := bind_inv h
  have hany : (typeOf Γ a).any Ty.isArithType = true := by
    unfold getMonomialSumLit at hms
    split at hms
    · assumption
    · cases hms
  obtain ⟨x, hx⟩ := arithVal_of_typeOf ha hany
  have hx' : ArithVal I w.1 b x := by
    obtain ⟨u, hu, hnum⟩ := hx
    cases ha.symm.trans hu
    exact ⟨_, hb, hnum⟩
  obtain ⟨hok, hsum⟩ := getMonomialSumLit_spec hms hx hx'
  exact isolate_spec hok (by rw [hsum, sub_self]) h

end Equations

/-! ## The slack variable -/

section Slack

mutual

/-- The value of the constant or function `x` matters to a node. -/
def mentions (x : Nat) : Node → Bool
  | .var n => n == x
  | .constSequence _ es => mentionsAny x es
  | .app (.other f) ds => f == x || mentionsAny x ds
  | .app _ ds => mentionsAny x ds
  | _ => false

/-- It matters to one of the nodes. -/
def mentionsAny (x : Nat) : List Node → Bool
  | [] => false
  | c :: cs => mentions x c || mentionsAny x cs

end

/-- Another value for the constant `x`. -/
abbrev setConst (I : Interp Γ) (x : Nat) (d : Dom I.U (Γ x)) : Interp Γ :=
  { I with const := Function.update I.const x d }

variable {x : Nat} {d : Dom I.U (Γ x)}

variable {ds : List Node}

lemma mentionsAny_eq_false : mentionsAny x ds = false ↔ ∀ c ∈ ds, mentions x c = false := by
  induction ds with
  | nil => simp [mentionsAny]
  | cons c cs ih => simp [mentionsAny, ih]

variable {k : Kind}

lemma mentions_app (hk : ∀ f, k ≠ .other f) : mentions x (.app k ds) = mentionsAny x ds := by
  cases k with
  | other f => exact absurd rfl (hk f)
  | _ => rw [mentions]; simp

lemma kindVal_setConst (hk : k ≠ .other x) : kindVal (setConst I x d) k = kindVal I k := by
  cases k with
  | other f =>
    have hf : f ≠ x := fun h => hk (congrArg Kind.other h)
    change vApply ⟨Γ f, Function.update I.const x d f⟩ = vApply ⟨Γ f, I.const f⟩
    rw [Function.update_of_ne hf]
  | toReal =>
    funext vs
    match vs with
    | [] => rfl
    | [⟨T, z⟩] | ⟨T, z⟩ :: _ :: _ => cases T <;> rfl
  | division | divisionTotal =>
    funext vs
    match vs with
    | [] => rfl
    | [⟨T, y⟩] => cases T <;> rfl
    | ⟨T, y⟩ :: ⟨S, z⟩ :: ws =>
      cases T with
      | real => cases S <;> cases ws <;> rfl
      | _ => rfl
  | applyUf =>
    funext vs
    cases vs <;> rfl
  | _ => rfl

lemma evalList_setConst (h : ∀ c ∈ ds, eval (setConst I x d) c = eval I c) :
    evalList (setConst I x d) ds = evalList I ds := by
  induction ds with
  | nil => rw [evalList, evalList]
  | cons c cs ih =>
    obtain ⟨hc, hcs⟩ := forall_mem_cons.1 h
    rw [evalList, evalList, hc, ih hcs]

lemma eval_setConst {n : Node} (h : mentions x n = false) : eval (setConst I x d) n = eval I n := by
  match n with
  | .constBoolean _ | .constInteger _ | .constRational _ | .constString _ => rw [eval, eval]
  | .constSequence T es =>
    rw [mentions, mentionsAny_eq_false] at h
    rw [eval, eval, evalList_setConst fun c hc => eval_setConst (h c hc)]
  | .var m =>
    rw [mentions] at h
    rw [eval, eval]
    change some (⟨Γ m, Function.update I.const x d m⟩ : Val I.U) = some ⟨Γ m, I.const m⟩
    rw [Function.update_of_ne (by simpa using h)]
  | .app k ds =>
    have hparts : k ≠ .other x ∧ mentionsAny x ds = false := by
      cases k with
      | other f =>
        rw [mentions, Bool.or_eq_false_iff] at h
        exact ⟨by simpa using h.1, h.2⟩
      | _ =>
        rw [mentions_app (by simp)] at h
        exact ⟨by simp, h⟩
    have hds := mentionsAny_eq_false.1 hparts.2
    rw [eval, eval, evalList_setConst fun c hc => eval_setConst (hds c hc),
      kindVal_setConst hparts.1]

lemma mentions_two {a b : Node} (hk : ∀ f, k ≠ .other f) :
    mentions x (.app k [a, b]) = (mentions x a || mentions x b) := by
  rw [mentions_app hk]
  simp [mentionsAny]

variable (Γ) in
/-- The slack variable is a string variable that does not occur. -/
structure IsSlack (x : Nat) (ns : List Node) : Prop where
  type : Γ x = .seq .char
  fresh : ∀ n ∈ ns, mentions x n = false

lemma exists_slack {a b : Node} {m n : Int} (hx : IsSlack Γ x [a, b])
    (ha : eval I a = some (.int m)) (hb : eval I b = some (.int n)) (hle : n ≤ m) :
    ∃ d : Dom I.U (Γ x), eval (setConst I x d) a = some (.int m) ∧
      eval (setConst I x d) (.app .add [b, mkLen (.var x)]) = some (.int m) := by
  obtain ⟨s, hs⟩ : ∃ s : Str, s.length = (m - n).toNat :=
    ⟨List.replicate (m - n).toNat 0, List.length_replicate⟩
  obtain ⟨d, hd⟩ : ∃ d : Dom I.U (Γ x), (⟨Γ x, d⟩ : Val I.U) = Val.str s := by
    rw [hx.type]
    exact ⟨s, rfl⟩
  refine ⟨d, ?_, ?_⟩
  · rw [eval_setConst (hx.fresh a (by simp)), ha]
  have hvar : eval (setConst I x d) (.var x) = some (Val.str s) := by
    rw [eval]
    change some (⟨Γ x, Function.update I.const x d x⟩ : Val I.U) = some (Val.str s)
    rw [Function.update_self, hd]
  have hsum := eval_add (I := setConst I x d) (show eval (setConst I x d) b = some (.int n) by
      rw [eval_setConst (hx.fresh b (by simp)), hb])
    (eval_len (T := .char) hvar)
  rw [hsum]
  refine congrArg (fun z => some (Val.int z)) ?_
  change n + ((s.length : Nat) : Int) = m
  omega

end Slack

/-! ## The test -/

section Test

variable (Γ le) in
/-- No length of a concatenation or of a constant stands below an application of a function in
the terms that a test with an assumption looks at: the inequality, and the tested term after the
substitution. -/
def cleanUnder (slackVal : Nat) (assumption a b : Node) : Bool :=
  (match assumption with
    | .app .equal _ => true
    | n => clean n) &&
  match eqAssumption Γ le slackVal assumption with
  | some (.inl true) => clean (mkSub a b)
  | some (.inr (x, y)) => (eqAssumptionTerm Γ le x y (mkSub a b)).all clean
  | _ => true

variable {slackVal : Nat} {F a b x y : Node}

lemma int_of_rational? {n : Node} {q : Rat} {z : Int} (h : n.rational? = some q)
    (hn : eval I n = some (.int z)) : q = z := by
  obtain ⟨S, hS⟩ := arithVal_rational (I := I) h
  obtain ⟨_, heq⟩ := hS.unique (arithVal_of_int hn)
  exact_mod_cast heq.symm

lemma int_of_typeOf_sub (h : typeOf Γ (mkSub x y) = some .int) : typeOf Γ x = some .int := by
  rw [typeOf, show preComputeType Kind.sub = none from rfl] at h
  obtain ⟨Ts, hTs, hty⟩ := bind_inv h
  have hall := typesOf_eq_some.1 hTs
  cases hall with
  | cons hx hrest =>
    rename_i S Ss
    change some (sumTy (S :: Ss)) = some .int at hty
    unfold sumTy at hty
    split at hty
    · rename_i hint
      rw [List.all_cons, Bool.and_eq_true, decide_eq_true_eq] at hint
      rw [hx, hint.1]
    · cases hty

lemma int_of_rewriteArith {n : Node} (h : rewriteArith Γ le (mkSub x y) = some n) :
    typeOf Γ x = some .int := by
  unfold rewriteArith at h
  split at h
  · rename_i hty
    exact int_of_typeOf_sub hty
  · cases h

variable {r : Bool ⊕ (Node × Node)}

lemma withSlack_spec {m n : Int} (hle : MapPoly.IsOrder le)
    (hslack : IsSlack Γ slackVal [x, y]) (h : eqAssumption.withSlack Γ le slackVal x y = some r)
    (hclean : clean x = true ∧ clean y = true) (hx : eval I x = some (.int m))
    (hy : eval I y = some (.int n)) (hge : n ≤ m) :
    r ≠ .inl false ∧ ∀ a b, r = .inr (a, b) → ∃ (d : Dom I.U (Γ slackVal)) (w : Val I.U),
      eval (setConst I slackVal d) a = some w ∧ eval (setConst I slackVal d) b = some w := by
  obtain ⟨d, hx', hy'⟩ := exists_slack hslack hx hy hge
  obtain ⟨rr, hrr, h⟩ := bind_inv h
  split at h
  · obtain ⟨q, hq, rfl⟩ := map_inv h
    refine ⟨?_, by simp⟩
    have hsum : clean (.app .add [y, mkLen (.var slackVal)]) = true :=
      clean_two (by simp) hclean.2 (clean_len rfl)
    have hval := (rewriteArith_spec hle (clean_two (by simp) hclean.1 hsum) hrr).2
      (setConst I slackVal d) _ (arithVal_of_int (eval_sub hx' hy'))
    have hzero := int_of_rational? hq (eval_of_arithVal hval)
    rw [sub_self, Int.cast_zero] at hzero
    simp [hzero]
  cases h
  refine ⟨by simp, ?_⟩
  rintro a b heq
  cases heq
  exact ⟨d, _, hx', hy'⟩

/-- An assumption that holds is not the constant false, and its equation holds for some value of
the slack variable. -/
lemma eqAssumption_spec (hle : MapPoly.IsOrder le)
    (hslack : IsSlack Γ slackVal [F, a, b]) (h : eqAssumption Γ le slackVal F = some r)
    (hclean : cleanUnder Γ le slackVal F a b = true) (hF : eval I F = some (.bool true)) :
    r ≠ .inl false ∧ ∀ x y, r = .inr (x, y) → ∃ (d : Dom I.U (Γ slackVal)) (w : Val I.U),
      eval (setConst I slackVal d) x = some w ∧ eval (setConst I slackVal d) y = some w := by
  have hfresh := hslack.fresh F (by simp)
  have hcleanF := (Bool.and_eq_true _ _ ▸ hclean).1
  unfold eqAssumption at h
  split at h
  · cases h
    rw [eval] at hF
    cases hF
    exact ⟨by simp, by simp⟩
  · rename_i x y
    cases h
    refine ⟨by simp, ?_⟩
    rintro a b heq
    cases heq
    obtain ⟨v, w, hv, hw, hk⟩ := eval_app_two_iff.1 hF
    obtain ⟨T, p, q, heq, hr⟩ := vEq_inv (show vEq [v, w] = some _ from hk)
    rw [mentions_two (by simp), Bool.or_eq_false_iff] at hfresh
    have hpq : p = q := truth_eq_true.1 (Val.bool_inj.1 hr).symm
    cases heq
    refine ⟨I.const slackVal, ⟨T, q⟩, ?_, ?_⟩
    · rw [eval_setConst hfresh.1, hv, hpq]
    · rw [eval_setConst hfresh.2, hw]
  · rename_i x y
    obtain ⟨v, w, hv, hw, hk⟩ := eval_app_two_iff.1 hF
    rw [mentions_two (by simp), Bool.or_eq_false_iff] at hfresh
    have hcl := (clean_app_iff (by simp)).1 hcleanF
    rcases vRel_inv (show vRel _ _ [v, w] = some _ from hk) with ⟨m, n, heq, hb⟩ | ⟨m, n, heq, -⟩
    · cases heq
      have hge : m ≥ n := truth_eq_true.1 (Val.bool_inj.1 hb).symm
      exact withSlack_spec hle ⟨hslack.type, by simpa using hfresh⟩ h
        ⟨hcl x (by simp), hcl y (by simp)⟩ hv hw hge
    · cases heq
      exact absurd (int_of_withSlack h) (by rw [typeOf_of_eval hv]; simp)
  · rename_i s t
    obtain ⟨v, hv, hk⟩ := eval_app_one_iff.1 hF
    obtain ⟨b', hb', hnot⟩ := vBool1_inv (show vBool1 _ [v] = some _ from hk)
    obtain rfl : b' = false := by simpa using (Val.bool_inj.1 hnot).symm
    cases hb'
    obtain ⟨v, w, hv, hw, hk⟩ := eval_app_two_iff.1 hv
    rw [mentions_app (by simp), mentionsAny, mentionsAny, Bool.or_false, mentions_two (by simp),
      Bool.or_eq_false_iff] at hfresh
    have hclgeq : clean (.app .geq [s, t]) = true :=
      (clean_app_iff (k := .not) (by simp)).1 hcleanF (.app .geq [s, t]) (by simp)
    have hcl := (clean_app_iff (by simp)).1 hclgeq
    rcases vRel_inv (show vRel _ _ [v, w] = some _ from hk) with ⟨m, n, heq, hb⟩ | ⟨m, n, heq, -⟩
    · cases heq
      have hlt : ¬ m ≥ n := truth_eq_false.1 (Val.bool_inj.1 hb).symm
      refine withSlack_spec hle ⟨hslack.type, ?_⟩ h
        ⟨clean_two (by simp) (hcl t (by simp)) rfl, hcl s (by simp)⟩
        (eval_sub hw (eval_constInteger 1)) hv (by omega)
      simp [mentionsAny, mentions, hfresh]
    · cases heq
      exact absurd (int_of_typeOf_sub (int_of_withSlack h)) (by rw [typeOf_of_eval hw]; simp)
  · cases h
where
  int_of_withSlack {x y : Node} {r : Bool ⊕ (Node × Node)}
      (h : eqAssumption.withSlack Γ le slackVal x y = some r) : typeOf Γ x = some .int :=
    let ⟨_, hrr, _⟩ := bind_inv h
    int_of_rewriteArith hrr

lemma checkWithAssumption_ok (hle : MapPoly.IsOrder le) (recApprox : Bool) (fuel : Nat)
    (F a b : Node) (strict : Bool) :
    Keeps (CachesOk Γ) (checkWithAssumption Γ le recApprox fuel slackVal F a b strict) fun r =>
      r = true → IsSlack Γ slackVal [F, a, b] → cleanUnder Γ le slackVal F a b = true →
        ∀ (I : Interp Γ) (m n : Int), eval I F = some (.bool true) → eval I a = some (.int m) →
          eval I b = some (.int n) → if strict then n < m else n ≤ m := by
  have hdiff : ∀ {m n : Int}, (if strict then 0 < m - n else 0 ≤ m - n) →
      if strict then n < m else n ≤ m := by
    intro m n h
    cases strict with
    | true => exact Int.sub_pos.1 h
    | false => exact Int.sub_nonneg.1 h
  unfold checkWithAssumption
  refine (Keeps.lift (P := fun r => eqAssumption Γ le slackVal F = some r) fun _ h => h).bind
    fun r hr => ?_
  split
  · refine (check_ok hle recApprox fuel (mkSub a b) strict false).mono ?_
    intro r' hr' htrue _ hclean I m n _ ha hb
    have hcl : clean (mkSub a b) = true := by
      have hcl := (Bool.and_eq_true _ _ ▸ hclean).2
      rwa [hr] at hcl
    exact hdiff (hr' htrue hcl I _ (eval_sub ha hb))
  · refine Keeps.pure fun _ hslack hclean I m n hF _ _ => ?_
    exact absurd rfl (eqAssumption_spec hle hslack hr hclean hF).1
  rename_i x y
  unfold checkWithEqAssumption
  split
  · exact Keeps.pure fun h => by cases h
  rename_i t ht
  refine (check_ok hle recApprox fuel t strict false).mono ?_
  intro r' hr' htrue hslack hclean I m n hF ha hb
  have hcl : clean t = true := by
    have hcl := (Bool.and_eq_true _ _ ▸ hclean).2
    rw [hr] at hcl
    change (eqAssumptionTerm Γ le x y (mkSub a b)).all clean = true at hcl
    rwa [ht] at hcl
  obtain ⟨d, w, hx, hy⟩ := (eqAssumption_spec hle hslack hr hclean hF).2 x y rfl
  obtain ⟨v, _, ht⟩ := bind_inv ht
  obtain ⟨s, hs, rfl⟩ := map_inv ht
  have hval := eval_sub (I := setConst I slackVal d)
    (show eval (setConst I slackVal d) a = some (.int m) by
      rw [eval_setConst (hslack.fresh a (by simp)), ha])
    (show eval (setConst I slackVal d) b = some (.int n) by
      rw [eval_setConst (hslack.fresh b (by simp)), hb])
  have hsubst := eval_substitute (solveEqualityFor_spec hx hy hs) (mkSub a b)
  exact hdiff (hr' htrue hcl _ _ (hsubst.trans hval))

end Test

end EthosCpc.Cvc5.Entail
