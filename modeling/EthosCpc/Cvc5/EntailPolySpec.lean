import EthosCpc.Cvc5.EntailPoly
import EthosCpc.Cvc5.EntailNodeSpec
import EthosCpc.Library.MapPolyOver

/-!
# Sums of monomials keep values

Polynomial normalization keeps the number of an integer term (`getPolyNorm_spec`),
and so does the rewriting of lengths where no application of a function has a
length to rewrite below it (`clean`, `rewriteLengthIntro_spec`).  The entries of
a monomial sum add up to the number of the term.
-/

namespace EthosCpc.Cvc5.Entail

open Library
open Library.MapPoly
open Option (bind_some map_some some.inj)
open List (Forall₂ forall_mem_cons map_cons mem_cons_self)

variable {Γ : Nat → Ty} {I : Interp Γ} {le : Node → Node → Bool}

lemma forall₂_of_mapM {α β : Type*} {f : α → Option β} {as : List α} {bs : List β}
    (h : as.mapM f = some bs) : Forall₂ (fun a b => f a = some b) as bs := by
  induction as generalizing bs with
  | nil =>
    cases h
    exact .nil
  | cons a as ih =>
    rw [List.mapM_cons] at h
    obtain ⟨b, hb, h⟩ := bind_inv h
    obtain ⟨bs', hbs', heq⟩ := bind_inv h
    cases heq
    exact .cons hb (ih hbs')

/-! ## The polynomial of a node -/

section Polynomials

lemma mkPolyNorms_eq_map (cs : List Node) : mkPolyNorms le cs = cs.map (mkPolyNorm le) := by
  induction cs with
  | nil => rfl
  | cons c cs ih => rw [mkPolyNorms, ih, map_cons]

variable {cs : List Node}

variable {k : Kind} {n : Node} {T : Ty} {r : ℝ}

lemma constDivision?_eq_some {a : Node} {q : Rat} (h : constDivision? k cs = some (a, q)) :
    (k = .division ∨ k = .divisionTotal) ∧ ∃ c ds, cs = a :: c :: ds ∧ q ≠ 0 := by
  unfold constDivision? at h
  split at h
  all_goals
    first
    | contradiction
    | rename_i c ds
      split at h
      · split at h
        · rename_i hq
          cases h
          exact ⟨by simp, c, ds, rfl, hq⟩
        · cases h
      · cases h

lemma over_combine {P : Node → Prop} {ps : List PolyNorm} (hps : ∀ p ∈ ps, Over P p)
    (i : Nat) {r : PolyNorm} (hr : Over P r) : Over P (combine le k i r ps) := by
  induction ps generalizing i r with
  | nil => exact hr
  | cons p ps ih =>
    obtain ⟨hp, hps'⟩ := forall_mem_cons.1 hps
    rw [combine]
    refine ih hps' (i + 1) ?_
    split
    · exact hr.subtract hp
    split
    · exact hr.multiply hp
    · exact hr.add hp

/-- Properties of the variables that are passed on from an operation to its children hold for
the variables of a polynomial. -/
lemma over_mkPolyNorm {P : Node → Prop}
    (hop : ∀ k cs, isPolyOp k = true → P (.app k cs) → ∀ c ∈ cs, P c)
    (hdiv : ∀ k a cs, k = .division ∨ k = .divisionTotal → P (.app k (a :: cs)) → P a)
    (h : P n) : Over P (mkPolyNorm le n) := by
  have hleaf : ∀ n, P n → Over P (addMonomial (∅ : PolyNorm) [n] 1 false) := fun n hn =>
    over_empty.addMonomial (by simpa using hn) 1 false
  have hconst : ∀ c, Over P (addMonomial (∅ : PolyNorm) [] c false) := fun c =>
    over_empty.addMonomial (by simp) c false
  induction n with
  | constInteger z => exact hconst _
  | constRational q => exact hconst _
  | constBoolean b => exact hleaf _ h
  | constString s => exact hleaf _ h
  | constSequence T es => exact hleaf _ h
  | var n => exact hleaf _ h
  | app k cs ih =>
    rw [mkPolyNorm, mkPolyNorms_eq_map]
    split
    · rename_i hk
      have hps : ∀ p ∈ cs.map (mkPolyNorm le), Over P p :=
        List.forall_mem_map.2 fun c hc => ih c hc (hop k cs hk h c hc)
      exact over_combine hps 0 over_empty
    split
    swap
    · exact hleaf _ h
    rename_i aq p ps haq hcs
    obtain ⟨hk, c, ds, rfl, -⟩ := constDivision?_eq_some haq
    rw [map_cons, List.cons.injEq] at hcs
    obtain ⟨rfl, -⟩ := hcs
    exact (over_empty.add (ih _ (.head _) (hdiv k _ _ hk h))).multiplyMonomial (by simp) _

lemma combines (k : Kind) : Combines le (isSubtracted k) (isMultiplied k) (combine le k) :=
  ⟨fun _ _ => rfl, fun _ _ _ _ => rfl⟩

lemma normal_mkPolyNorm (hle : IsOrder le) (n : Node) : Normal le (mkPolyNorm le n) := by
  have hconst : ∀ c : Rat, Normal le (addMonomial (∅ : PolyNorm) [] c false) := fun c =>
    normal_empty.addMonomial List.Pairwise.nil c false
  have hleaf : ∀ n, Normal le (addMonomial (∅ : PolyNorm) [n] 1 false) := fun n =>
    normal_empty.addMonomial (List.pairwise_singleton _ _) 1 false
  induction n with
  | constInteger z => exact hconst _
  | constRational q => exact hconst _
  | constBoolean b => exact hleaf _
  | constString s => exact hleaf _
  | constSequence T es => exact hleaf _
  | var n => exact hleaf _
  | app k cs ih =>
    rw [mkPolyNorm, mkPolyNorms_eq_map]
    have hps : ∀ p ∈ cs.map (mkPolyNorm le), Normal le p := List.forall_mem_map.2 ih
    split
    · exact (combines k).normal hle hps 0 normal_empty
    split
    · rename_i aq p ps haq hcs
      obtain ⟨_, c, ds, _, hq⟩ := constDivision?_eq_some haq
      have hp : Normal le p := hps p (by rw [hcs]; simp)
      exact (normal_empty.add hp).multiplyMonomial hle [] (inv_ne_zero hq)
    · exact hleaf _

variable (I) in
/-- The number of a node, zero when it has none. -/
noncomputable def leafNum (n : Node) : ℝ := ((eval I n).bind numOf).getD 0

lemma leafNum_eq (h : ArithVal I T n r) : leafNum I n = r := by
  obtain ⟨v, hv, _, hr⟩ := h
  rw [leafNum, hv, bind_some, hr, Option.getD_some]

variable (I) in
/-- The value of a polynomial at the numbers of its variables. -/
noncomputable def polyNum (p : PolyNorm) : ℝ := MvPolynomial.aeval (leafNum I) (denote p)

lemma polyNum_addMonomial_nil (c : Rat) :
    polyNum I (addMonomial (∅ : PolyNorm) [] c false) = c := by
  rw [polyNum, denote_addMonomial, denote_empty, zero_add, aeval_monomial_exponents]
  simp

lemma polyNum_addMonomial_leaf (h : ArithVal I T n r) :
    polyNum I (addMonomial (∅ : PolyNorm) [n] 1 false) = r := by
  rw [polyNum, denote_addMonomial, denote_empty, zero_add, aeval_monomial_exponents]
  simp [leafNum_eq h]

lemma map_polyNum {xs : List ℝ} (h : Forall₂ (ArithVal I T) cs xs)
    (ih : ∀ c ∈ cs, ∀ r, ArithVal I T c r → polyNum I (mkPolyNorm le c) = r) :
    ((cs.map (mkPolyNorm le)).map denote).map (MvPolynomial.aeval (leafNum I)) = xs := by
  induction h with
  | nil => rfl
  | cons hc _ ihcs =>
    obtain ⟨ihc, ihcs'⟩ := forall_mem_cons.1 ih
    rw [map_cons, map_cons, map_cons, ihcs ihcs']
    congr 1
    exact ihc _ hc

lemma not_int_of_real
    (hk : k = .toReal ∨ k = .division ∨ k = .divisionTotal) : typeOf Γ (.app k cs) ≠ some .int := by
  intro h
  rw [typeOf] at h
  have hbind : (typesOf Γ cs).bind (computeType Γ k) = some .int := by
    rcases hk with rfl | rfl | rfl
    · exact h
    · exact h
    · exact h
  obtain ⟨Ts, _, hT⟩ := bind_inv hbind
  rcases hk with rfl | rfl | rfl
  · cases hT
  · cases hT
  · cases hT

lemma polyNum_mkPolyNorm (hle : IsOrder le) (h : ArithVal I .int n r) :
    polyNum I (mkPolyNorm le n) = r := by
  induction n generalizing r with
  | constInteger z =>
    rw [mkPolyNorm, polyNum_addMonomial_nil]
    simpa using (h.unique (arithVal_constInteger z)).2
  | constRational q => exact absurd (h.unique (arithVal_constRational q)).1 (by simp)
  | constBoolean b => exact polyNum_addMonomial_leaf h
  | constString s => exact polyNum_addMonomial_leaf h
  | constSequence T es => exact polyNum_addMonomial_leaf h
  | var n => exact polyNum_addMonomial_leaf h
  | app k cs ih =>
    have ih' : ∀ c ∈ cs, ∀ r, ArithVal I .int c r → polyNum I (mkPolyNorm le c) = r :=
      fun c hc r hr => ih c hc hr
    have hps : ∀ p ∈ cs.map (mkPolyNorm le), Normal le p :=
      List.forall_mem_map.2 fun c _ => normal_mkPolyNorm hle c
    rw [mkPolyNorm, mkPolyNorms_eq_map]
    have hmult : IsMult k → polyNum I (combine le k 0 ∅ (cs.map (mkPolyNorm le))) = r := by
      intro hk
      obtain ⟨hne, xs, hxs, rfl⟩ := arithVal_mult_inv hk h
      rw [polyNum, (combines k).denote_product hle
        (by rcases hk with rfl | rfl <;> simp [isSubtracted])
        (by rcases hk with rfl | rfl <;> simp [isMultiplied]) (by simp [isMultiplied]) hps
        (by simpa using hne),
        map_list_prod, map_polyNum hxs ih']
    cases k with
    | add =>
      obtain ⟨-, xs, hxs, rfl⟩ := arithVal_add_inv h
      rw [if_pos (show isPolyOp .add = true from rfl), polyNum,
        (combines _).denote_sum (by simp [isSubtracted]) (by simp [isMultiplied]), denote_empty, zero_add, map_list_sum, map_polyNum hxs ih']
    | mult => exact hmult (.inl rfl)
    | nonlinearMult => exact hmult (.inr rfl)
    | sub =>
      obtain ⟨a, b, x, y, rfl, ha, hb, rfl⟩ := arithVal_sub_inv h
      rw [← ih a (by simp) ha, ← ih b (by simp) hb]
      simp [polyNum, isPolyOp, combine, isSubtracted, isMultiplied, denote_add, denote_subtract]
    | neg =>
      obtain ⟨a, x, rfl, ha, rfl⟩ := arithVal_neg_inv h
      rw [← ih a (by simp) ha]
      simp [polyNum, isPolyOp, combine, isSubtracted, denote_subtract]
    | toReal => exact absurd h.typeOf_eq (not_int_of_real (.inl rfl))
    | division => exact absurd h.typeOf_eq (not_int_of_real (.inr (.inl rfl)))
    | divisionTotal => exact absurd h.typeOf_eq (not_int_of_real (.inr (.inr rfl)))
    | _ => exact polyNum_addMonomial_leaf h

end Polynomials

/-! ## The node of a polynomial -/

section Nodes

variable {T : Ty} {cs : List Node}

lemma forall₂_leafNum (h : ∀ c ∈ cs, ∃ r, ArithVal I T c r) :
    Forall₂ (ArithVal I T) cs (cs.map (leafNum I)) := by
  induction cs with
  | nil => exact .nil
  | cons c cs ih =>
    obtain ⟨⟨r, hr⟩, hcs⟩ := forall_mem_cons.1 h
    exact .cons (by rwa [leafNum_eq hr]) (ih hcs)

variable {xs : List ℝ}

lemma exists_of_forall₂ (h : Forall₂ (ArithVal I T) cs xs) : ∀ c ∈ cs, ∃ r, ArithVal I T c r := by
  induction h with
  | nil => simp
  | cons hc _ ih => exact forall_mem_cons.2 ⟨⟨_, hc⟩, ih⟩

lemma map_leafNum_eq (h : Forall₂ (ArithVal I T) cs xs) : cs.map (leafNum I) = xs := by
  induction h with
  | nil => rfl
  | cons hc _ ih => rw [map_cons, ih, leafNum_eq hc]

lemma arithVal_add_perm {cs cs' : List Node}
    (h : Forall₂ (ArithVal I T) cs xs) (hperm : cs'.Perm cs) (hne : cs ≠ []) :
    ArithVal I T (.app .add cs') xs.sum := by
  have hall := forall₂_leafNum fun c hc => exists_of_forall₂ h c (hperm.mem_iff.1 hc)
  have hadd := arithVal_add hall fun hnil => hne (hnil ▸ hperm).symm.eq_nil
  rwa [(hperm.map (leafNum I)).sum_eq, map_leafNum_eq h] at hadd

lemma arithVal_mkProduct {x : List Node} (hne : x ≠ [])
    (h : ∀ v ∈ x, ∃ r, ArithVal I T v r) : ArithVal I T (mkProduct x) (x.map (leafNum I)).prod := by
  have hall := forall₂_leafNum h
  unfold mkProduct
  split
  · cases hall with
    | cons hv _ => simpa using hv
  · exact arithVal_mult (Or.inl rfl) hall hne

variable {n : Node}

lemma arithVal_mkConstRealOrInt {q : Rat} (h : mkConstRealOrInt T q = some n) :
    ArithVal I T n q := by
  unfold mkConstRealOrInt at h
  split at h
  · split at h
    · rename_i hden
      cases h
      have hval := arithVal_constInteger (I := I) q.num
      rwa [← Rat.cast_intCast, Rat.den_eq_one_iff q |>.mp hden] at hval
    · cases h
  · cases h
    exact arithVal_constRational q
  · cases h

lemma arithVal_mkMonomial {m : Σ _ : List Node, Rat}
    (hm : ∀ v ∈ m.1, ∃ r, ArithVal I T v r) (h : mkMonomial T m = some n) :
    ArithVal I T n (m.2 * (m.1.map (leafNum I)).prod) := by
  obtain ⟨coeff, hcoeff, rfl⟩ := map_inv h
  have hc := arithVal_mkConstRealOrInt (I := I) hcoeff
  split
  · rename_i hnil
    simpa [hnil] using hc
  rename_i hne
  have hx := arithVal_mkProduct hne hm
  split
  · rename_i hone
    simpa [hone] using hx
  · exact arithVal_mult_two hc hx

lemma arithVal_toNode {p : PolyNorm}
    (hp : Over (fun v => ∃ r, ArithVal I T v r) p) (h : toNode le T p = some n) :
    ArithVal I T n (polyNum I p) := by
  obtain ⟨sum, hsum, h⟩ := bind_inv h
  have hval : Forall₂ (ArithVal I T) sum
      (p.entries.map fun m => algebraMap ℚ ℝ m.2 * (m.1.map (leafNum I)).prod) := by
    have hentries : ∀ m ∈ p.entries, ∀ v ∈ m.1, ∃ r, ArithVal I T v r := hp
    generalize p.entries = ms at hsum hentries
    have hall := forall₂_of_mapM hsum
    clear hsum h
    induction hall with
    | nil => exact .nil
    | cons hm _ ih =>
      obtain ⟨hhead, htail⟩ := forall_mem_cons.1 hentries
      exact .cons (arithVal_mkMonomial hhead hm) (ih htail)
  rw [polyNum, aeval_denote]
  generalize p.entries.map (fun m => algebraMap ℚ ℝ m.2 * (m.1.map (leafNum I)).prod) = xs at hval
  split at h
  · cases hval
    simpa using arithVal_mkConstRealOrInt (I := I) h
  · cases hval with
    | cons ht hnil =>
      cases hnil
      cases h
      simpa using ht
  rename_i hne _
  cases h
  exact arithVal_add_perm hval (List.mergeSort_perm sum le) hne

lemma getPolyNorm_spec (hle : IsOrder le) {a b : Node} {r : ℝ} (ha : ArithVal I .int a r)
    (h : getPolyNorm Γ le a = some b) : ArithVal I .int b r := by
  rw [getPolyNorm, ha.typeOf_eq, bind_some,
    if_pos (show Ty.int.isArithType = true from rfl)] at h
  have hover : Over (fun v => ∃ r, ArithVal I .int v r) (mkPolyNorm le a) := by
    refine over_mkPolyNorm ?_ ?_ ⟨r, ha⟩
    · rintro k cs hk ⟨r, hr⟩ c hc
      cases k with
      | add =>
        obtain ⟨_, xs, hxs, _⟩ := arithVal_add_inv hr
        exact exists_of_forall₂ hxs c hc
      | mult =>
        obtain ⟨_, xs, hxs, _⟩ := arithVal_mult_inv (.inl rfl) hr
        exact exists_of_forall₂ hxs c hc
      | nonlinearMult =>
        obtain ⟨_, xs, hxs, _⟩ := arithVal_mult_inv (.inr rfl) hr
        exact exists_of_forall₂ hxs c hc
      | sub =>
        obtain ⟨a, b, x, y, rfl, ha, hb, -⟩ := arithVal_sub_inv hr
        exact exists_of_forall₂ (.cons ha (.cons hb .nil)) c hc
      | neg =>
        obtain ⟨a, x, rfl, ha, -⟩ := arithVal_neg_inv hr
        exact exists_of_forall₂ (.cons ha .nil) c hc
      | toReal => exact absurd hr.typeOf_eq (not_int_of_real (.inl rfl))
      | _ => cases hk
    · rintro k a cs hk ⟨r, hr⟩
      exact absurd hr.typeOf_eq (not_int_of_real (.inr hk))
  have hnode := arithVal_toNode hover h
  rwa [polyNum_mkPolyNorm hle ha] at hnode

end Nodes

/-! ## Where lengths can be rewritten -/

section Clean

def hasIntro : Kind → List Node → Bool
  | .strLen, [c] => isConcat c || c.isConst
  | _, _ => false

mutual

def stable : Node → Bool
  | .app k ds => !hasIntro k ds && stableList ds
  | _ => true

def stableList : List Node → Bool
  | [] => true
  | c :: cs => stable c && stableList cs

end

mutual

/-- There is no length to rewrite below an application of a function. -/
def clean : Node → Bool
  | .app .applyUf (_ :: cs) => stableList cs
  | .app _ ds => cleanList ds
  | _ => true

/-- The children are clean. -/
def cleanList : List Node → Bool
  | [] => true
  | c :: cs => clean c && cleanList cs

end

variable {cs : List Node}

lemma stableList_iff : stableList cs = true ↔ ∀ c ∈ cs, stable c = true := by
  induction cs with
  | nil => simp [stableList]
  | cons c cs ih => rw [stableList, Bool.and_eq_true, ih, forall_mem_cons]

lemma cleanList_iff : cleanList cs = true ↔ ∀ c ∈ cs, clean c = true := by
  induction cs with
  | nil => simp [cleanList]
  | cons c cs ih => rw [cleanList, Bool.and_eq_true, ih, forall_mem_cons]

lemma clean_app_iff {k : Kind} (hk : k ≠ .applyUf) :
    clean (.app k cs) = true ↔ ∀ c ∈ cs, clean c = true := by
  rw [← cleanList_iff, clean]
  intro _ _ heq
  exact absurd heq hk

variable {n nt : Node} {T : Ty}

lemma clean_of_isConst (h : n.isConst = true) : clean n = true := by
  cases n with
  | app k cs => cases h
  | _ => rfl

lemma introLength_of_not_hasIntro {k : Kind} (h : hasIntro k cs = false) :
    introLength Γ (.app k cs) = some (.app k cs) := by
  unfold introLength
  split
  · rename_i heq
    cases heq
    exact absurd h (by simp [hasIntro, isConcat])
  · rename_i c hc heq
    cases heq
    rw [hasIntro, Bool.or_eq_false_iff] at h
    rw [h.2]
    rfl
  · rfl

lemma rewriteLengthIntros_eq_self
    (h : ∀ c ∈ cs, rewriteLengthIntro Γ c = some c) : rewriteLengthIntros Γ cs = some cs := by
  induction cs with
  | nil => rfl
  | cons c cs ih =>
    obtain ⟨hc, hcs⟩ := forall_mem_cons.1 h
    rw [rewriteLengthIntros, hc, ih hcs]
    rfl

lemma rewriteLengthIntro_of_stable (h : stable n = true) : rewriteLengthIntro Γ n = some n := by
  induction n with
  | app k ds ih =>
    rw [stable, Bool.and_eq_true, Bool.not_eq_true', stableList_iff] at h
    have hself := fun c hc => ih c hc (h.2 c hc)
    unfold rewriteLengthIntro
    split
    · rename_i heq
      cases heq
      rfl
    · rename_i f cs heq
      cases heq
      rw [rewriteLengthIntros_eq_self fun c hc => hself c (List.mem_cons_of_mem _ hc),
        map_some, if_pos rfl]
    · rename_i heq
      cases heq
      rw [rewriteLengthIntros_eq_self hself, bind_some]
      exact introLength_of_not_hasIntro h.1
    · rfl
  | _ => rfl

/-! ## Components -/

lemma mkEmptyWord_spec (h : mkEmptyWord (.seq T) = some nt) :
    nt.isConst = true ∧ SeqVal I T nt [] := by
  unfold mkEmptyWord at h
  split at h
  · rename_i heq
    cases heq
    cases h
    exact ⟨rfl, by rw [SeqVal, eval]; rfl⟩
  · rename_i heq
    cases heq
    cases h
    exact ⟨rfl, by rw [SeqVal, eval, evalList]; rfl⟩
  · cases h

lemma flattenList_eq_flatMap (nt : Node) (cs : List Node) :
    flattenList nt cs = cs.flatMap (flatten nt) := by
  induction cs with
  | nil => rfl
  | cons c cs ih => rw [flattenList, ih, List.flatMap_cons]

lemma clean_flatten (h : clean n = true) : ∀ c ∈ flatten nt n, clean c = true := by
  have hleaf : ∀ n, clean n = true → ∀ c ∈ (if n = nt then [] else [n]), clean c = true := by
    intro n hn c hc
    split at hc
    · cases hc
    · rw [List.mem_singleton.1 hc]
      exact hn
  induction n with
  | app k ds ih =>
    unfold flatten
    split
    swap
    · exact hleaf _ h
    rename_i heq
    cases heq
    split
    · simp
    intro c hc
    rw [flattenList_eq_flatMap] at hc
    obtain ⟨d, hd, hc⟩ := List.mem_flatMap.1 hc
    exact ih d hd ((clean_app_iff (by simp)).1 h d hd) c hc
  | _ => exact hleaf _ h

lemma flatMap_flatten {ls : List (List (Dom I.U T))} (hcs : ∀ c ∈ cs, ∀ l, SeqVal I T c l →
      ∃ ls, Forall₂ (SeqVal I T) (flatten nt c) ls ∧ l = ls.flatten)
    (h : Forall₂ (SeqVal I T) cs ls) :
    ∃ ms, Forall₂ (SeqVal I T) (flattenList nt cs) ms ∧ ls.flatten = ms.flatten := by
  rw [flattenList_eq_flatMap]
  induction h with
  | nil => exact ⟨[], .nil, rfl⟩
  | cons hc _ ih =>
    obtain ⟨hhead, htail⟩ := forall_mem_cons.1 hcs
    obtain ⟨ms₁, h₁, heq₁⟩ := hhead _ hc
    obtain ⟨ms₂, h₂, heq₂⟩ := ih htail
    refine ⟨ms₁ ++ ms₂, ?_, ?_⟩
    · rw [List.flatMap_cons]
      exact List.rel_append h₁ h₂
    · rw [List.flatten_cons, heq₁, heq₂, List.flatten_append]

/-- The components of a concatenation, in any nesting, concatenate to its value. -/
lemma flatten_spec {l : List (Dom I.U T)} (hnt : SeqVal I T nt []) (h : SeqVal I T n l) :
    ∃ ls, Forall₂ (SeqVal I T) (flatten nt n) ls ∧ l = ls.flatten := by
  have hempty : ∀ {n l}, SeqVal I T n l → n = nt →
      ∃ ls : List (List (Dom I.U T)), Forall₂ (SeqVal I T) [] ls ∧ l = ls.flatten := by
    rintro n l hn rfl
    refine ⟨[], .nil, ?_⟩
    exact (Val.mk_inj.1 (some.inj (hnt.symm.trans hn))).symm
  have hleaf : ∀ {n l}, SeqVal I T n l → ∃ ls : List (List (Dom I.U T)),
      Forall₂ (SeqVal I T) (if n = nt then [] else [n]) ls ∧ l = ls.flatten := by
    intro n l hn
    split
    · rename_i heq
      exact hempty hn heq
    · exact ⟨[l], .cons hn .nil, by simp⟩
  induction n generalizing l with
  | app k ds ih =>
    unfold flatten
    split
    swap
    · exact hleaf h
    rename_i heq
    cases heq
    split
    · rename_i heq
      exact hempty h heq
    · obtain ⟨-, ls, hls, rfl⟩ := seqVal_concat_iff.1 h
      exact flatMap_flatten (fun c hc l => ih c hc) hls
  | _ => exact hleaf h

lemma getACINormalForm_spec {arg : Node}
    (h : getACINormalForm Γ cs = some arg) (hcs : ∀ c ∈ cs, clean c = true) :
    clean arg = true ∧ ∀ (I : Interp Γ) (T : Ty) (l : List (Dom I.U T)),
      SeqVal I T (.app .strConcat cs) l → SeqVal I T arg l := by
  obtain ⟨nt, hnt, rfl⟩ := map_inv h
  obtain ⟨S, hS, hnt⟩ := bind_inv hnt
  have hconst : nt.isConst = true := by
    unfold mkEmptyWord at hnt
    split at hnt
    · cases hnt
      rfl
    · cases hnt
      rfl
    · cases hnt
  have hclean : ∀ c ∈ flattenList nt cs, clean c = true := by
    intro c hc
    rw [flattenList_eq_flatMap] at hc
    obtain ⟨d, hd, hc⟩ := List.mem_flatMap.1 hc
    exact clean_flatten (hcs d hd) c hc
  constructor
  · split
    · exact clean_of_isConst hconst
    · rename_i c heq
      exact hclean c (by rw [heq]; exact List.mem_singleton_self c)
    · exact (clean_app_iff (by simp)).2 hclean
  intro I T l hl
  have hT := typeOf_of_eval hl
  rw [hS] at hT
  cases hT
  obtain ⟨_, hempty⟩ := mkEmptyWord_spec (I := I) hnt
  obtain ⟨-, ls, hls, rfl⟩ := seqVal_concat_iff.1 hl
  obtain ⟨ms, hms, heq⟩ := flatMap_flatten (fun c _ l => flatten_spec hempty) hls
  rw [heq]
  split
  · rename_i hnil
    rw [hnil] at hms
    cases hms
    exact hempty
  · rename_i c hone
    rw [hone] at hms
    obtain ⟨m, ms', hm, hnil, rfl⟩ := List.forall₂_cons_left_iff.1 hms
    cases hnil
    simpa using hm
  · rename_i hne _
    exact seqVal_concat_iff.2 ⟨hne, ms, hms, rfl⟩

end Clean

/-! ## Rewriting lengths -/

section Lengths

lemma mem_of_forall₂_left {α β : Type*} {R : α → β → Prop} {as : List α} {bs : List β}
    (h : Forall₂ R as bs) {b : β} (hb : b ∈ bs) : ∃ a ∈ as, R a b := by
  induction h with
  | nil => cases hb
  | cons hab _ ih =>
    rcases List.mem_cons.1 hb with rfl | hb
    · exact ⟨_, .head _, hab⟩
    · obtain ⟨a, ha, hR⟩ := ih hb
      exact ⟨a, .tail _ ha, hR⟩

variable {c arg n : Node}

lemma componentLength_clean {d : Node} (h : componentLength c = some d)
    (hc : clean c = true) : clean d = true := by
  unfold componentLength at h
  split at h
  · obtain ⟨n, -, rfl⟩ := map_inv h
    rfl
  · cases h
    exact (clean_app_iff (by simp)).2 (by simpa using hc)

variable {T : Ty}

lemma length_of_collect {U : Nat → Type} {vs : List (Val U)} {l : List (Dom U T)}
    (h : collect T vs = some l) : l.length = vs.length := by
  induction vs generalizing l with
  | nil =>
    cases h
    rfl
  | cons v vs ih =>
    rw [collect] at h
    split at h
    · obtain ⟨l', hl', rfl⟩ := map_inv h
      rw [List.length_cons, ih hl', List.length_cons]
    · cases h

variable {l : List (Dom I.U T)}

lemma getLength_spec {n : Nat} (h : getLength c = some n) (hc : SeqVal I T c l) : l.length = n := by
  rw [SeqVal] at hc
  unfold getLength at h
  split at h
  · cases h
    rw [eval] at hc
    obtain rfl := Ty.seq.inj (congrArg Sigma.fst (some.inj hc))
    cases Val.mk_inj.1 (some.inj hc)
    rfl
  · cases h
    rw [eval] at hc
    obtain ⟨l', hl', heq⟩ := map_inv hc
    obtain ⟨vs, hvs, hl'⟩ := bind_inv hl'
    obtain rfl := Ty.seq.inj (congrArg Sigma.fst heq)
    cases Val.mk_inj.1 heq
    rw [length_of_collect hl', (evalList_eq_some.1 hvs).length_eq]
  · cases h

lemma componentLength_spec {d : Node}
    (h : componentLength c = some d) (hc : SeqVal I T c l) : ArithVal I .int d l.length := by
  unfold componentLength at h
  split at h
  · obtain ⟨n, hn, rfl⟩ := map_inv h
    rw [getLength_spec hn hc]
    simpa using arithVal_constInteger (I := I) n
  · cases h
    exact arithVal_len hc

lemma getConcat_clean (h : clean arg = true) : ∀ c ∈ getConcat arg, clean c = true := by
  unfold getConcat
  split
  · exact (clean_app_iff (by simp)).1 h
  · simpa using h

lemma getConcat_spec (h : SeqVal I T arg l) :
    ∃ ls, Forall₂ (SeqVal I T) (getConcat arg) ls ∧ l = ls.flatten := by
  unfold getConcat
  split
  · obtain ⟨_, hls⟩ := seqVal_concat_iff.1 h
    exact hls
  · exact ⟨[l], .cons h .nil, by simp⟩

lemma getConcat_ne_nil (h : SeqVal I T arg l) : getConcat arg ≠ [] := by
  unfold getConcat
  split
  · exact (seqVal_concat_iff.1 h).1
  · exact List.cons_ne_nil _ _

lemma sumOfLengths_spec (h : sumOfLengths arg = some n) (harg : clean arg = true) :
    clean n = true ∧ ∀ (I : Interp Γ) (T : Ty) (l : List (Dom I.U T)),
      SeqVal I T arg l → ArithVal I .int n l.length := by
  obtain ⟨sum, hsum, rfl⟩ := map_inv h
  have hall := forall₂_of_mapM hsum
  have hclean : ∀ d ∈ sum, clean d = true := by
    intro d hd
    obtain ⟨c, hc, hcd⟩ := mem_of_forall₂_left hall hd
    exact componentLength_clean hcd (getConcat_clean harg c hc)
  constructor
  · split
    · rename_i t
      exact hclean t (.head _)
    · exact (clean_app_iff (by simp)).2 hclean
  intro I T l hl
  obtain ⟨ls, hls, rfl⟩ := getConcat_spec hl
  have hvals : Forall₂ (ArithVal I .int) sum (ls.map fun l => (l.length : ℝ)) := by
    clear hl hsum hclean harg h
    generalize getConcat arg = cs at hall hls
    induction hall generalizing ls with
    | nil =>
      cases hls
      exact .nil
    | cons hcd _ ih =>
      obtain ⟨l, ls', hl, hls', rfl⟩ := List.forall₂_cons_left_iff.1 hls
      exact .cons (componentLength_spec hcd hl) (ih ls' hls')
  have hlen : ((ls.flatten.length : Nat) : ℝ) = (ls.map fun l => (l.length : ℝ)).sum := by
    rw [List.length_flatten, Nat.cast_list_sum, List.map_map]
    rfl
  rw [hlen]
  split
  · rename_i t
    obtain ⟨x, xs, ht, hnil, heq⟩ := List.forall₂_cons_left_iff.1 hvals
    cases hnil
    rw [heq]
    simpa using ht
  refine arithVal_add hvals ?_
  intro hnil
  rw [hnil] at hall
  have hlength := hall.length_eq
  exact getConcat_ne_nil hl (List.length_eq_zero_iff.1 hlength)

lemma introLength_spec {k : Kind} {cs : List Node} (hk : k ≠ .applyUf)
    (hcs : ∀ c ∈ cs, clean c = true) (h : introLength Γ (.app k cs) = some n) :
    clean n = true ∧ ∀ (I : Interp Γ) (v : Val I.U),
      eval I (.app k cs) = some v → eval I n = some v := by
  have hlen : ∀ {arg s m : Node}, sumOfLengths arg = some m → clean arg = true →
      (∀ (I : Interp Γ) (T : Ty) (l : List (Dom I.U T)), SeqVal I T s l → SeqVal I T arg l) →
      clean m = true ∧ ∀ (I : Interp Γ) (v : Val I.U),
        eval I (.app .strLen [s]) = some v → eval I m = some v := by
    intro arg s m hm harg hs
    obtain ⟨hclean, hval⟩ := sumOfLengths_spec (Γ := Γ) hm harg
    refine ⟨hclean, fun I v hv => ?_⟩
    obtain ⟨T, l, hl, rfl⟩ := eval_strLen_iff.1 hv
    have hint := hval I T l (hs I T l hl)
    obtain ⟨z, hz, heq⟩ := arithVal_int_iff.1 hint
    rw [hz]
    have hzl : (l.length : Int) = z := by exact_mod_cast heq
    rw [← hzl]
  have hsame : clean (.app k cs) = true ∧ ∀ (I : Interp Γ) (v : Val I.U),
      eval I (.app k cs) = some v → eval I (.app k cs) = some v :=
    ⟨(clean_app_iff hk).2 hcs, fun _ _ hv => hv⟩
  unfold introLength at h
  split at h
  · rename_i cs' heq
    cases heq
    obtain ⟨arg, harg, hm⟩ := bind_inv h
    have hcs' := (clean_app_iff (by simp)).1 (hcs _ mem_cons_self)
    obtain ⟨hclean, hval⟩ := getACINormalForm_spec harg hcs'
    exact hlen hm hclean hval
  · rename_i c _ heq
    cases heq
    split at h
    · exact hlen h (hcs _ (.head _)) fun _ _ _ hl => hl
    · cases h
      exact hsame
  · cases h
    exact hsame

lemma rewriteLengthIntros_spec {cs cs' : List Node}
    (ih : ∀ c ∈ cs, ∀ c', clean c = true → rewriteLengthIntro Γ c = some c' → clean c' = true ∧
      ∀ (I : Interp Γ) (v : Val I.U), eval I c = some v → eval I c' = some v)
    (hcs : ∀ c ∈ cs, clean c = true) (h : rewriteLengthIntros Γ cs = some cs') :
    (∀ c ∈ cs', clean c = true) ∧ ∀ (I : Interp Γ) (vs : List (Val I.U)),
      Forall₂ (fun c v => eval I c = some v) cs vs →
        Forall₂ (fun c v => eval I c = some v) cs' vs := by
  induction cs generalizing cs' with
  | nil =>
    cases h
    exact ⟨by simp, fun _ _ hvs => hvs⟩
  | cons d ds ihds =>
    obtain ⟨ihd, ihds'⟩ := forall_mem_cons.1 ih
    obtain ⟨hd, hds⟩ := forall_mem_cons.1 hcs
    rw [rewriteLengthIntros] at h
    obtain ⟨c, hc, h⟩ := bind_inv h
    obtain ⟨cs, hcs, rfl⟩ := map_inv h
    obtain ⟨hclean, hval⟩ := ihd c hd hc
    obtain ⟨hcleans, hvals⟩ := ihds ihds' hds hcs
    refine ⟨forall_mem_cons.2 ⟨hclean, hcleans⟩, fun I vs hvs => ?_⟩
    obtain ⟨v, vs', hv, hvs', rfl⟩ := List.forall₂_cons_left_iff.1 hvs
    exact .cons (hval I v hv) (hvals I vs' hvs')

lemma rewriteLengthIntro_spec {n' : Node} (hn : clean n = true)
    (h : rewriteLengthIntro Γ n = some n') :
    clean n' = true ∧ ∀ (I : Interp Γ) (v : Val I.U), eval I n = some v → eval I n' = some v := by
  induction n generalizing n' with
  | app k ds ih =>
    unfold rewriteLengthIntro at h
    split at h
    · rename_i heq
      cases heq
      cases h
      exact ⟨hn, fun _ _ hv => hv⟩
    · rename_i f cs heq
      cases heq
      rw [clean, stableList_iff] at hn
      rw [rewriteLengthIntros_eq_self fun c hc => rewriteLengthIntro_of_stable (hn c hc),
        map_some, if_pos rfl] at h
      cases h
      rw [clean, stableList_iff]
      exact ⟨hn, fun _ _ hv => hv⟩
    · rename_i hnil hcons heq
      cases heq
      obtain ⟨cs', hcs', h⟩ := bind_inv h
      have hk : k ≠ .applyUf := by
        rintro rfl
        cases ds with
        | nil => exact hnil rfl rfl
        | cons f cs => exact hcons f cs rfl rfl
      have hchildren := rewriteLengthIntros_spec (fun c hc _ => ih c hc)
        ((clean_app_iff hk).1 hn) hcs'
      obtain ⟨hclean, hval⟩ := introLength_spec hk hchildren.1 h
      refine ⟨hclean, fun I v hv => hval I v ?_⟩
      obtain ⟨vs, hvs, hkv⟩ := eval_app_iff.1 hv
      exact eval_app_iff.2 ⟨vs, hchildren.2 I vs hvs, hkv⟩
    · rename_i heq
      exact absurd rfl (heq _ _)
  | _ =>
    cases h
    exact ⟨hn, fun _ _ hv => hv⟩

end Lengths

/-! ## Arithmetic rewriting -/

section Rewriting

lemma clean_mkConstRealOrInt {T : Ty} {q : Rat} {n : Node} (h : mkConstRealOrInt T q = some n) :
    clean n = true := by
  unfold mkConstRealOrInt at h
  split at h
  · split at h
    · cases h
      rfl
    · cases h
  · cases h
    rfl
  · cases h

lemma clean_mkMonomial {T : Ty} {m : Σ _ : List Node, Rat} {n : Node}
    (hm : ∀ v ∈ m.1, clean v = true) (h : mkMonomial T m = some n) : clean n = true := by
  have hproduct : clean (mkProduct m.1) = true := by
    unfold mkProduct
    split
    · rename_i v heq
      exact hm v (by rw [heq]; exact List.mem_singleton_self v)
    · exact (clean_app_iff (by simp)).2 hm
  obtain ⟨coeff, hcoeff, rfl⟩ := map_inv h
  split
  · exact clean_mkConstRealOrInt hcoeff
  split
  · exact hproduct
  · refine (clean_app_iff (by simp)).2 ?_
    simpa using ⟨clean_mkConstRealOrInt hcoeff, hproduct⟩

lemma clean_getPolyNorm {a b : Node} (ha : clean a = true) (h : getPolyNorm Γ le a = some b) :
    clean b = true := by
  obtain ⟨T, _, h⟩ := bind_inv h
  split at h
  swap
  · cases h
    exact ha
  have hover : Over (fun v => clean v = true) (mkPolyNorm le a) := by
    refine over_mkPolyNorm ?_ ?_ ha
    · intro k cs hk hcs
      refine (clean_app_iff ?_).1 hcs
      rintro rfl
      cases hk
    intro k a cs hk hcs
    refine (clean_app_iff ?_).1 hcs a (.head _)
    rintro rfl
    rcases hk with hk | hk
    · cases hk
    · cases hk
  obtain ⟨sum, hsum, h⟩ := bind_inv h
  have hclean : ∀ d ∈ sum, clean d = true := by
    intro d hd
    obtain ⟨m, hm, hmd⟩ := mem_of_forall₂_left (forall₂_of_mapM hsum) hd
    exact clean_mkMonomial (hover m hm) hmd
  split at h
  · exact clean_mkConstRealOrInt h
  · cases h
    exact hclean _ (.head _)
  · cases h
    refine (clean_app_iff (by simp)).2 fun c hc => hclean c (List.mem_mergeSort.1 hc)

lemma rewriteArith_spec (hle : IsOrder le) {a b : Node} (ha : clean a = true)
    (h : rewriteArith Γ le a = some b) :
    clean b = true ∧ ∀ (I : Interp Γ) (r : ℝ), ArithVal I .int a r → ArithVal I .int b r := by
  unfold rewriteArith at h
  split at h
  swap
  · cases h
  obtain ⟨c, hc, h⟩ := bind_inv h
  obtain ⟨hclean, hval⟩ := rewriteLengthIntro_spec ha hc
  refine ⟨clean_getPolyNorm hclean h, fun I r hr => getPolyNorm_spec hle ?_ h⟩
  obtain ⟨v, hv, hnum⟩ := hr
  exact ⟨v, hval I v hv, hnum⟩

end Rewriting

/-! ## Monomial sums -/

section MonomialSums

open ArithMSum

variable {T : Ty} {n : Node} {r : ℝ}

variable (I) (T) in
/-- An entry has a number at the type of its sum. -/
structure EntryOk (e : Option Node × Option Node) : Prop where
  coeff : ∃ q, ArithMSum.coeff e.2 = some q ∧ (T = .int → q.den = 1)
  const : e.1 = none → ∃ c, e.2 = some c ∧ (T = .int → ∃ z, c = .constInteger z)
  var : ∀ v, e.1 = some v → ∃ y, ArithVal I T v y

variable (I) in
noncomputable def entryNum (e : Option Node × Option Node) : ℝ :=
  ((ArithMSum.coeff e.2).getD 0 : Rat) * e.1.elim 1 (leafNum I)

lemma const_of_arithVal (hc : n.isConst = true) (h : ArithVal I T n r) :
    ∃ q : Rat, n.rational? = some q ∧ r = q ∧ (T = .int → ∃ z, n = .constInteger z ∧ q = z) := by
  cases n with
  | constInteger z =>
    obtain ⟨-, rfl⟩ := (arithVal_constInteger z).unique h
    exact ⟨z, rfl, by simp, fun _ => ⟨z, rfl, rfl⟩⟩
  | constRational q =>
    obtain ⟨rfl, rfl⟩ := (arithVal_constRational q).unique h
    exact ⟨q, rfl, rfl, fun h => by cases h⟩
  | constBoolean b =>
    obtain ⟨v, hv, _, hnum⟩ := h
    rw [eval] at hv
    cases hv
    cases hnum
  | constString s =>
    obtain ⟨v, hv, _, hnum⟩ := h
    rw [eval] at hv
    cases hv
    cases hnum
  | constSequence S es =>
    obtain ⟨v, hv, _, hnum⟩ := h
    rw [eval] at hv
    obtain ⟨l, -, rfl⟩ := map_inv hv
    cases hnum
  | var m => cases hc
  | app k ds => cases hc

lemma monomialEntry_spec (h : ArithVal I T n r) :
    EntryOk I T (monomialEntry n) ∧ entryNum I (monomialEntry n) = r := by
  have hleaf : EntryOk I T (some n, none) ∧ entryNum I (some n, none) = r := by
    refine ⟨⟨⟨1, rfl, fun _ => rfl⟩, (fun h => by cases h), ?_⟩, ?_⟩
    · rintro v ⟨⟩
      exact ⟨r, h⟩
    · simp [entryNum, ArithMSum.coeff, leafNum_eq h]
  unfold monomialEntry
  split
  · rename_i hc
    obtain ⟨q, hq, rfl, hint⟩ := const_of_arithVal hc h
    refine ⟨⟨⟨q, hq, fun hT => ?_⟩, fun _ => ⟨n, rfl, fun hT => ?_⟩, fun v hv => by cases hv⟩, ?_⟩
    · obtain ⟨z, -, rfl⟩ := hint hT
      rfl
    · obtain ⟨z, hz, _⟩ := hint hT
      exact ⟨z, hz⟩
    · simp [entryNum, ArithMSum.coeff, hq]
  split
  swap
  · exact hleaf
  rename_i c v hcv
  unfold getCoeff at hcv
  split at hcv
  swap
  · cases hcv
  split at hcv
  · rename_i hc
    cases hcv
    obtain ⟨x, y, hx, hy, rfl⟩ := arithVal_mult_two_inv h
    obtain ⟨q, hq, rfl, hint⟩ := const_of_arithVal hc hx
    refine ⟨⟨⟨q, hq, fun hT => ?_⟩, (fun h => by cases h), ?_⟩, ?_⟩
    · obtain ⟨z, -, rfl⟩ := hint hT
      rfl
    · rintro w ⟨⟩
      exact ⟨y, hy⟩
    · simp [entryNum, ArithMSum.coeff, hq, leafNum_eq hy]
  · cases hcv

lemma summands_spec (h : ArithVal I T n r) :
    ∃ xs, Forall₂ (ArithVal I T) (summands n) xs ∧ r = xs.sum := by
  unfold summands
  split
  · obtain ⟨_, hxs⟩ := arithVal_add_inv h
    exact hxs
  · exact ⟨[r], .cons h .nil, by simp⟩

variable {ms : MSum}

lemma getMonomialSum_perm (h : getMonomialSum le n = some ms) :
    ms.Perm ((summands n).map monomialEntry) := by
  obtain ⟨ms', hfold, rfl⟩ := map_inv h
  have hrun : ∀ (cs : List Node) (ms ms' : MSum),
      cs.foldlM (fun msum c => getMonomial c msum) ms = some ms' →
        ms' = ms ++ cs.map monomialEntry := by
    intro cs
    induction cs with
    | nil =>
      intro ms ms' h
      cases h
      simp
    | cons c cs ih =>
      intro ms ms' h
      obtain ⟨ms1, h1, h⟩ := bind_inv h
      simp only [getMonomial] at h1
      split at h1
      · cases h1
      cases h1
      rw [ih _ _ h]
      simp
  rw [hrun _ _ _ hfold]
  exact List.mergeSort_perm _ _

lemma getMonomialSum_spec (h : getMonomialSum le n = some ms) (hn : ArithVal I T n r) :
    (∀ e ∈ ms, EntryOk I T e) ∧ (ms.map (entryNum I)).sum = r := by
  have hperm := getMonomialSum_perm h
  obtain ⟨xs, hxs, rfl⟩ := summands_spec hn
  have hok : ∀ e ∈ (summands n).map monomialEntry, EntryOk I T e := by
    intro e he
    obtain ⟨c, hc, rfl⟩ := List.mem_map.1 he
    obtain ⟨y, hy⟩ := exists_of_forall₂ hxs c hc
    exact (monomialEntry_spec hy).1
  have hsum : ((summands n).map monomialEntry).map (entryNum I) = xs := by
    clear h hperm hok hn
    generalize summands n = cs at hxs
    induction hxs with
    | nil => rfl
    | cons hc _ ih => rw [map_cons, map_cons, (monomialEntry_spec hc).2, ih]
  refine ⟨fun e he => hok e (hperm.mem_iff.1 he), ?_⟩
  rw [(hperm.map (entryNum I)).sum_eq, hsum]

lemma clean_of_rational? {c : Node} {q : Rat} (h : c.rational? = some q) : clean c = true := by
  cases c with
  | app k ds => cases h
  | _ => rfl

/-- The variables and the coefficients of a sum are parts of it. -/
def CleanSum (ms : MSum) : Prop :=
  ∀ e ∈ ms, (∀ v, e.1 = some v → clean v = true) ∧ ∀ c, e.2 = some c → clean c = true

lemma clean_getMonomialSum (h : getMonomialSum le n = some ms)
    (hn : clean n = true) : CleanSum ms := by
  intro e he
  obtain ⟨c, hc, rfl⟩ := List.mem_map.1 ((getMonomialSum_perm h).mem_iff.1 he)
  have hcc : clean c = true := by
    unfold summands at hc
    split at hc
    · exact (clean_app_iff (by simp)).1 hn c hc
    · rw [List.mem_singleton.1 hc]
      exact hn
  unfold monomialEntry
  split
  · refine ⟨(fun v hv => by cases hv), ?_⟩
    rintro _ ⟨⟩
    exact hcc
  split
  swap
  · refine ⟨?_, (fun d hd => by cases hd)⟩
    rintro _ ⟨⟩
    exact hcc
  rename_i d w hdw
  unfold getCoeff at hdw
  split at hdw
  swap
  · cases hdw
  split at hdw
  swap
  · cases hdw
  cases hdw
  have hchildren := (clean_app_iff (by simp)).1 hcc
  constructor
  · rintro _ ⟨⟩
    exact hchildren _ (by simp)
  · rintro _ ⟨⟩
    exact hchildren _ (by simp)

lemma arithVal_mkCoeffTerm {c : Option Node} {t : Node} {q : Rat} {y : ℝ}
    (h : mkCoeffTerm Γ c t = some n) (hc : ArithMSum.coeff c = some q)
    (hden : T = .int → q.den = 1) (ht : ArithVal I T t y) : ArithVal I T n (q * y) := by
  cases c with
  | none =>
    cases h
    cases hc
    simpa using ht
  | some c =>
    change c.rational? = some q at hc
    rw [mkCoeffTerm, hc, bind_some, ht.typeOf_eq, bind_some] at h
    split at h
    swap
    · obtain ⟨c', hc', rfl⟩ := map_inv h
      exact arithVal_mult_two (arithVal_mkConstRealOrInt hc') ht
    rename_i hmixed
    have hint : T = .int := by
      have harith := ht.isArithType
      cases T with
      | int => rfl
      | real => exact absurd rfl hmixed.2
      | _ => cases harith
    exact absurd (hden hint) hmixed.1

lemma clean_mkCoeffTerm {c : Option Node} {t : Node} (h : mkCoeffTerm Γ c t = some n)
    (ht : clean t = true) : clean n = true := by
  cases c with
  | none =>
    cases h
    exact ht
  | some c =>
    obtain ⟨q, hq, h⟩ := bind_inv h
    obtain ⟨S, _, h⟩ := bind_inv h
    have hpair : ∀ {c t : Node}, clean c = true → clean t = true →
        clean (.app .mult [c, t]) = true := fun hc ht =>
      (clean_app_iff (by simp)).2 (by simpa using ⟨hc, ht⟩)
    split at h
    · cases h
      exact hpair (clean_of_rational? hq) ((clean_app_iff (by simp)).2 (by simpa using ht))
    · obtain ⟨c', hc', rfl⟩ := map_inv h
      exact hpair (clean_mkConstRealOrInt hc') ht

end MonomialSums

end EthosCpc.Cvc5.Entail
