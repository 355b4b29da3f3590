import Mathlib

/-!
# Sparse polynomials as finite maps

A polynomial is a finite map from monomials to coefficients, a monomial a
sorted list of variables.  The operations update the map in place, one entry
at a time, and multiplying by a monomial overwrites entries, which is right
because different sorted monomials have different products.

`denote` is the polynomial of Mathlib that a map stands for.  In a `Normal` map
the monomials are sorted and no coefficient is zero, and then the map is
determined by its polynomial (`isEqual_iff`).
-/

namespace EthosCpc.Library

open MvPolynomial (coeff_add coeff_monomial monomial)
open List (foldl_cons map_cons mem_cons_of_mem)

/-- A finite map from monomials to coefficients. -/
abbrev MapPoly (α K : Type*) := AList fun _ : List α => K

namespace MapPoly

variable {α K : Type*} [DecidableEq α] [CommRing K] [DecidableEq K]

/-! ## Operations -/

/-- Add or subtract a monomial; an entry that becomes zero is erased. -/
def addMonomial (p : MapPoly α K) (x : List α) (c : K) (isNeg : Bool) : MapPoly α K :=
  if c = 0 then p
  else match p.lookup x with
    | none => p.insert x (if isNeg then -c else c)
    | some d =>
      if d + (if isNeg then -c else c) = 0 then p.erase x
      else p.insert x (d + if isNeg then -c else c)

/-- Apply a function to all coefficients. -/
def mapCoeffs (f : K → K) (p : MapPoly α K) : MapPoly α K :=
  ⟨p.entries.map (Sigma.map id fun _ => f), p.nodupKeys.map₂ fun _ => f⟩

def eraseZeroes (p : MapPoly α K) : MapPoly α K :=
  p.entries.foldl (fun q e => if e.2 = 0 then q.erase e.1 else q) p

def mulCoeffs (p : MapPoly α K) (c : K) : MapPoly α K :=
  if c = 0 then ∅ else mapCoeffs (· * c) p

/-- The product of two monomials. -/
def multMonoVar (le : α → α → Bool) (x y : List α) : List α := (x ++ y).mergeSort le

variable (le : α → α → Bool)

/-- Multiply by a monomial, overwriting the map entry by entry. -/
def multiplyMonomial (p : MapPoly α K) (x : List α) (c : K) : MapPoly α K :=
  if x = [] then mapCoeffs (· * c) p
  else p.entries.foldl (fun q e => q.insert (multMonoVar le e.1 x) (e.2 * c)) ∅

def addWith (p q : MapPoly α K) (isNeg : Bool) : MapPoly α K :=
  q.entries.foldl (fun r e => addMonomial r e.1 e.2 isNeg) p

def add (p q : MapPoly α K) : MapPoly α K := addWith p q false

def subtract (p q : MapPoly α K) : MapPoly α K := addWith p q true

def multiply (p q : MapPoly α K) : MapPoly α K :=
  if q.entries.length = 1 then q.entries.foldl (fun r e => multiplyMonomial le r e.1 e.2) p
  else q.entries.foldl (fun r e => add r (multiplyMonomial le p e.1 e.2)) ∅

/-- Do two maps have the same entries? -/
def isEqual (p q : MapPoly α K) : Bool :=
  decide (p.entries.length = q.entries.length) &&
    p.entries.all fun e => decide (q.lookup e.1 = some e.2)

/-! ## The polynomial of a map -/

/-- The exponents of a monomial. -/
noncomputable def exponents (x : List α) : α →₀ ℕ := Multiset.toFinsupp (x : Multiset α)

noncomputable def denoteList (l : List (Σ _ : List α, K)) : MvPolynomial α K :=
  (l.map fun e => monomial (exponents e.1) e.2).sum

noncomputable def denote (p : MapPoly α K) : MvPolynomial α K := denoteList p.entries

omit [DecidableEq K] in
@[simp] lemma denoteList_nil : denoteList ([] : List (Σ _ : List α, K)) = 0 := rfl

omit [DecidableEq K] in
@[simp] lemma denoteList_cons (e : Σ _ : List α, K) (l : List (Σ _ : List α, K)) :
    denoteList (e :: l) = monomial (exponents e.1) e.2 + denoteList l := by
  rw [denoteList, map_cons, List.sum_cons, denoteList]

omit [DecidableEq K] in
lemma denoteList_append (l l' : List (Σ _ : List α, K)) :
    denoteList (l ++ l') = denoteList l + denoteList l' := by
  rw [denoteList, List.map_append, List.sum_append, denoteList, denoteList]

omit [DecidableEq K] in
@[simp] lemma denote_empty : denote (∅ : MapPoly α K) = 0 := rfl

omit [DecidableEq K] in
lemma denote_insert (p : MapPoly α K) (x : List α) (c : K) :
    denote (p.insert x c) = monomial (exponents x) c + denote (p.erase x) := by
  rw [denote, AList.entries_insert, denoteList_cons]
  rfl

variable {x : List α}

omit [CommRing K] [DecidableEq K] in
lemma erase_of_notMem {p : MapPoly α K} (hx : x ∉ p) : p.erase x = p :=
  AList.ext (List.kerase_of_notMem_keys hx)

omit [DecidableEq K] in
lemma denote_of_lookup {p : MapPoly α K} {d : K} (h : p.lookup x = some d) :
    denote p = monomial (exponents x) d + denote (p.erase x) := by
  have hmem : (⟨x, d⟩ : Σ _ : List α, K) ∈ p.entries := AList.mem_lookup_iff.1 h
  obtain ⟨b, l, l', _, hsplit, herase⟩ := List.exists_of_kerase (List.mem_keys_of_mem hmem)
  obtain rfl : d = b := by
    have hb : (⟨x, b⟩ : Σ _ : List α, K) ∈ p.entries := by
      rw [hsplit]
      simp
    exact p.nodupKeys.eq_of_mk_mem hmem hb
  have herase' : (p.erase x).entries = l ++ l' := herase
  rw [denote, denote, herase', hsplit, denoteList_append, denoteList_append, denoteList_cons]
  ring

lemma denote_addMonomial (p : MapPoly α K) (x : List α) (c : K) (isNeg : Bool) :
    denote (addMonomial p x c isNeg) =
      denote p + monomial (exponents x) (if isNeg then -c else c) := by
  unfold addMonomial
  by_cases hc : c = 0
  · simp [hc]
  rw [if_neg hc]
  generalize (if isNeg then -c else c) = s
  cases hx : p.lookup x with
  | none =>
    simp only [denote_insert, erase_of_notMem (AList.lookup_eq_none.1 hx)]
    ring
  | some d =>
    simp only
    rw [denote_of_lookup hx]
    by_cases hzero : d + s = 0
    · have hsum : monomial (exponents x) d + monomial (exponents x) s = 0 := by
        rw [← map_add, hzero, map_zero]
      rw [if_pos hzero]
      linear_combination -hsum
    · rw [if_neg hzero, denote_insert, map_add]
      ring

lemma denote_addWith (p q : MapPoly α K) (isNeg : Bool) :
    denote (addWith p q isNeg) = denote p + if isNeg then -denote q else denote q := by
  have hfold : ∀ (l : List (Σ _ : List α, K)) (r : MapPoly α K),
      denote (l.foldl (fun r e => addMonomial r e.1 e.2 isNeg) r) =
        denote r + if isNeg then -denoteList l else denoteList l := by
    intro l
    induction l with
    | nil => simp
    | cons e l ih =>
      intro r
      rw [foldl_cons, ih, denote_addMonomial, denoteList_cons]
      cases isNeg
      · simp only [Bool.false_eq_true, if_false]
        ring
      · simp only [if_true, map_neg]
        ring
  exact hfold q.entries p

lemma denote_add (p q : MapPoly α K) : denote (add p q) = denote p + denote q := by
  rw [add, denote_addWith]
  simp

lemma denote_subtract (p q : MapPoly α K) : denote (subtract p q) = denote p - denote q := by
  rw [subtract, denote_addWith, sub_eq_add_neg]
  simp

omit [DecidableEq K] in
lemma denote_mapCoeffs_mul (p : MapPoly α K) (c : K) :
    denote (mapCoeffs (· * c) p) = denote p * MvPolynomial.C c := by
  have hmap : ∀ l : List (Σ _ : List α, K),
      denoteList (l.map (Sigma.map id fun _ d => d * c)) = denoteList l * MvPolynomial.C c := by
    intro l
    induction l with
    | nil => simp
    | cons e l ih =>
      rw [map_cons, denoteList_cons, denoteList_cons, ih, add_mul]
      congr 1
      rw [mul_comm, MvPolynomial.C_mul_monomial, mul_comm c]
      rfl
  exact hmap p.entries

/-! ## Sorted monomials -/

/-- The order of variables is total. -/
structure IsOrder : Prop where
  total : ∀ a b, (le a b || le b a) = true
  trans : ∀ a b c, le a b = true → le b c = true → le a c = true
  antisymm : ∀ a b, le a b = true → le b a = true → a = b

open Classical in
noncomputable def someOrder (a b : α) : Bool := decide (a = b ∨ WellOrderingRel a b)

lemma isOrder_someOrder : IsOrder (someOrder (α := α)) := by
  have hiff : ∀ {a b : α}, someOrder a b = true ↔ a = b ∨ WellOrderingRel a b := by
    intro a b
    simp [someOrder]
  constructor
  · intro a b
    rw [Bool.or_eq_true, hiff, hiff]
    rcases trichotomous_of WellOrderingRel a b with h | h | h
    · exact .inl (.inr h)
    · exact .inl (.inl h)
    · exact .inr (.inr h)
  · intro a b c hab hbc
    rcases hiff.1 hab with rfl | hab
    · exact hbc
    rcases hiff.1 hbc with rfl | hbc
    · exact hiff.2 (.inr hab)
    · exact hiff.2 (.inr (trans_of WellOrderingRel hab hbc))
  intro a b hab hba
  rcases hiff.1 hab with rfl | hab
  · rfl
  rcases hiff.1 hba with rfl | hba
  · rfl
  · exact absurd hba (asymm_of WellOrderingRel hab)

variable {le}

/-- A sorted monomial. -/
def Sorted (le : α → α → Bool) (x : List α) : Prop := x.Pairwise fun a b => le a b = true

omit [DecidableEq α] in
lemma sorted_multMonoVar (hle : IsOrder le) (x y : List α) : Sorted le (multMonoVar le x y) :=
  List.pairwise_mergeSort hle.trans hle.total _

lemma eq_of_exponents (hle : IsOrder le) {x y : List α} (hx : Sorted le x) (hy : Sorted le y)
    (h : exponents x = exponents y) : x = y := by
  have hperm : x.Perm y := Multiset.coe_eq_coe.1 (Multiset.toFinsupp.injective h)
  exact List.Perm.eq_of_pairwise (fun a b _ _ => hle.antisymm a b) hx hy hperm

lemma exponents_multMonoVar (x y : List α) :
    exponents (multMonoVar le x y) = exponents x + exponents y := by
  have hcoe : ((multMonoVar le x y : List α) : Multiset α) = (x : Multiset α) + y := by
    rw [Multiset.coe_add]
    exact Multiset.coe_eq_coe.2 (List.mergeSort_perm _ _)
  rw [exponents, hcoe, Multiset.toFinsupp_add]
  rfl

lemma multMonoVar_inj (hle : IsOrder le) {x y z : List α} (hx : Sorted le x) (hy : Sorted le y)
    (h : multMonoVar le x z = multMonoVar le y z) : x = y := by
  refine eq_of_exponents hle hx hy ?_
  have hexp := congrArg exponents h
  rw [exponents_multMonoVar, exponents_multMonoVar] at hexp
  exact add_right_cancel hexp

omit [DecidableEq K] in
/-- Overwriting is adding: the products of different sorted monomials differ. -/
lemma denote_foldl_insert (hle : IsOrder le) (x : List α) (c : K) :
    ∀ (l : List (Σ _ : List α, K)) (q : MapPoly α K), l.NodupKeys →
      (∀ e ∈ l, Sorted le e.1) → (∀ e ∈ l, multMonoVar le e.1 x ∉ q) →
      denote (l.foldl (fun q e => q.insert (multMonoVar le e.1 x) (e.2 * c)) q) =
        denote q + denoteList l * monomial (exponents x) c
  | [], q, _, _, _ => by simp
  | e :: l, q, hnodup, hsorted, hnew => by
      obtain ⟨hkey, hnodup'⟩ := List.nodupKeys_cons.1 hnodup
      have hl : ∀ e' ∈ l, Sorted le e'.1 := fun e' he' => hsorted e' (.tail _ he')
      have hfresh : ∀ e' ∈ l,
          multMonoVar le e'.1 x ∉ q.insert (multMonoVar le e.1 x) (e.2 * c) := by
        intro e' he' hmem
        rcases AList.mem_insert _ |>.mp hmem with heq | hq
        · have hsame : e'.1 = e.1 := multMonoVar_inj hle (hl e' he') (hsorted e (by simp)) heq
          exact hkey (hsame ▸ List.mem_keys_of_mem he')
        · exact hnew e' (.tail _ he') hq
      rw [foldl_cons, denote_foldl_insert hle x c l _ hnodup' hl hfresh, denote_insert,
        erase_of_notMem (hnew e (by simp)), exponents_multMonoVar, denoteList_cons, add_mul,
        MvPolynomial.monomial_mul]
      ring

/-! ## Normal maps -/

/-- The monomials are sorted and no coefficient is zero. -/
def Normal (le : α → α → Bool) (p : MapPoly α K) : Prop :=
  ∀ e ∈ p.entries, Sorted le e.1 ∧ e.2 ≠ 0

omit [DecidableEq α] [DecidableEq K] in
lemma normal_empty : Normal le (∅ : MapPoly α K) := by
  intro e he
  cases he

omit [DecidableEq K] in
lemma denote_multiplyMonomial (hle : IsOrder le) {p : MapPoly α K} (hp : Normal le p)
    (x : List α) (c : K) :
    denote (multiplyMonomial le p x c) = denote p * monomial (exponents x) c := by
  unfold multiplyMonomial
  split
  · rename_i hx
    rw [denote_mapCoeffs_mul, hx]
    rfl
  rw [denote_foldl_insert hle x c _ _ p.nodupKeys (fun e he => (hp e he).1)
    (fun e _ => AList.notMem_empty _)]
  simp [denote]

omit [DecidableEq K] in
lemma Normal.insert {p : MapPoly α K} (hp : Normal le p) (hx : Sorted le x)
    {c : K} (hc : c ≠ 0) : Normal le (p.insert x c) := by
  intro e he
  rw [AList.entries_insert] at he
  rcases List.mem_cons.1 he with rfl | he
  · exact ⟨hx, hc⟩
  · exact hp e ((List.kerase_sublist x p.entries).subset he)

omit [DecidableEq K] in
lemma Normal.erase {p : MapPoly α K} (hp : Normal le p) (x : List α) : Normal le (p.erase x) :=
  fun e he => hp e ((List.kerase_sublist x p.entries).subset he)

lemma Normal.addMonomial {p : MapPoly α K} (hp : Normal le p)
    (hx : Sorted le x) (c : K) (isNeg : Bool) : Normal le (addMonomial p x c isNeg) := by
  unfold MapPoly.addMonomial
  by_cases hc : c = 0
  · rwa [if_pos hc]
  rw [if_neg hc]
  have hs : (if isNeg then -c else c) ≠ 0 := by
    cases isNeg
    · exact hc
    · exact neg_ne_zero.2 hc
  generalize (if isNeg then -c else c) = s at hs
  cases p.lookup x with
  | none => exact hp.insert hx hs
  | some d =>
    simp only
    by_cases hsum : d + s = 0
    · rw [if_pos hsum]
      exact hp.erase x
    · rw [if_neg hsum]
      exact hp.insert hx hsum

variable {p q : MapPoly α K}

lemma Normal.addWith (hp : Normal le p) (hq : Normal le q) (isNeg : Bool) :
    Normal le (addWith p q isNeg) := by
  have hfold : ∀ (l : List (Σ _ : List α, K)) (r : MapPoly α K), (∀ e ∈ l, Sorted le e.1) →
      Normal le r → Normal le (l.foldl (fun r e => MapPoly.addMonomial r e.1 e.2 isNeg) r) := by
    intro l
    induction l with
    | nil => exact fun r _ hr => hr
    | cons e l ih =>
      intro r hl hr
      exact ih _ (fun e' he' => hl e' (.tail _ he')) (hr.addMonomial (hl e (by simp)) e.2 isNeg)
  exact hfold q.entries p (fun e he => (hq e he).1) hp

lemma Normal.add (hp : Normal le p) (hq : Normal le q) : Normal le (add p q) := hp.addWith hq false

lemma Normal.subtract (hp : Normal le p) (hq : Normal le q) :
    Normal le (subtract p q) := hp.addWith hq true

section Domain

variable [NoZeroDivisors K]

omit [DecidableEq α] [DecidableEq K] in
lemma Normal.mapCoeffs_mul {p : MapPoly α K} (hp : Normal le p) {c : K} (hc : c ≠ 0) :
    Normal le (mapCoeffs (· * c) p) := by
  intro e he
  obtain ⟨e', he', rfl⟩ := List.mem_map.1 he
  exact ⟨(hp e' he').1, mul_ne_zero (hp e' he').2 hc⟩

omit [DecidableEq K] in
lemma Normal.multiplyMonomial (hle : IsOrder le) {p : MapPoly α K} (hp : Normal le p)
    (x : List α) {c : K} (hc : c ≠ 0) : Normal le (multiplyMonomial le p x c) := by
  unfold MapPoly.multiplyMonomial
  split
  · exact hp.mapCoeffs_mul hc
  have hfold : ∀ (l : List (Σ _ : List α, K)) (q : MapPoly α K), (∀ e ∈ l, e.2 ≠ 0) → Normal le q →
      Normal le (l.foldl (fun q e => q.insert (multMonoVar le e.1 x) (e.2 * c)) q) := by
    intro l
    induction l with
    | nil => exact fun q _ hq => hq
    | cons e l ih =>
      intro q hl hq
      exact ih _ (fun e' he' => hl e' (.tail _ he'))
        (hq.insert (sorted_multMonoVar hle e.1 x) (mul_ne_zero (hl e (by simp)) hc))
  exact hfold p.entries ∅ (fun e he => (hp e he).2) normal_empty

lemma multiply_spec (hle : IsOrder le) {p q : MapPoly α K} (hp : Normal le p) (hq : Normal le q) :
    Normal le (multiply le p q) ∧ denote (multiply le p q) = denote p * denote q := by
  unfold multiply
  split
  · rename_i hone
    obtain ⟨e, he⟩ := List.length_eq_one_iff.1 hone
    have hc : e.2 ≠ 0 := (hq e (by simp [he])).2
    rw [he, foldl_cons, List.foldl_nil]
    refine ⟨hp.multiplyMonomial hle e.1 hc, ?_⟩
    rw [denote_multiplyMonomial hle hp, denote, denote, he]
    simp
  have hfold : ∀ (l : List (Σ _ : List α, K)) (r : MapPoly α K), (∀ e ∈ l, e.2 ≠ 0) → Normal le r →
      Normal le (l.foldl (fun r e => MapPoly.add r (MapPoly.multiplyMonomial le p e.1 e.2)) r) ∧
        denote (l.foldl (fun r e => MapPoly.add r (MapPoly.multiplyMonomial le p e.1 e.2)) r) =
          denote r + denote p * denoteList l := by
    intro l
    induction l with
    | nil => exact fun r _ hr => ⟨hr, by simp⟩
    | cons e l ih =>
      intro r hl hr
      have hstep := ih (MapPoly.add r (MapPoly.multiplyMonomial le p e.1 e.2))
        (fun e' he' => hl e' (.tail _ he'))
        (hr.add (hp.multiplyMonomial hle e.1 (hl e (by simp))))
      refine ⟨hstep.1, ?_⟩
      rw [foldl_cons, hstep.2, denote_add, denote_multiplyMonomial hle hp, denoteList_cons]
      ring
  have hrun := hfold q.entries ∅ (fun e he => (hq e he).2) normal_empty
  refine ⟨hrun.1, ?_⟩
  rw [hrun.2]
  simp [denote]

end Domain

lemma Normal.multiply [NoZeroDivisors K] (hle : IsOrder le)
    (hp : Normal le p) (hq : Normal le q) : Normal le (multiply le p q) :=
  (multiply_spec hle hp hq).1

lemma denote_multiply [NoZeroDivisors K] (hle : IsOrder le) (hp : Normal le p) (hq : Normal le q) :
    denote (multiply le p q) = denote p * denote q :=
  (multiply_spec hle hp hq).2

/-! ## Folding -/

/-- A function folds polynomials by subtracting those at some indices, multiplying those at
others and adding the rest. -/
structure Combines (le : α → α → Bool) (sub mul : Nat → Bool)
    (f : Nat → MapPoly α K → List (MapPoly α K) → MapPoly α K) : Prop where
  nil : ∀ i r, f i r [] = r
  cons : ∀ i r p ps, f i r (p :: ps) =
    f (i + 1) (if sub i then subtract r p else if mul i then multiply le r p else add r p) ps

section Combines

variable {sub mul : Nat → Bool} {f : Nat → MapPoly α K → List (MapPoly α K) → MapPoly α K}

variable {ps : List (MapPoly α K)}

lemma Combines.normal [NoZeroDivisors K] (hf : Combines le sub mul f) (hle : IsOrder le)
    (hps : ∀ p ∈ ps, Normal le p) (i : Nat) {r : MapPoly α K}
    (hr : Normal le r) : Normal le (f i r ps) := by
  induction ps generalizing i r with
  | nil => exact (hf.nil i r).symm ▸ hr
  | cons p ps ih =>
    obtain ⟨hp, hps'⟩ := List.forall_mem_cons.1 hps
    rw [hf.cons]
    refine ih hps' (i + 1) ?_
    split
    · exact hr.subtract hp
    split
    · exact hr.multiply hle hp
    · exact hr.add hp

lemma Combines.denote_sum (hf : Combines le sub mul f) (hsub : ∀ i, sub i = false)
    (hmul : ∀ i, mul i = false) (ps : List (MapPoly α K)) (i : Nat) (r : MapPoly α K) :
    denote (f i r ps) = denote r + (ps.map denote).sum := by
  induction ps generalizing i r with
  | nil => simp [hf.nil]
  | cons p ps ih =>
    rw [hf.cons, ih, hsub, hmul, map_cons, List.sum_cons]
    simp only [Bool.false_eq_true, if_false, denote_add]
    ring

lemma Combines.denote_mul [NoZeroDivisors K] (hf : Combines le sub mul f) (hle : IsOrder le)
    (hsub : ∀ i, sub i = false) (hmul : ∀ i, mul (i + 1) = true)
    (hps : ∀ p ∈ ps, Normal le p) (i : Nat) {r : MapPoly α K} (hr : Normal le r) :
    denote (f (i + 1) r ps) = denote r * (ps.map denote).prod := by
  induction ps generalizing i r with
  | nil => simp [hf.nil]
  | cons p ps ih =>
    obtain ⟨hp, hps'⟩ := List.forall_mem_cons.1 hps
    rw [hf.cons, hsub, hmul, map_cons, List.prod_cons]
    simp only [Bool.false_eq_true, if_false, if_true]
    rw [ih hps' (i + 1) (hr.multiply hle hp), denote_multiply hle hr hp]
    ring

lemma Combines.denote_product [NoZeroDivisors K] (hf : Combines le sub mul f) (hle : IsOrder le)
    (hsub : ∀ i, sub i = false) (hmul : ∀ i, mul (i + 1) = true) (hfirst : mul 0 = false)
    (hps : ∀ p ∈ ps, Normal le p) (hne : ps ≠ []) :
    denote (f 0 ∅ ps) = (ps.map denote).prod := by
  cases ps with
  | nil => exact absurd rfl hne
  | cons p ps =>
    obtain ⟨hp, hps'⟩ := List.forall_mem_cons.1 hps
    rw [hf.cons, hsub, hfirst]
    simp only [Bool.false_eq_true, if_false]
    rw [hf.denote_mul hle hsub hmul hps' 0 (normal_empty.add hp), denote_add, map_cons,
      List.prod_cons, denote_empty, zero_add]

end Combines

/-! ## Equality -/

omit [DecidableEq K] in
lemma coeff_denote (hle : IsOrder le) {p : MapPoly α K} (hp : Normal le p) (hx : Sorted le x) :
    (denote p).coeff (exponents x) = (p.lookup x).getD 0 := by
  have hzero : ∀ l : List (Σ _ : List α, K), (∀ e ∈ l, Sorted le e.1) → x ∉ l.keys →
      (denoteList l).coeff (exponents x) = 0 := by
    intro l
    induction l with
    | nil => intros; simp
    | cons e l ih =>
      intro hl hkey
      rw [List.keys_cons, List.mem_cons, not_or] at hkey
      have hne : exponents e.1 ≠ exponents x := fun heq =>
        hkey.1 (eq_of_exponents hle hx (hl e (by simp)) heq.symm)
      rw [denoteList_cons, coeff_add, coeff_monomial, if_neg hne,
        zero_add, ih (fun e' he' => hl e' (.tail _ he')) hkey.2]
  cases hlook : p.lookup x with
  | none => exact hzero p.entries (fun e he => (hp e he).1) (AList.lookup_eq_none.1 hlook)
  | some d =>
    have hrest : (denote (p.erase x)).coeff (exponents x) = 0 :=
      hzero _ (fun e he => (hp.erase x e he).1) (List.notMem_keys_kerase x p.nodupKeys)
    rw [denote_of_lookup hlook, coeff_add, coeff_monomial, if_pos rfl, hrest, add_zero]
    rfl

omit [DecidableEq K] in
lemma lookup_eq_of_denote (hle : IsOrder le) (hp : Normal le p)
    (hq : Normal le q) (h : denote p = denote q) (x : List α) : p.lookup x = q.lookup x := by
  have hnz : ∀ r : MapPoly α K, Normal le r → ∀ y d, r.lookup y = some d →
      Sorted le y ∧ d ≠ 0 := fun r hr y d hy => hr ⟨y, d⟩ (AList.mem_lookup_iff.1 hy)
  by_cases hx : Sorted le x
  · have hcoeff := congrArg (MvPolynomial.coeff (exponents x)) h
    rw [coeff_denote hle hp hx, coeff_denote hle hq hx] at hcoeff
    cases hpx : p.lookup x with
    | none =>
      cases hqx : q.lookup x with
      | none => rfl
      | some d =>
        rw [hpx, hqx] at hcoeff
        exact absurd hcoeff.symm (hnz q hq x d hqx).2
    | some c =>
      cases hqx : q.lookup x with
      | none =>
        rw [hpx, hqx] at hcoeff
        exact absurd hcoeff (hnz p hp x c hpx).2
      | some d =>
        rw [hpx, hqx] at hcoeff
        exact congrArg some hcoeff
  · have hnone : ∀ r : MapPoly α K, Normal le r → r.lookup x = none := by
      intro r hr
      cases hrx : r.lookup x with
      | none => rfl
      | some d => exact absurd (hnz r hr x d hrx).1 hx
    rw [hnone p hp, hnone q hq]

omit [CommRing K] in
lemma isEqual_iff_perm (p q : MapPoly α K) : isEqual p q = true ↔ p.entries.Perm q.entries := by
  unfold isEqual
  rw [Bool.and_eq_true, decide_eq_true_eq, List.all_eq_true]
  constructor
  · rintro ⟨hlen, hall⟩
    have hsub : p.entries ⊆ q.entries := fun e he =>
      AList.mem_lookup_iff.1 (of_decide_eq_true (hall e he))
    have hsubperm := List.subperm_of_subset p.nodupKeys.nodup hsub
    exact hsubperm.perm_of_length_le hlen.ge
  · intro hperm
    refine ⟨hperm.length_eq, fun e he => decide_eq_true ?_⟩
    exact AList.mem_lookup_iff.2 (hperm.subset he)

lemma isEqual_iff (hle : IsOrder le) (hp : Normal le p)
    (hq : Normal le q) : isEqual p q = true ↔ denote p = denote q := by
  rw [isEqual_iff_perm]
  constructor
  · intro hperm
    exact (hperm.map _).sum_eq
  intro h
  refine List.lookup_ext p.nodupKeys q.nodupKeys fun x c => ?_
  have hx := lookup_eq_of_denote hle hp hq h x
  rw [AList.lookup, AList.lookup] at hx
  rw [hx]

end MapPoly

end EthosCpc.Library
