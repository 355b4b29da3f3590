import Mathlib

/-!
# Sparse polynomials as merged lists

A polynomial is a list of monomials, a monomial a list of variables with a
coefficient.  Addition merges two lists under a comparison of monomials and
adds the coefficients of equal neighbours, multiplication merges lists of
variables under a comparison of variables.

Nothing here asks the comparisons to be orders.  With an arbitrary
comparison a merge may leave equal monomials apart, so results need not be
canonical, but their value is right all the same, and the value is what the
lemmas are about.

Values are taken in a commutative ring.  The coefficients map into it by a
`CoeffMap`, which has to respect sums and products only on a subring of the
coefficients: the integers among the rationals, say, when the target has
positive characteristic.
-/

namespace EthosCpc.Library

abbrev Mon (α K : Type*) := List α × K

abbrev SparsePoly (α K : Type*) := List (Mon α K)

namespace SparsePoly

variable {α K : Type*} [DecidableEq α] [CommRing K] [DecidableEq K]
variable (cmpMon : List α → List α → Bool) (cmpVar : α → α → Bool)

/-! ## Operations -/

def neg : SparsePoly α K → SparsePoly α K
  | [] => []
  | (a, c) :: p => (a, -c) :: neg p

/-- Merge, adding the coefficients of equal monomials and dropping zeros. -/
def add : SparsePoly α K → SparsePoly α K → SparsePoly α K
  | (a₁, c₁) :: p₁, (a₂, c₂) :: p₂ =>
    if a₁ = a₂ then
      if c₁ + c₂ = 0 then add p₁ p₂ else (a₁, c₁ + c₂) :: add p₁ p₂
    else if cmpMon a₁ a₂ then (a₁, c₁) :: add p₁ ((a₂, c₂) :: p₂)
    else (a₂, c₂) :: add ((a₁, c₁) :: p₁) p₂
  | [], p => p
  | p, [] => p
termination_by p q => p.length + q.length

/-- Merge two lists of variables. -/
def mulVars : List α → List α → List α
  | a :: as, c :: cs =>
    if cmpVar a c then a :: mulVars as (c :: cs) else c :: mulVars (a :: as) cs
  | as, [] => as
  | [], cs => cs
termination_by as cs => as.length + cs.length

def mulMonMon (m₁ m₂ : Mon α K) : Mon α K := (mulVars cmpVar m₁.1 m₂.1, m₁.2 * m₂.2)

def mulMon (m : Mon α K) : SparsePoly α K → SparsePoly α K
  | m₂ :: p₂ => add cmpMon [mulMonMon cmpVar m m₂] (mulMon m p₂)
  | [] => []

/-- Product of two polynomials. -/
def mul : SparsePoly α K → SparsePoly α K → SparsePoly α K
  | m :: p₁, p => add cmpMon (mulMon cmpMon cmpVar m p) (mul p₁ p)
  | [], _ => []

/-! ## Values -/

/-- A map of coefficients into a ring that is a homomorphism on a subring. -/
structure CoeffMap (K R : Type*) [CommRing K] [CommRing R] where
  dom : Subring K
  map : K → R
  map_zero : map 0 = 0
  map_neg : ∀ {c}, c ∈ dom → map (-c) = -map c
  map_add : ∀ {c d}, c ∈ dom → d ∈ dom → map (c + d) = map c + map d
  map_mul : ∀ {c d}, c ∈ dom → d ∈ dom → map (c * d) = map c * map d

variable {R : Type*} [CommRing R] (φ : CoeffMap K R) (ρ : α → R)

def evalMon (m : Mon α K) : R := φ.map m.2 * (m.1.map ρ).prod

/-- The value of a polynomial. -/
def eval : SparsePoly α K → R
  | [] => 0
  | m :: p => evalMon φ ρ m + eval p

/-- All coefficients are in the subring. -/
def InDom (p : SparsePoly α K) : Prop := ∀ m ∈ p, m.2 ∈ φ.dom

omit [DecidableEq α] [DecidableEq K] in
@[simp] lemma eval_nil : eval φ ρ ([] : SparsePoly α K) = 0 := rfl

omit [DecidableEq α] [DecidableEq K] in
@[simp] lemma eval_cons (m : Mon α K) (p : SparsePoly α K) :
    eval φ ρ (m :: p) = evalMon φ ρ m + eval φ ρ p := rfl

variable {φ}

omit [DecidableEq α] [DecidableEq K] in
@[simp] lemma inDom_nil : InDom φ ([] : SparsePoly α K) := by simp [InDom]

variable {p : SparsePoly α K}

omit [DecidableEq α] [DecidableEq K] in
@[simp] lemma inDom_cons {m : Mon α K} :
    InDom φ (m :: p) ↔ m.2 ∈ φ.dom ∧ InDom φ p := by simp [InDom]

omit [DecidableEq α] [DecidableEq K] in
lemma neg_spec (hp : InDom φ p) : InDom φ (neg p) ∧ eval φ ρ (neg p) = -eval φ ρ p := by
  induction p with
  | nil => simp [neg]
  | cons m p ih =>
    obtain ⟨hm, hp⟩ := inDom_cons.1 hp
    obtain ⟨hdom, heval⟩ := ih hp
    refine ⟨inDom_cons.2 ⟨neg_mem hm, hdom⟩, ?_⟩
    rw [neg, eval_cons, eval_cons, heval, evalMon, evalMon, φ.map_neg hm]
    ring

lemma add_spec : ∀ (p q : SparsePoly α K), InDom φ p → InDom φ q →
    InDom φ (add cmpMon p q) ∧ eval φ ρ (add cmpMon p q) = eval φ ρ p + eval φ ρ q := by
  intro p q
  induction p, q using add.induct (K := K) cmpMon with
  | case1 c1 p1 a c2 p2 hc ih =>
    intro hp hq
    obtain ⟨hc1, hp⟩ := inDom_cons.1 hp
    obtain ⟨hc2, hq⟩ := inDom_cons.1 hq
    obtain ⟨hdom, heval⟩ := ih hp hq
    rw [add, if_pos rfl, if_pos hc]
    refine ⟨hdom, ?_⟩
    -- the two coefficients cancel
    have hsum : φ.map c1 + φ.map c2 = 0 := by rw [← φ.map_add hc1 hc2, hc, φ.map_zero]
    rw [heval, eval_cons, eval_cons, evalMon, evalMon]
    linear_combination -((a.map ρ).prod) * hsum
  | case2 c1 p1 a c2 p2 hc ih =>
    intro hp hq
    obtain ⟨hc1, hp⟩ := inDom_cons.1 hp
    obtain ⟨hc2, hq⟩ := inDom_cons.1 hq
    obtain ⟨hdom, heval⟩ := ih hp hq
    rw [add, if_pos rfl, if_neg hc]
    refine ⟨inDom_cons.2 ⟨add_mem hc1 hc2, hdom⟩, ?_⟩
    rw [eval_cons, heval, eval_cons, eval_cons, evalMon, evalMon, evalMon, φ.map_add hc1 hc2]
    ring
  | case3 a1 c1 p1 a2 c2 p2 hne hcmp ih =>
    intro hp hq
    obtain ⟨hc1, hp1⟩ := inDom_cons.1 hp
    obtain ⟨hdom, heval⟩ := ih hp1 hq
    rw [add, if_neg hne, if_pos hcmp]
    refine ⟨inDom_cons.2 ⟨hc1, hdom⟩, ?_⟩
    rw [eval_cons, heval, eval_cons _ _ (a1, c1)]
    ring
  | case4 a1 c1 p1 a2 c2 p2 hne hcmp ih =>
    intro hp hq
    obtain ⟨hc2, hq2⟩ := inDom_cons.1 hq
    obtain ⟨hdom, heval⟩ := ih hp hq2
    rw [add, if_neg hne, if_neg hcmp]
    refine ⟨inDom_cons.2 ⟨hc2, hdom⟩, ?_⟩
    rw [eval_cons, heval, eval_cons _ _ (a2, c2)]
    ring
  | case5 p =>
    intro _ hq
    rw [add]
    exact ⟨hq, by simp⟩
  | case6 p hne =>
    intro hp _
    cases p with
    | nil => rw [add]; simp
    | cons m p =>
      rw [add]
      · exact ⟨hp, by simp⟩
      · simp

omit [DecidableEq α] in
lemma mulVars_spec (as cs : List α) :
    ((mulVars cmpVar as cs).map ρ).prod = (as.map ρ).prod * (cs.map ρ).prod := by
  induction as, cs using mulVars.induct cmpVar with
  | case1 a as c cs h ih =>
    rw [mulVars, if_pos h]
    simp only [List.map_cons, List.prod_cons] at *
    rw [ih]
    ring
  | case2 a as c cs h ih =>
    rw [mulVars, if_neg h]
    simp only [List.map_cons, List.prod_cons] at *
    rw [ih]
    ring
  | case3 as =>
    rw [mulVars]
    simp
  | case4 cs h =>
    cases cs with
    | nil => exact absurd rfl h
    | cons c cs =>
      rw [mulVars]
      · simp
      · simp

lemma mulMon_spec {m : Mon α K} (hm : m.2 ∈ φ.dom) (hp : InDom φ p) :
    InDom φ (mulMon cmpMon cmpVar m p) ∧
      eval φ ρ (mulMon cmpMon cmpVar m p) = evalMon φ ρ m * eval φ ρ p := by
  induction p with
  | nil => simp [mulMon]
  | cons m2 p ih =>
    obtain ⟨hm2, hp⟩ := inDom_cons.1 hp
    obtain ⟨hdom, heval⟩ := ih hp
    have hhead : InDom φ [mulMonMon cmpVar m m2] :=
      inDom_cons.2 ⟨mul_mem hm hm2, inDom_nil⟩
    obtain ⟨hdom', heval'⟩ := add_spec cmpMon ρ _ _ hhead hdom
    rw [mulMon]
    refine ⟨hdom', ?_⟩
    rw [heval', heval, eval_cons, eval_cons, eval_nil]
    simp only [evalMon, mulMonMon, mulVars_spec, φ.map_mul hm hm2]
    ring

lemma mul_spec {p q : SparsePoly α K} (hp : InDom φ p) (hq : InDom φ q) :
    InDom φ (mul cmpMon cmpVar p q) ∧
      eval φ ρ (mul cmpMon cmpVar p q) = eval φ ρ p * eval φ ρ q := by
  induction p with
  | nil => simp [mul]
  | cons m p ih =>
    obtain ⟨hm, hp⟩ := inDom_cons.1 hp
    obtain ⟨hdom, heval⟩ := ih hp
    obtain ⟨hdom1, heval1⟩ := mulMon_spec cmpMon cmpVar ρ hm hq
    obtain ⟨hdom', heval'⟩ := add_spec cmpMon ρ _ _ hdom1 hdom
    rw [mul]
    refine ⟨hdom', ?_⟩
    rw [heval', heval1, heval, eval_cons]
    ring

end SparsePoly

end EthosCpc.Library
