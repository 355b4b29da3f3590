import EthosCpc.Library.MapPoly

/-!
# The variables of sparse polynomials

The operations on sparse polynomials make no new variables: a property of the
variables of the arguments holds of those of the result.  And the value of a
polynomial is the sum of the values of the entries of its map.
-/

namespace EthosCpc.Library.MapPoly

variable {α K : Type*} [DecidableEq α] [CommRing K] [DecidableEq K]

/-! ## Properties of the variables -/

section Variables

variable {P : α → Prop} {le : α → α → Bool}

omit [DecidableEq α] [CommRing K] [DecidableEq K] in
/-- All variables of a map have the property. -/
def Over (P : α → Prop) (p : MapPoly α K) : Prop := ∀ e ∈ p.entries, ∀ v ∈ e.1, P v

omit [DecidableEq α] [CommRing K] [DecidableEq K] in
lemma over_empty : Over P (∅ : MapPoly α K) := by
  intro e he
  cases he

omit [CommRing K] [DecidableEq K] in
lemma Over.erase {p : MapPoly α K} (hp : Over P p) (x : List α) : Over P (p.erase x) :=
  fun e he => hp e ((List.kerase_sublist x p.entries).subset he)

variable {x : List α}

omit [CommRing K] [DecidableEq K] in
lemma Over.insert {p : MapPoly α K} (hp : Over P p) (hx : ∀ v ∈ x, P v) (c : K) :
    Over P (p.insert x c) := by
  intro e he
  rw [AList.entries_insert] at he
  rcases List.mem_cons.1 he with rfl | he
  · exact hx
  · exact hp.erase x e he

lemma Over.addMonomial {p : MapPoly α K} (hp : Over P p) (hx : ∀ v ∈ x, P v) (c : K)
    (isNeg : Bool) : Over P (addMonomial p x c isNeg) := by
  unfold MapPoly.addMonomial
  by_cases hc : c = 0
  · rwa [if_pos hc]
  rw [if_neg hc]
  generalize (if isNeg then -c else c) = s
  cases p.lookup x with
  | none => exact hp.insert hx s
  | some d =>
    by_cases hsum : d + s = 0
    · simp only [if_pos hsum]
      exact hp.erase x
    · simp only [if_neg hsum]
      exact hp.insert hx (d + s)

variable {p q : MapPoly α K}

lemma Over.addWith (hp : Over P p) (hq : Over P q) (isNeg : Bool) : Over P (addWith p q isNeg) := by
  have hfold : ∀ (l : List (Σ _ : List α, K)) (r : MapPoly α K), (∀ e ∈ l, ∀ v ∈ e.1, P v) →
      Over P r → Over P (l.foldl (fun r e => MapPoly.addMonomial r e.1 e.2 isNeg) r) := by
    intro l
    induction l with
    | nil => exact fun r _ hr => hr
    | cons e l ih =>
      intro r hl hr
      exact ih _ (fun e' he' => hl e' (.tail _ he')) (hr.addMonomial (hl e (.head _)) e.2 isNeg)
  exact hfold q.entries p hq hp

lemma Over.add (hp : Over P p) (hq : Over P q) : Over P (add p q) :=
  hp.addWith hq false

lemma Over.subtract (hp : Over P p) (hq : Over P q) : Over P (subtract p q) := hp.addWith hq true

omit [DecidableEq K] in
lemma Over.multiplyMonomial {p : MapPoly α K} (hp : Over P p) (hx : ∀ v ∈ x, P v)
    (c : K) : Over P (multiplyMonomial le p x c) := by
  unfold MapPoly.multiplyMonomial
  split
  · intro e he
    obtain ⟨e', he', rfl⟩ := List.mem_map.1 he
    exact hp e' he'
  have hfold : ∀ (l : List (Σ _ : List α, K)) (q : MapPoly α K), (∀ e ∈ l, ∀ v ∈ e.1, P v) →
      Over P q → Over P (l.foldl (fun q e => q.insert (multMonoVar le e.1 x) (e.2 * c)) q) := by
    intro l
    induction l with
    | nil => exact fun q _ hq => hq
    | cons e l ih =>
      intro q hl hq
      refine ih _ (fun e' he' => hl e' (.tail _ he')) (hq.insert ?_ _)
      intro v hv
      rcases List.mem_append.1 (List.mem_mergeSort.1 hv) with hv | hv
      · exact hl e (.head _) v hv
      · exact hx v hv
  exact hfold p.entries ∅ hp over_empty

lemma Over.multiply (hp : Over P p) (hq : Over P q) : Over P (multiply le p q) := by
  unfold MapPoly.multiply
  split
  · have hfold : ∀ (l : List (Σ _ : List α, K)) (r : MapPoly α K), (∀ e ∈ l, ∀ v ∈ e.1, P v) →
        Over P r → Over P (l.foldl (fun r e => MapPoly.multiplyMonomial le r e.1 e.2) r) := by
      intro l
      induction l with
      | nil => exact fun r _ hr => hr
      | cons e l ih =>
        intro r hl hr
        exact ih _ (fun e' he' => hl e' (.tail _ he')) (hr.multiplyMonomial (hl e (.head _)) e.2)
    exact hfold q.entries p hq hp
  have hfold : ∀ (l : List (Σ _ : List α, K)) (r : MapPoly α K), (∀ e ∈ l, ∀ v ∈ e.1, P v) →
      Over P r → Over P (l.foldl (fun r e =>
        MapPoly.add r (MapPoly.multiplyMonomial le p e.1 e.2)) r) := by
    intro l
    induction l with
    | nil => exact fun r _ hr => hr
    | cons e l ih =>
      intro r hl hr
      exact ih _ (fun e' he' => hl e' (.tail _ he'))
        (hr.add (hp.multiplyMonomial (hl e (.head _)) e.2))
  exact hfold q.entries ∅ hq over_empty

end Variables

/-! ## Values -/

section Values

variable {R : Type*} [CommRing R] [Algebra K R]

omit [DecidableEq K] in
lemma aeval_monomial_exponents (ρ : α → R) (x : List α) (c : K) :
    MvPolynomial.aeval ρ (MvPolynomial.monomial (exponents x) c) =
      algebraMap K R c * (x.map ρ).prod := by
  rw [MvPolynomial.aeval_monomial]
  congr 1
  rw [exponents, Finsupp.prod, Multiset.toFinsupp_support]
  rw [← Multiset.prod_coe, ← Multiset.map_coe]
  exact (Finset.prod_multiset_map_count (x : Multiset α) ρ).symm

omit [DecidableEq K] in
lemma aeval_denote (ρ : α → R) (p : MapPoly α K) : MvPolynomial.aeval ρ (denote p) =
      (p.entries.map fun e => algebraMap K R e.2 * (e.1.map ρ).prod).sum := by
  rw [denote, denoteList, map_list_sum, List.map_map]
  congr 1
  exact List.map_congr_left fun e _ => aeval_monomial_exponents ρ e.1 e.2

end Values

end EthosCpc.Library.MapPoly
