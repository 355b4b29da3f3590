import EthosCpc.Cvc5.ArithEntail
import EthosCpc.Cvc5.EntailPolySpec
import EthosCpc.Library.PartialRun

/-!
# Approximations are sound

`getArithApproximations` over-approximates or under-approximates a term, when
the test that it calls is right (`CheckOk`), and a sum of approximations is a
lower bound of the sum of monomials that it is made from.
-/

namespace EthosCpc.Cvc5.Entail

open Library
open ArithMSum
open List (mem_append mem_cons_self mem_singleton)

/-! ## What tests and caches promise -/

section Promises

variable (Γ : Nat → Ty)

/-- The test `a >= 0`, or `a > 0` when strict, holds in every interpretation. -/
def Sound (strict : Bool) (a : Node) : Prop :=
  ∀ (I : Interp Γ) (z : Int), eval I a = some (.int z) → if strict then 0 < z else 0 ≤ z

/-- A constant bound is right for numbers and for lengths; an upper bound is the number or the
length itself. -/
def BoundOk (isLower : Bool) (a b : Node) : Prop :=
  ∃ z : Int, b = .constInteger z ∧
    (∀ (I : Interp Γ) (T : Ty) (r : ℝ), ArithVal I T a r → if isLower then (z : ℝ) ≤ r else r = z) ∧
    ∀ (I : Interp Γ) (T : Ty) (l : List (Dom I.U T)), SeqVal I T a l →
      if isLower then z ≤ l.length else (l.length : Int) = z

/-- What the caches remember is right, for a clean term. -/
structure CachesOk (c : Caches) : Prop where
  approx : ∀ isSimple a ap, c.findApprox isSimple a = some (some ap) → clean a = true →
    Sound Γ false a
  bound : ∀ isLower a b, c.getBound isLower a = some (some b) → BoundOk Γ isLower a b

lemma cachesOk_empty : CachesOk Γ Caches.empty := by
  constructor
  · intro isSimple a ap h
    cases isSimple
    · cases h
    · cases h
  intro isLower a b h
  cases isLower
  · cases h
  · cases h

/-- A test is right for clean terms and keeps the caches right. -/
def CheckOk (chk : Check) : Prop :=
  ∀ a strict isSimple, Keeps (CachesOk Γ) (chk a strict isSimple) fun b =>
    b = true → clean a = true → Sound Γ strict a

/-- The term `w` approximates `v` from above or from below. -/
def Approx (isOver : Bool) (v w : Node) : Prop :=
  clean v = true → clean w = true ∧ ∀ (I : Interp Γ) (z : Int), eval I v = some (.int z) →
    ∃ y : Int, eval I w = some (.int y) ∧ if isOver then z ≤ y else y ≤ z

end Promises

variable {Γ : Nat → Ty} {I : Interp Γ} {le : Node → Node → Bool} {a b c : Node} {x y z : Int}

/-! ## Integer values -/

lemma eval_of_arithVal (h : ArithVal I .int a z) : eval I a = some (.int z) := by
  obtain ⟨w, hw, heq⟩ := arithVal_int_iff.1 h
  rwa [Int.cast_inj.1 heq]

lemma eval_sub (ha : eval I a = some (.int x)) (hb : eval I b = some (.int y)) :
    eval I (mkSub a b) = some (.int (x - y)) :=
  eval_app_two_iff.2 ⟨_, _, ha, hb, rfl⟩

lemma eval_add (ha : eval I a = some (.int x)) (hb : eval I b = some (.int y)) :
    eval I (.app .add [a, b]) = some (.int (x + y)) :=
  eval_app_two_iff.2 ⟨_, _, ha, hb, rfl⟩

lemma eval_len {T : Ty} {l : List (Dom I.U T)} (h : SeqVal I T a l) :
    eval I (mkLen a) = some (.int l.length) :=
  eval_strLen_iff.2 ⟨T, l, h, rfl⟩

lemma eval_constInteger (z : Int) : eval I (.constInteger z) = some (.int z) := by rw [eval]

lemma clean_two {k : Kind} (hk : k ≠ .applyUf) (ha : clean a = true) (hb : clean b = true) :
    clean (.app k [a, b]) = true :=
  (clean_app_iff hk).2 (by simpa using ⟨ha, hb⟩)

lemma clean_len (ha : clean a = true) : clean (mkLen a) = true :=
  (clean_app_iff (by simp)).2 (by simpa using ha)

lemma eval_getPolyNorm (hle : MapPoly.IsOrder le) (ha : eval I a = some (.int z))
    (h : getPolyNorm Γ le a = some b) : eval I b = some (.int z) :=
  eval_of_arithVal (getPolyNorm_spec hle (arithVal_of_int ha) h)

/-! ## Tests of the approximations -/

section Tests

variable {chk : Check} {isSimple isOver : Bool}

lemma checkGeq_ok (hchk : CheckOk Γ chk) (a b : Node) :
    Keeps (CachesOk Γ) (checkGeq chk a b false isSimple) fun r => r = true → clean a = true →
      clean b = true → ∀ (I : Interp Γ) (x y : Int), eval I a = some (.int x) →
        eval I b = some (.int y) → y ≤ x := by
  unfold checkGeq
  refine Keeps.ite (fun hab => Keeps.pure ?_) fun _ => ?_
  · intro _ _ _ I x y hx hy
    rw [hab, hy] at hx
    cases hx
    exact le_rfl
  refine (hchk (mkSub a b) false isSimple).mono ?_
  intro r hr htrue ha hb I x y hx hy
  have hdiff := hr htrue (clean_two (by simp) ha hb) I (x - y) (eval_sub hx hy)
  simp only [Bool.false_eq_true, if_false] at hdiff
  omega

lemma both_ok {p q : M Bool} {P Q : Prop} (hp : Keeps (CachesOk Γ) p fun r => r = true → P)
    (hq : Keeps (CachesOk Γ) q fun r => r = true → Q) :
    Keeps (CachesOk Γ) (both p q) fun r => r = true → P ∧ Q := by
  refine hp.bind fun r hr => ?_
  cases r with
  | true => exact hq.mono fun s hs htrue => ⟨hr rfl, hs htrue⟩
  | false => exact Keeps.pure fun h => by cases h

lemma either_ok {p q : M Bool} {P Q : Prop} (hp : Keeps (CachesOk Γ) p fun r => r = true → P)
    (hq : Keeps (CachesOk Γ) q fun r => r = true → Q) :
    Keeps (CachesOk Γ) (either p q) fun r => r = true → P ∨ Q := by
  refine hp.bind fun r hr => ?_
  cases r with
  | true => exact Keeps.pure fun _ => .inl (hr rfl)
  | false => exact hq.mono fun s hs htrue => .inr (hs htrue)

lemma approxSubstr_ok (hchk : CheckOk Γ chk) (x n m : Node) :
    Keeps (CachesOk Γ) (approxSubstr chk isSimple isOver x n m) fun aas => ∀ aa ∈ aas,
      Approx Γ isOver (mkLen (.app .strSubstr [x, n, m])) aa := by
  -- what is known about the parts of a term with a value
  have hparts : ∀ {I : Interp Γ} {z : Int},
      eval I (mkLen (.app .strSubstr [x, n, m])) = some (.int z) →
      ∃ (len i k : Int), eval I (mkLen x) = some (.int len) ∧ eval I n = some (.int i) ∧
        eval I m = some (.int k) ∧ 0 ≤ len ∧ 0 ≤ z ∧ z ≤ len ∧
        (0 ≤ i → z = max 0 (min k (len - i))) ∧ (i < 0 → z = 0) := by
    intro I z hz
    obtain ⟨T, l, hl, heq⟩ := eval_strLen_iff.1 hz
    obtain ⟨w, i, k, hx, hi, hk, rfl⟩ := seqVal_substr_inv hl
    obtain rfl := Val.mk_inj.1 heq
    have hnonneg : 0 ≤ i → ((Words.substr w i k).length : Int) = max 0 (min k (w.length - i)) :=
      Words.length_substr_of_nonneg w
    have hneg : i < 0 → (Words.substr w i k).length = 0 := fun h => by
      rw [Words.substr_of_neg w h, List.length_nil]
    refine ⟨w.length, i, k, eval_len hx, hi, hk, Int.natCast_nonneg _, Int.natCast_nonneg _, ?_,
      hnonneg, fun h => by rw [hneg h]; rfl⟩
    rcases lt_or_ge i 0 with h | h
    · rw [hneg h]
      exact Int.natCast_nonneg _
    · rw [hnonneg h]
      omega
  have hclean : clean (mkLen (.app .strSubstr [x, n, m])) = true →
      clean x = true ∧ clean n = true ∧ clean m = true := by
    intro h
    have hsub := (clean_app_iff (by simp)).1 h _ mem_cons_self
    have hchildren := (clean_app_iff (by simp)).1 hsub
    exact ⟨hchildren x (by simp), hchildren n (by simp), hchildren m (by simp)⟩
  unfold approxSubstr
  cases isOver with
  | true =>
    refine (hchk m false isSimple).bind fun bm hbm => ?_
    refine (checkGeq_ok hchk (mkLen x) n).bind fun bn hbn => Keeps.pure ?_
    intro aa haa hcl
    obtain ⟨hcx, hcn, hcm⟩ := hclean hcl
    rcases mem_append.1 haa with haa | haa
    · split at haa
      · rename_i htrue
        obtain rfl := mem_singleton.1 haa
        refine ⟨hcm, fun I z hz => ?_⟩
        obtain ⟨len, i, k, hx, hi, hk, h1, h2, h3, h4, h5⟩ := hparts hz
        have hk0 : 0 ≤ k := hbm htrue hcm I k hk
        refine ⟨k, hk, ?_⟩
        change z ≤ k
        omega
      · cases haa
    obtain rfl := mem_singleton.1 haa
    refine ⟨?_, fun I z hz => ?_⟩
    · split
      · exact clean_two (by simp) (clean_len hcx) hcn
      · exact clean_len hcx
    obtain ⟨len, i, k, hx, hi, hk, h1, h2, h3, h4, h5⟩ := hparts hz
    split
    swap
    · exact ⟨len, hx, h3⟩
    rename_i htrue
    have hle := hbn htrue (clean_len hcx) hcn I len i hx hi
    refine ⟨len - i, eval_sub hx hi, ?_⟩
    change z ≤ len - i
    omega
  | false =>
    refine (both_ok ((hchk n false isSimple).mono fun r hr h =>
      show clean n = true → Sound Γ false n from hr h) (checkGeq_ok hchk _ _)).bind
        fun bm hbm => ?_
    refine (both_ok ((hchk n false isSimple).mono fun r hr h =>
      show clean n = true → Sound Γ false n from hr h) (checkGeq_ok hchk _ _)).bind
        fun bn hbn => Keeps.pure ?_
    intro aa haa hcl
    obtain ⟨hcx, hcn, hcm⟩ := hclean hcl
    have hcnm := clean_two (k := .add) (by simp) hcn hcm
    rcases mem_append.1 haa with haa | haa
    · split at haa
      · rename_i htrue
        obtain rfl := mem_singleton.1 haa
        obtain ⟨hn, hgeq⟩ := hbm htrue
        refine ⟨hcm, fun I z hz => ?_⟩
        obtain ⟨len, i, k, hx, hi, hk, h1, h2, h3, h4, h5⟩ := hparts hz
        have hi0 : 0 ≤ i := hn hcn I i hi
        have hle := hgeq (clean_len hcx) hcnm I _ _ hx (eval_add hi hk)
        refine ⟨k, hk, ?_⟩
        change k ≤ z
        omega
      · cases haa
    split at haa
    swap
    · cases haa
    rename_i htrue
    obtain rfl := mem_singleton.1 haa
    obtain ⟨hn, hgeq⟩ := hbn htrue
    refine ⟨clean_two (by simp) (clean_len hcx) hcn, fun I z hz => ?_⟩
    obtain ⟨len, i, k, hx, hi, hk, h1, h2, h3, h4, h5⟩ := hparts hz
    have hi0 : 0 ≤ i := hn hcn I i hi
    have hle := hgeq hcnm (clean_len hcx) I _ _ (eval_add hi hk) hx
    refine ⟨len - i, eval_sub hx hi, ?_⟩
    change len - i ≤ z
    omega

open Classical in
lemma approxReplace_ok (hchk : CheckOk Γ chk) (s t u : Node) :
    Keeps (CachesOk Γ) (approxReplace chk isSimple isOver s t u) fun aas => ∀ aa ∈ aas,
      Approx Γ isOver (mkLen (.app .strReplace [s, t, u])) aa := by
  have hparts : ∀ {I : Interp Γ} {z : Int},
      eval I (mkLen (.app .strReplace [s, t, u])) = some (.int z) →
      ∃ (ls lt lu : Int), eval I (mkLen s) = some (.int ls) ∧ eval I (mkLen t) = some (.int lt) ∧
        eval I (mkLen u) = some (.int lu) ∧ 0 ≤ lt ∧ 0 ≤ lu ∧
        (z = ls ∨ lt ≤ ls ∧ z + lt = ls + lu) := by
    intro I z hz
    obtain ⟨T, l, hl, heq⟩ := eval_strLen_iff.1 hz
    obtain ⟨w, p, v, hw, hp, hv, rfl⟩ := seqVal_replace_inv hl
    obtain rfl := Val.mk_inj.1 heq
    refine ⟨w.length, p.length, v.length, eval_len hw, eval_len hp, eval_len hv,
      Int.natCast_nonneg _, Int.natCast_nonneg _, ?_⟩
    by_cases hin : p <:+: w
    · have hlen := Words.length_replace hin v
      have hle := hin.length_le
      right
      omega
    · left
      rw [Words.replace_of_not_infix hin]
  have hclean : clean (mkLen (.app .strReplace [s, t, u])) = true →
      clean s = true ∧ clean t = true ∧ clean u = true := by
    intro h
    have hrep := (clean_app_iff (by simp)).1 h _ mem_cons_self
    have hchildren := (clean_app_iff (by simp)).1 hrep
    exact ⟨hchildren s (by simp), hchildren t (by simp), hchildren u (by simp)⟩
  unfold approxReplace
  cases isOver with
  | true =>
    refine (checkGeq_ok hchk (mkLen t) (mkLen u)).bind fun r hr => Keeps.pure ?_
    intro aa haa hcl
    obtain ⟨hcs, hct, hcu⟩ := hclean hcl
    obtain rfl := mem_singleton.1 haa
    refine ⟨?_, fun I z hz => ?_⟩
    · split
      · exact clean_len hcs
      · exact clean_two (by simp) (clean_len hcs) (clean_len hcu)
    obtain ⟨ls, lt, lu, hs, ht, hu, h1, h2, h3⟩ := hparts hz
    split
    swap
    · refine ⟨ls + lu, eval_add hs hu, ?_⟩
      change z ≤ ls + lu
      omega
    rename_i htrue
    have hle := hr htrue (clean_len hct) (clean_len hcu) I lt lu ht hu
    refine ⟨ls, hs, ?_⟩
    change z ≤ ls
    omega
  | false =>
    refine (either_ok (checkGeq_ok hchk (mkLen u) (mkLen t))
      (checkGeq_ok hchk (mkLen u) (mkLen s))).bind fun r hr => Keeps.pure ?_
    intro aa haa hcl
    obtain ⟨hcs, hct, hcu⟩ := hclean hcl
    obtain rfl := mem_singleton.1 haa
    refine ⟨?_, fun I z hz => ?_⟩
    · split
      · exact clean_len hcs
      · exact clean_two (by simp) (clean_len hcs) (clean_len hct)
    obtain ⟨ls, lt, lu, hs, ht, hu, h1, h2, h3⟩ := hparts hz
    split
    swap
    · refine ⟨ls - lt, eval_sub hs ht, ?_⟩
      change ls - lt ≤ z
      omega
    rename_i htrue
    refine ⟨ls, hs, ?_⟩
    change ls ≤ z
    rcases hr htrue with hgeq | hgeq
    · have hle := hgeq (clean_len hcu) (clean_len hct) I lu lt hu ht
      omega
    · have hle := hgeq (clean_len hcu) (clean_len hcs) I lu ls hu hs
      omega

lemma approxItos_ok (hchk : CheckOk Γ chk) (n : Node) :
    Keeps (CachesOk Γ) (approxItos chk isSimple isOver n) fun aas => ∀ aa ∈ aas,
      Approx Γ isOver (mkLen (.app .strItos [n])) aa := by
  have hparts : ∀ {I : Interp Γ} {z : Int}, eval I (mkLen (.app .strItos [n])) = some (.int z) →
      ∃ i : Int, eval I n = some (.int i) ∧ (0 ≤ i → 1 ≤ z ∧ z ≤ i + 1) ∧ (0 < i → z ≤ i) := by
    intro I z hz
    obtain ⟨T, l, hl, heq⟩ := eval_strLen_iff.1 hz
    obtain ⟨i, hi, hlen⟩ := seqVal_itos_inv hl
    obtain rfl := Val.mk_inj.1 heq
    have hdec : 0 ≤ i → l.length = (decimal i.toNat).length := fun h0 => by
      rw [hlen, strFromInt, if_neg (not_lt.2 h0)]
    have hpos := length_decimal_pos i.toNat
    have hle : 0 < i → (decimal i.toNat).length ≤ i.toNat := fun h0 =>
      length_decimal_le (by omega)
    have hzero : i = 0 → (decimal i.toNat).length = 1 := by
      rintro rfl
      rfl
    refine ⟨i, hi, fun h0 => ?_, fun h0 => ?_⟩
    · rcases eq_or_lt_of_le h0 with h | h
      · have hone := hzero h.symm
        omega
      · have hbound := hle h
        omega
    · have hbound := hle h0
      omega
  have hclean : clean (mkLen (.app .strItos [n])) = true → clean n = true := by
    intro h
    have hitos := (clean_app_iff (by simp)).1 h _ mem_cons_self
    exact (clean_app_iff (by simp)).1 hitos n mem_cons_self
  unfold approxItos
  refine (hchk n false isSimple).bind fun r hr => ?_
  cases r with
  | false =>
    refine Keeps.pure ?_
    simp
  | true =>
    cases isOver with
    | true =>
      refine (hchk n true isSimple).bind fun rs hrs => Keeps.pure ?_
      intro aa haa hcl
      have hcn := hclean hcl
      obtain rfl := mem_singleton.1 haa
      refine ⟨?_, fun I z hz => ?_⟩
      · split
        · exact hcn
        · exact clean_two (by simp) rfl hcn
      obtain ⟨i, hi, h1, h2⟩ := hparts hz
      have hi0 : 0 ≤ i := hr rfl hcn I i hi
      split
      · rename_i htrue
        have hpos : 0 < i := hrs htrue hcn I i hi
        exact ⟨i, hi, h2 hpos⟩
      refine ⟨1 + i, eval_add (eval_constInteger 1) hi, ?_⟩
      change z ≤ 1 + i
      have hbound := h1 hi0
      omega
    | false =>
      refine Keeps.pure ?_
      intro aa haa hcl
      obtain rfl := mem_singleton.1 haa
      refine ⟨rfl, fun I z hz => ?_⟩
      obtain ⟨i, hi, h1, _⟩ := hparts hz
      exact ⟨1, eval_constInteger 1, (h1 (hr rfl (hclean hcl) I i hi)).1⟩

open Classical in
lemma approxIndexof_ok (hchk : CheckOk Γ chk) (s t n : Node) :
    Keeps (CachesOk Γ) (approxIndexof chk isSimple isOver s t) fun aas => ∀ aa ∈ aas,
      Approx Γ isOver (.app .strIndexof [s, t, n]) aa := by
  have hparts : ∀ {I : Interp Γ} {z : Int}, eval I (.app .strIndexof [s, t, n]) = some (.int z) →
      ∃ ls lt : Int, eval I (mkLen s) = some (.int ls) ∧ eval I (mkLen t) = some (.int lt) ∧
        0 ≤ ls ∧ -1 ≤ z ∧ (z = -1 ∨ z ≤ ls) ∧ (lt ≤ ls → z ≤ ls - lt) := by
    intro I z hz
    obtain ⟨T, w, p, i, hw, hp, heq⟩ := arithVal_indexof_inv (arithVal_of_int hz)
    obtain rfl := Int.cast_inj.1 heq
    have hlow := Words.neg_one_le_indexof w p i
    have hhigh := Words.indexof_add_length_le w p i
    refine ⟨w.length, p.length, eval_len hw, eval_len hp, Int.natCast_nonneg _, hlow, ?_, ?_⟩
    · omega
    · omega
  have hclean : clean (.app .strIndexof [s, t, n]) = true → clean s = true ∧ clean t = true := by
    intro h
    have hchildren := (clean_app_iff (by simp)).1 h
    exact ⟨hchildren s (by simp), hchildren t (by simp)⟩
  unfold approxIndexof
  cases isOver with
  | true =>
    refine (checkGeq_ok hchk (mkLen s) (mkLen t)).bind fun r hr => Keeps.pure ?_
    intro aa haa hcl
    obtain ⟨hcs, hct⟩ := hclean hcl
    obtain rfl := mem_singleton.1 haa
    refine ⟨?_, fun I z hz => ?_⟩
    · split
      · exact clean_two (by simp) (clean_len hcs) (clean_len hct)
      · exact clean_len hcs
    obtain ⟨ls, lt, hs, ht, h1, h2, h3, h4⟩ := hparts hz
    split
    · rename_i htrue
      exact ⟨ls - lt, eval_sub hs ht, h4 (hr htrue (clean_len hcs) (clean_len hct) I ls lt hs ht)⟩
    refine ⟨ls, hs, ?_⟩
    change z ≤ ls
    omega
  | false =>
    refine Keeps.pure ?_
    intro aa haa hcl
    obtain rfl := mem_singleton.1 haa
    refine ⟨rfl, fun I z hz => ?_⟩
    obtain ⟨ls, lt, _, _, _, hlow, _, _⟩ := hparts hz
    exact ⟨-1, eval_constInteger (-1), hlow⟩

end Tests

/-! ## Approximations of a term -/

section Terms

variable {chk : Check} {isSimple : Bool}

variable {isOver : Bool}

lemma Approx.mul {c v w : Node} {q : Rat} (hq : c.rational? = some q)
    (h : Approx Γ (if q < 0 then !isOver else isOver) v w) :
    Approx Γ isOver (.app .mult [c, v]) (.app .mult [c, w]) := by
  intro hcl
  have hchildren := (clean_app_iff (by simp)).1 hcl
  obtain ⟨hw, happrox⟩ := h (hchildren v (by simp))
  refine ⟨clean_two (by simp) (hchildren c (by simp)) hw, fun I z hz => ?_⟩
  obtain ⟨x, y, hx, hy, hval⟩ := arithVal_mult_two_inv (arithVal_of_int hz)
  obtain ⟨T, hT⟩ := arithVal_rational (I := I) hq
  obtain ⟨-, rfl⟩ := hx.unique hT
  obtain ⟨m, hm, hmq⟩ := arithVal_int_iff.1 hx
  obtain ⟨n, hn, rfl⟩ := arithVal_int_iff.1 hy
  obtain rfl : z = m * n := by
    rw [hmq] at hval
    exact_mod_cast hval
  have hsign : q < 0 ↔ m < 0 := by
    have hcast : q = (m : ℚ) := by exact_mod_cast hmq
    rw [hcast]
    exact Int.cast_lt_zero
  obtain ⟨n', hn', hbound⟩ := happrox I n hn
  refine ⟨m * n', eval_of_arithVal ?_, ?_⟩
  · have hprod := arithVal_mult_two (arithVal_of_int hm) (arithVal_of_int hn')
    rwa [← Int.cast_mul] at hprod
  by_cases hneg : q < 0
  · have hm0 := hsign.1 hneg
    rw [if_pos hneg] at hbound
    cases isOver with
    | true => exact mul_le_mul_of_nonpos_left hbound hm0.le
    | false => exact mul_le_mul_of_nonpos_left hbound hm0.le
  have hm0 := not_lt.1 fun h => hneg (hsign.2 h)
  rw [if_neg hneg] at hbound
  cases isOver with
  | true => exact mul_le_mul_of_nonneg_left hbound hm0
  | false => exact mul_le_mul_of_nonneg_left hbound hm0

lemma getArithApproximations_ok (hchk : CheckOk Γ chk) (isOver : Bool) (a : Node) :
    Keeps (CachesOk Γ) (getArithApproximations chk isSimple isOver a) fun aas => ∀ aa ∈ aas,
      Approx Γ isOver a aa := by
  induction isOver, a using getArithApproximations.induct with
  | case1 isOver c v hc ih =>
    rw [getArithApproximations, if_pos hc]
    refine (Keeps.lift (P := fun q => c.rational? = some q) fun q hq => hq).bind fun q hq => ?_
    refine (ih q).bind fun aas haas => Keeps.pure ?_
    intro aa haa
    obtain ⟨w, hw, rfl⟩ := List.mem_map.1 haa
    exact (haas w hw).mul hq
  | case2 isOver c v hc =>
    rw [getArithApproximations, if_neg hc]
    exact Keeps.pure (by simp)
  | case3 isOver x n m =>
    rw [getArithApproximations]
    exact approxSubstr_ok hchk x n m
  | case4 isOver x y z =>
    rw [getArithApproximations]
    exact approxReplace_ok hchk x y z
  | case5 isOver x =>
    rw [getArithApproximations]
    exact approxItos_ok hchk x
  | case6 isOver x y n =>
    rw [getArithApproximations]
    exact approxIndexof_ok hchk x y n
  | case7 isOver s =>
    rw [getArithApproximations]
    refine Keeps.pure ?_
    intro aa haa hcl
    cases isOver with
    | true => cases haa
    | false =>
      obtain rfl := mem_singleton.1 haa
      refine ⟨rfl, fun I z hz => ⟨-1, eval_constInteger (-1), ?_⟩⟩
      obtain ⟨w, hw⟩ := arithVal_stoi_inv (arithVal_of_int hz)
      obtain rfl := Int.cast_inj.1 hw
      exact neg_one_le_strToInt w
  | case8 a isOver h1 h2 h3 h4 h5 h6 =>
    rw [getArithApproximations]
    · exact Keeps.pure (by simp)
    · exact h1
    · exact h2
    · exact h3
    · exact h4
    · exact h5
    · exact h6

lemma Approx.refl (isOver : Bool) (v : Node) : Approx Γ isOver v v :=
  fun hcl => ⟨hcl, fun _ z hz => ⟨z, hz, by cases isOver <;> exact le_rfl⟩⟩

lemma Approx.trans {u v w : Node} (h : Approx Γ isOver u v)
    (h' : Approx Γ isOver v w) : Approx Γ isOver u w := by
  intro hcl
  obtain ⟨hv, huv⟩ := h hcl
  obtain ⟨hw, hvw⟩ := h' hv
  refine ⟨hw, fun I z hz => ?_⟩
  obtain ⟨y, hy, hzy⟩ := huv I z hz
  obtain ⟨x, hx, hyx⟩ := hvw I y hy
  refine ⟨x, hx, ?_⟩
  cases isOver with
  | true => exact le_trans hzy hyx
  | false => exact le_trans hyx hzy

lemma approx_getPolyNorm (hle : MapPoly.IsOrder le) {v w : Node}
    (h : getPolyNorm Γ le v = some w) (isOver : Bool) : Approx Γ isOver v w := by
  intro hcl
  refine ⟨clean_getPolyNorm hcl h, fun I z hz => ⟨z, eval_getPolyNorm hle hz h, ?_⟩⟩
  cases isOver with
  | true => exact le_rfl
  | false => exact le_rfl

lemma closeApprox_ok (hle : MapPoly.IsOrder le) (hchk : CheckOk Γ chk) {v : Node}
    (fuel : Nat) (toProcess visited approx : List Node)
    (hprocess : ∀ t ∈ toProcess, Approx Γ isOver v t)
    (happrox : ∀ t ∈ approx, Approx Γ isOver v t) :
    Keeps (CachesOk Γ) (closeApprox Γ le chk isSimple isOver fuel toProcess visited approx)
      fun aas => ∀ aa ∈ aas, Approx Γ isOver v aa := by
  induction fuel generalizing toProcess visited approx with
  | zero =>
    cases toProcess with
    | nil =>
      rw [closeApprox]
      exact Keeps.pure happrox
    | cons t ts =>
      rw [closeApprox]
      exact Keeps.lift fun _ h => by cases h
  | succ fuel ih =>
    cases toProcess with
    | nil =>
      rw [closeApprox]
      exact Keeps.pure happrox
    | cons top rest =>
      obtain ⟨htop, hrest⟩ := List.forall_mem_cons.1 hprocess
      rw [closeApprox]
      refine (Keeps.lift (P := fun w => Approx Γ isOver v w) fun w hw =>
        htop.trans (approx_getPolyNorm hle hw isOver)).bind fun curr hcurr => ?_
      refine Keeps.ite (fun _ => ih rest visited approx hrest happrox) fun _ => ?_
      refine (getArithApproximations_ok hchk isOver curr).bind fun aas haas => ?_
      have haas' : ∀ t ∈ aas, Approx Γ isOver v t := fun t ht => hcurr.trans (haas t ht)
      refine Keeps.ite (fun _ => ih rest _ _ hrest ?_) fun _ =>
        Keeps.ite (fun _ => ih rest _ _ hrest haas') fun _ => ih _ _ _ ?_ happrox
      · intro t ht
        rcases mem_append.1 ht with ht | ht
        · exact happrox t ht
        · rw [mem_singleton.1 ht]
          exact hcurr
      · intro t ht
        rcases mem_append.1 ht with ht | ht
        · exact haas' t (List.mem_reverse.1 ht)
        · exact hrest t ht

end Terms

end EthosCpc.Cvc5.Entail
