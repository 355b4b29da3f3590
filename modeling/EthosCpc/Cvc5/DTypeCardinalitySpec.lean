import EthosCpc.Cvc5.DTypeCardinality
import EthosCpc.Cvc5.DTypeSpec

/-!
# When the cardinality of a datatype is right

The values of an instance are counted constructor by constructor.  The code
agrees with this as long as no datatype is met below itself and no parameter of a
datatype other than the given one is met; else it answers that there are
infinitely many values.
-/

namespace EthosCpc.Cvc5.Datatypes

open List (mem_cons_of_mem mem_cons_self)

variable {V : Nat → Type} {F : Family} {cardinality : Nat → Cardinality} {d d₀ : Nat}
  {args args₀ : List Ty}

/-! ## Arithmetic -/

namespace Cardinality

/-- A cardinality is right for a number of values. -/
def Is : Cardinality → ℕ∞ → Prop
  | finite n, e => n < 2 ^ 64 ∧ e = n
  | largeFinite, e => ∃ n : Nat, 2 ^ 64 ≤ n ∧ e = n
  | infinite _, e => e = ⊤

def IsInfinite : Cardinality → Prop
  | infinite _ => True
  | _ => False

variable {a b : Cardinality} {x y : ℕ∞}

lemma is_ofNat (n : Nat) : (ofNat n).Is n := by
  unfold ofNat
  split
  · rename_i h
    exact ⟨h, rfl⟩
  · rename_i h
    exact ⟨n, Nat.le_of_not_lt h, rfl⟩

lemma Is.add (ha : a.Is x) (hb : b.Is y) : (a.add b).Is (x + y) := by
  cases a with
  | finite n =>
    obtain ⟨hn, rfl⟩ := ha
    cases b with
    | finite m =>
      obtain ⟨hm, rfl⟩ := hb
      rw [← Nat.cast_add]
      exact is_ofNat (n + m)
    | largeFinite =>
      obtain ⟨m, hm, rfl⟩ := hb
      exact ⟨n + m, Nat.le_add_left_of_le hm, by rw [Nat.cast_add]⟩
    | infinite k =>
      rw [show y = ⊤ from hb]
      exact add_top _
  | largeFinite =>
    obtain ⟨n, hn, rfl⟩ := ha
    cases b with
    | finite m =>
      obtain ⟨hm, rfl⟩ := hb
      exact ⟨n + m, Nat.le_add_right_of_le hn, by rw [Nat.cast_add]⟩
    | largeFinite =>
      obtain ⟨m, hm, rfl⟩ := hb
      exact ⟨n + m, Nat.le_add_right_of_le hn, by rw [Nat.cast_add]⟩
    | infinite k =>
      rw [show y = ⊤ from hb]
      exact add_top _
  | infinite k =>
    rw [show x = ⊤ from ha]
    cases b with
    | finite m => exact top_add _
    | largeFinite => exact top_add _
    | infinite j => exact top_add _

lemma Is.ne_zero (ha : a.Is x) (hx : x ≠ 0) : a ≠ finite 0 := by
  rintro rfl
  exact hx ha.2

lemma Is.encard_ne_zero (ha : a.Is x) (h : a ≠ finite 0) : x ≠ 0 := by
  rintro rfl
  cases a with
  | finite n =>
    obtain ⟨_, hn⟩ := ha
    exact h (by rw [Nat.cast_eq_zero.1 hn.symm])
  | largeFinite =>
    obtain ⟨n, hn, heq⟩ := ha
    rw [Nat.cast_eq_zero.1 heq.symm] at hn
    exact absurd hn (by decide)
  | infinite k => exact ENat.top_ne_zero (show (0 : ℕ∞) = ⊤ from ha).symm

lemma Is.mul (ha : a.Is x) (hb : b.Is y) (hx : x ≠ 0) (hy : y ≠ 0) : (a.mul b).Is (x * y) := by
  cases a with
  | finite n =>
    obtain ⟨hn, rfl⟩ := ha
    have hn0 : n ≠ 0 := fun h => hx (by rw [h, Nat.cast_zero])
    cases b with
    | finite m =>
      obtain ⟨hm, rfl⟩ := hb
      rw [← Nat.cast_mul]
      exact is_ofNat (n * m)
    | largeFinite =>
      obtain ⟨m, hm, rfl⟩ := hb
      refine ⟨n * m, Nat.le_trans hm (Nat.le_mul_of_pos_left m (Nat.pos_of_ne_zero hn0)), ?_⟩
      rw [Nat.cast_mul]
    | infinite k =>
      rw [show y = ⊤ from hb]
      change (if n = 0 then finite 0 else infinite k).Is _
      rw [if_neg hn0]
      exact ENat.mul_top hx
  | largeFinite =>
    obtain ⟨n, hn, rfl⟩ := ha
    cases b with
    | finite m =>
      obtain ⟨hm, rfl⟩ := hb
      have hm0 : m ≠ 0 := fun h => hy (by rw [h, Nat.cast_zero])
      refine ⟨n * m, Nat.le_trans hn (Nat.le_mul_of_pos_right n (Nat.pos_of_ne_zero hm0)), ?_⟩
      rw [Nat.cast_mul]
    | largeFinite =>
      obtain ⟨m, hm, rfl⟩ := hb
      have hm0 : 0 < m := Nat.lt_of_lt_of_le (by decide) hm
      exact ⟨n * m, Nat.le_trans hn (Nat.le_mul_of_pos_right n hm0), by rw [Nat.cast_mul]⟩
    | infinite k =>
      rw [show y = ⊤ from hb]
      exact ENat.mul_top hx
  | infinite k =>
    rw [show x = ⊤ from ha]
    cases b with
    | finite m =>
      obtain ⟨hm, rfl⟩ := hb
      have hm0 : m ≠ 0 := fun h => hy (by rw [h, Nat.cast_zero])
      change (if m = 0 then finite 0 else infinite k).Is _
      rw [if_neg hm0]
      exact ENat.top_mul hy
    | largeFinite => exact ENat.top_mul hy
    | infinite j => exact ENat.top_mul hy

/-- A cardinality that is right determines the number of values, as far as it can be told. -/
lemma Is.finite_iff (ha : a.Is x) {n : Nat} (hn : n < 2 ^ 64) : a = finite n ↔ x = n := by
  constructor
  · rintro rfl
    exact ha.2
  rintro rfl
  cases a with
  | finite m => rw [Nat.cast_inj.1 ha.2]
  | largeFinite =>
    obtain ⟨m, hm, heq⟩ := ha
    rw [Nat.cast_inj.1 heq] at hn
    exact absurd hn (Nat.not_lt.2 hm)
  | infinite k => exact absurd ha (ENat.natCast_ne_top n)

lemma Is.infinite_iff (ha : a.Is x) : a.IsInfinite ↔ x = ⊤ := by
  cases a with
  | finite m => exact iff_of_false id fun h => ENat.natCast_ne_top m (ha.2.symm.trans h)
  | largeFinite =>
    obtain ⟨m, _, heq⟩ := ha
    exact iff_of_false id fun h => ENat.natCast_ne_top m (heq.symm.trans h)
  | infinite k => exact iff_of_true trivial ha

lemma add_nonzero_left (ha : a ≠ finite 0) : a.add b ≠ finite 0 := by
  cases a <;> cases b <;> simp_all [add, ofNat]
  split <;> simp_all

lemma add_nonzero_right (hb : b ≠ finite 0) : a.add b ≠ finite 0 := by
  cases a <;> cases b <;> simp_all [add, ofNat]
  split <;> simp_all

lemma mul_nonzero (ha : a ≠ finite 0) (hb : b ≠ finite 0) : a.mul b ≠ finite 0 := by
  cases a <;> cases b <;> simp_all [mul, ofNat]
  split <;> simp_all

lemma IsInfinite.ne_zero (ha : a.IsInfinite) : a ≠ finite 0 := by
  rintro rfl
  exact ha

lemma add_infinite_left (ha : a.IsInfinite) : (a.add b).IsInfinite := by
  cases a <;> cases b <;> simp_all [add, IsInfinite]

lemma add_infinite_right (hb : b.IsInfinite) : (a.add b).IsInfinite := by
  cases a <;> cases b <;> simp_all [add, IsInfinite]

lemma mul_infinite_left (ha : a.IsInfinite) (hb : b ≠ finite 0) : (a.mul b).IsInfinite := by
  cases a <;> cases b <;> simp_all [mul, IsInfinite]

lemma mul_infinite_right (ha : a ≠ finite 0) (hb : b.IsInfinite) : (a.mul b).IsInfinite := by
  cases a <;> cases b <;> simp_all [mul, IsInfinite]

end Cardinality

open Cardinality

/-! ## Loops -/

/-- What a loop keeps and what one of its elements brings about. -/
lemma accumulate_spec {α : Type} {op : Cardinality → Cardinality → Cardinality}
    {f : α → Option Cardinality} {I P Q R : Cardinality → Prop}
    (hI : ∀ c x, I c → Q x → I (op c x)) (hP : ∀ c x, I c → P c → Q x → P (op c x))
    (hR : ∀ c x, I c → Q x → R x → P (op c x)) {c r : Cardinality} {as : List α}
    (hres : accumulate op f c as = some r) (hc : I c) (hQ : ∀ a ∈ as, ∀ x, f a = some x → Q x)
    (hsome : P c ∨ ∃ a ∈ as, ∀ x, f a = some x → R x) : I r ∧ P r := by
  induction as generalizing c with
  | nil =>
    cases hres
    refine ⟨hc, hsome.resolve_right ?_⟩
    rintro ⟨a, ha, -⟩
    cases ha
  | cons a as ih =>
    obtain ⟨x, hx, hres⟩ := bind_inv hres
    have hQx := hQ a (.head _) x hx
    refine ih hres (hI c x hc hQx) (fun a' ha' => hQ a' (mem_cons_of_mem a ha')) ?_
    rcases hsome with h | ⟨a', ha', hR'⟩
    · exact .inl (hP c x hc h hQx)
    cases ha' with
    | head => exact .inl (hR c x hc hQx (hR' x hx))
    | tail _ ha' => exact .inr ⟨a', ha', hR'⟩

section Loops

variable {α : Type} {f : α → Option Cardinality} {c r : Cardinality} {as : List α}

lemma product_ne_zero (hres : accumulate .mul f c as = some r) (hc : c ≠ .finite 0)
    (has : ∀ a ∈ as, ∀ x, f a = some x → x ≠ .finite 0) : r ≠ .finite 0 :=
  (accumulate_spec (I := fun c => c ≠ .finite 0) (P := fun _ => True) (R := fun _ => True)
    (fun _ _ => mul_nonzero) (fun _ _ _ _ _ => trivial) (fun _ _ _ _ _ => trivial) hres hc has
    (.inl trivial)).1

lemma product_infinite (hres : accumulate .mul f c as = some r) (hc : c ≠ .finite 0)
    (has : ∀ a ∈ as, ∀ x, f a = some x → x ≠ .finite 0)
    (hsome : ∃ a ∈ as, ∀ x, f a = some x → x.IsInfinite) : r.IsInfinite :=
  (accumulate_spec (I := fun c => c ≠ .finite 0) (P := IsInfinite) (R := IsInfinite)
    (fun _ _ => mul_nonzero) (fun _ _ _ h hx => mul_infinite_left h hx)
    (fun _ _ h _ hx => mul_infinite_right h hx) hres hc has (.inr hsome)).2

lemma sum_ne_zero (hres : accumulate .add f c as = some r)
    (hsome : ∃ a ∈ as, ∀ x, f a = some x → x ≠ .finite 0) : r ≠ .finite 0 :=
  (accumulate_spec (I := fun _ => True) (P := fun c => c ≠ .finite 0) (Q := fun _ => True)
    (R := fun c => c ≠ .finite 0) (fun _ _ _ _ => trivial) (fun _ _ _ h _ => add_nonzero_left h)
    (fun _ _ _ _ h => add_nonzero_right h) hres trivial (fun _ _ _ _ => trivial)
    (.inr hsome)).2

lemma sum_infinite (hres : accumulate .add f c as = some r)
    (hsome : ∃ a ∈ as, ∀ x, f a = some x → x.IsInfinite) : r.IsInfinite :=
  (accumulate_spec (I := fun _ => True) (P := IsInfinite) (Q := fun _ => True) (R := IsInfinite)
    (fun _ _ _ _ => trivial) (fun _ _ _ h _ => add_infinite_left h)
    (fun _ _ _ _ h => add_infinite_right h) hres trivial (fun _ _ _ _ => trivial)
    (.inr hsome)).2

/-- A loop ends if each of its elements has a result. -/
lemma exists_accumulate {op : Cardinality → Cardinality → Cardinality}
    (h : ∀ a ∈ as, ∃ x, f a = some x) : ∃ r, accumulate op f c as = some r := by
  induction as generalizing c with
  | nil => exact ⟨c, rfl⟩
  | cons a as ih =>
    obtain ⟨x, hx⟩ := h a (.head _)
    obtain ⟨r, hr⟩ := ih (c := op c x) fun a' ha' => h a' (mem_cons_of_mem a ha')
    refine ⟨r, ?_⟩
    rw [accumulate, hx]
    exact hr

end Loops

/-! ## Counting -/

/-- The lists of values of given types. -/
def tuples (S : Ty → Set (Value V)) (tys : List Ty) : Set (List (Value V)) :=
  {vs | List.Forall₂ (fun v ty => v ∈ S ty) vs tys}

lemma encard_tuples_nil (S : Ty → Set (Value V)) : (tuples S []).encard = 1 := by
  have hnil : tuples S [] = {[]} := by
    ext vs
    exact List.forall₂_nil_right_iff
  rw [hnil, Set.encard_singleton]

lemma encard_tuples_cons (S : Ty → Set (Value V)) (ty : Ty) (tys : List Ty) :
    (tuples S (ty :: tys)).encard = (S ty).encard * (tuples S tys).encard := by
  have hcons : tuples S (ty :: tys) = (fun p => p.1 :: p.2) '' (S ty ×ˢ tuples S tys) := by
    ext vs
    constructor
    · intro h
      cases h with
      | cons hv hvs => exact ⟨(_, _), ⟨hv, hvs⟩, rfl⟩
    · rintro ⟨⟨v, vs⟩, ⟨hv, hvs⟩, rfl⟩
      exact .cons hv hvs
  have hinj : Function.Injective fun p : Value V × List (Value V) => p.1 :: p.2 := by
    rintro ⟨v, vs⟩ ⟨v', vs'⟩ heq
    cases heq
    rfl
  rw [hcons, hinj.encard_image, Set.encard_prod]

variable {S : Ty → Set (Value V)}

lemma Cardinality.Is.product {f : Ty → Option Cardinality} {tys : List Ty}
    (hf : ∀ ty ∈ tys, ∀ x, f ty = some x → x.Is (S ty).encard)
    (hne : ∀ ty ∈ tys, ∀ x, f ty = some x → x ≠ .finite 0) {c r : Cardinality} {e : ℕ∞} (hc : c.Is e) (he : e ≠ 0)
    (hres : accumulate .mul f c tys = some r) : r.Is (e * (tuples S tys).encard) := by
  induction tys generalizing c e with
  | nil =>
    cases hres
    rw [encard_tuples_nil, mul_one]
    exact hc
  | cons ty tys ih =>
    obtain ⟨x, hx, hres⟩ := bind_inv hres
    have hx' := hf ty (.head _) x hx
    have hx0 := hx'.encard_ne_zero (hne ty (.head _) x hx)
    rw [encard_tuples_cons, ← mul_assoc]
    exact ih (fun ty' h => hf ty' (mem_cons_of_mem ty h))
      (fun ty' h => hne ty' (mem_cons_of_mem ty h)) (hc.mul hx' he hx0) (mul_ne_zero he hx0)
      hres

/-- The applications of the constructors `ctors`, which are counted from `i` on. -/
def applications (t : Ty) (S : Ty → Set (Value V)) (i : Nat) (ctors : List (List Ty)) :
    Set (Value V) :=
  {v | ∃ c ctor vs, ctors[c]? = some ctor ∧ vs ∈ tuples S ctor ∧ v = .apply t (i + c) vs}

lemma encard_applications_nil (t : Ty) (S : Ty → Set (Value V)) (i : Nat) :
    (applications t S i []).encard = 0 := by
  rw [Set.encard_eq_zero]
  ext v
  refine iff_of_false ?_ id
  rintro ⟨c, ctor, vs, hctor, -⟩
  cases hctor

lemma encard_applications_cons (t : Ty) (S : Ty → Set (Value V)) (i : Nat) (ctor : List Ty)
    (ctors : List (List Ty)) : (applications t S i (ctor :: ctors)).encard =
      (tuples S ctor).encard + (applications t S (i + 1) ctors).encard := by
  have hsplit : applications t S i (ctor :: ctors) =
      (fun vs => .apply t i vs) '' tuples S ctor ∪ applications t S (i + 1) ctors := by
    ext v
    constructor
    · rintro ⟨c, ctor', vs, hctor, hvs, rfl⟩
      cases c with
      | zero =>
        cases hctor
        exact .inl ⟨vs, hvs, rfl⟩
      | succ c => exact .inr ⟨c, ctor', vs, hctor, hvs, by rw [Nat.add_right_comm]; rfl⟩
    · rintro (⟨vs, hvs, rfl⟩ | ⟨c, ctor', vs, hctor, hvs, rfl⟩)
      · exact ⟨0, ctor, vs, rfl, hvs, rfl⟩
      · exact ⟨c + 1, ctor', vs, hctor, hvs, by rw [Nat.add_right_comm]; rfl⟩
  have hdisjoint : Disjoint ((fun vs => Value.apply t i vs) '' tuples S ctor)
      (applications t S (i + 1) ctors) := by
    rw [Set.disjoint_left]
    rintro v ⟨vs, -, rfl⟩ ⟨c, _, vs', -, -, heq⟩
    have hi := (Value.apply.inj heq).2.1
    omega
  have hinj : Function.Injective fun vs : List (Value V) => Value.apply t i vs :=
    fun vs vs' heq => (Value.apply.inj heq).2.2
  rw [hsplit, Set.encard_union_eq hdisjoint, hinj.encard_image]

lemma Cardinality.Is.sum {t : Ty} {f : List Ty → Option Cardinality} {ctors : List (List Ty)}
    (hf : ∀ ctor ∈ ctors, ∀ x, f ctor = some x → x.Is (tuples S ctor).encard) {i : Nat}
    {c r : Cardinality} {e : ℕ∞} (hc : c.Is e) (hres : accumulate .add f c ctors = some r) :
    r.Is (e + (applications t S i ctors).encard) := by
  induction ctors generalizing c e i with
  | nil =>
    cases hres
    rw [encard_applications_nil, add_zero]
    exact hc
  | cons ctor ctors ih =>
    obtain ⟨x, hx, hres⟩ := bind_inv hres
    rw [encard_applications_cons, ← add_assoc]
    exact ih (fun ctor' h => hf ctor' (mem_cons_of_mem ctor h))
      (hc.add (hf ctor (.head _) x hx)) hres

lemma values_data {dt : DType} (hdt : F.datatypes[d]? = some dt) :
    values V F (.data d args) = applications (.data d args)
      (fun ty => values V F (ty.substitute args)) 0 dt.constructors := by
  ext v
  constructor
  · intro h
    cases h with
    | @apply _ c _ dt' ctor vs hdt' hctor hlength hvs =>
      rw [hdt] at hdt'
      cases hdt'
      refine ⟨c, ctor, vs, hctor, List.forall₂_iff_get.2 ⟨hlength, fun i hi hi' => ?_⟩, ?_⟩
      · exact hvs i _ _ (List.getElem?_eq_getElem hi) (List.getElem?_eq_getElem hi')
      · rw [Nat.zero_add]
  · rintro ⟨c, ctor, vs, hctor, hvs, rfl⟩
    rw [Nat.zero_add]
    refine .apply hdt hctor hvs.length_eq fun i v ty hv hty => ?_
    obtain ⟨hi, rfl⟩ := List.getElem?_eq_some_iff.1 hv
    obtain ⟨hi', rfl⟩ := List.getElem?_eq_some_iff.1 hty
    exact (List.forall₂_iff_get.1 hvs).2 i hi hi'

lemma values_other (k : Nat) :
    values V F (.other k) = Set.range fun v : V k => Value.other k v := by
  ext v
  constructor
  · intro h
    cases h with
    | other => exact ⟨_, rfl⟩
  · rintro ⟨v, rfl⟩
    exact .other

/-! ## One datatype -/

section Level

variable {dt : DType} {datatype : Nat → Option Cardinality} {sub : Ty → Ty} {c : Cardinality}

/-- The sum for a datatype, given those of the datatypes below. -/
def level (cardinality : Nat → Cardinality) (datatype : Nat → Option Cardinality) (sub : Ty → Ty)
    (dt : DType) : Option Cardinality :=
  accumulate .add (fun ctor => accumulate .mul (fun ty =>
    Family.argumentCardinality cardinality datatype (sub ty)) (.finite 1) ctor) (.finite 0)
    dt.constructors

def Arguments (cardinality : Nat → Cardinality) (datatype : Nat → Option Cardinality)
    (sub : Ty → Ty) (dt : DType) (P : Ty → Cardinality → Prop) : Prop :=
  ∀ ctor ∈ dt.constructors, ∀ ty ∈ ctor, ∀ x,
    Family.argumentCardinality cardinality datatype (sub ty) = some x → P ty x

def SomeArgument (cardinality : Nat → Cardinality) (datatype : Nat → Option Cardinality)
    (sub : Ty → Ty) (dt : DType) (P : Cardinality → Prop) : Prop :=
  ∃ ctor ∈ dt.constructors, ∃ ty ∈ ctor, ∀ x,
    Family.argumentCardinality cardinality datatype (sub ty) = some x → P x

lemma level_ne_zero (hres : level cardinality datatype sub dt = some c)
    (hctors : dt.constructors ≠ [])
    (hargs : Arguments cardinality datatype sub dt fun _ x => x ≠ .finite 0) : c ≠ .finite 0 := by
  obtain ⟨ctor, hctor⟩ := List.exists_mem_of_ne_nil _ hctors
  refine sum_ne_zero hres ⟨ctor, hctor, fun x hx => ?_⟩
  exact product_ne_zero hx (by simp) (hargs ctor hctor)

lemma level_infinite (hres : level cardinality datatype sub dt = some c)
    (hargs : Arguments cardinality datatype sub dt fun _ x => x ≠ .finite 0)
    (hsome : SomeArgument cardinality datatype sub dt IsInfinite) : c.IsInfinite := by
  obtain ⟨ctor, hctor, hty⟩ := hsome
  refine sum_infinite hres ⟨ctor, hctor, fun x hx => ?_⟩
  exact product_infinite hx (by simp) (hargs ctor hctor) hty

lemma level_is (hdt : F.datatypes[d]? = some dt) (hres : level cardinality datatype sub dt = some c)
    (hargs : Arguments cardinality datatype sub dt fun ty x =>
      x.Is (values V F (ty.substitute args)).encard)
    (hne : Arguments cardinality datatype sub dt fun _ x => x ≠ .finite 0) :
    c.Is (values V F (.data d args)).encard := by
  have hzero : (Cardinality.finite 0).Is 0 := ⟨by decide, rfl⟩
  have hone : (Cardinality.finite 1).Is 1 := ⟨by decide, rfl⟩
  have hsum : c.Is (0 + (applications (.data d args)
      (fun ty => values V F (ty.substitute args)) 0 dt.constructors).encard) := by
    refine Cardinality.Is.sum (fun ctor hctor x hx => ?_) hzero hres
    rw [← one_mul (Set.encard _)]
    exact Cardinality.Is.product (hargs ctor hctor) (hne ctor hctor) hone one_ne_zero hx
  rw [zero_add, ← values_data hdt] at hsum
  exact hsum

end Level

/-! ## What the code counts -/

/-- No datatype is met below itself, and no parameter is met. -/
inductive Plain (F : Family) : List Nat → Nat → Prop
  | mk {path : List Nat} {d : Nat} (hpath : d ∉ path)
      (hparam : ∀ dt, F.datatypes[d]? = some dt → ∀ ctor ∈ dt.constructors, ∀ i, .param i ∉ ctor)
      (hdata : ∀ dt, F.datatypes[d]? = some dt → ∀ ctor ∈ dt.constructors, ∀ e args,
        .data e args ∈ ctor → Plain F (d :: path) e) : Plain F path d

/-- No datatype is met below itself from an instance on, and no parameter of a datatype below. -/
def PlainInstance (F : Family) (d : Nat) (args : List Ty) : Prop :=
  ∀ dt, F.datatypes[d]? = some dt → ∀ ctor ∈ dt.constructors, ∀ ty ∈ ctor, ∀ e args',
    ty.substitute args = .data e args' → Plain F [d] e

lemma encard_values_single {dt : DType} (hdt : F.datatypes[d]? = some dt) {ty : Ty}
    (hctors : dt.constructors = [[ty]]) : (values V F (.data d args)).encard =
      (values V F (ty.substitute args)).encard := by
  rw [values_data hdt, hctors, encard_applications_cons, encard_applications_nil,
    encard_tuples_cons, encard_tuples_nil, mul_one, add_zero]

/-- The cardinalities of types without datatypes are right, and they have values. -/
structure OtherOk (V : Nat → Type) (cardinality : Nat → Cardinality) : Prop where
  nonempty : ∀ k, Nonempty (V k)
  is : ∀ k, (cardinality k).Is (ENat.card (V k))

lemma OtherOk.ne_zero (h : OtherOk V cardinality) (k : Nat) : cardinality k ≠ .finite 0 := by
  refine (h.is k).ne_zero ?_
  have := h.nonempty k
  exact (ENat.card_ne_zero_iff_nonempty (V k)).2 this

lemma encard_values_other (k : Nat) : (values V F (.other k)).encard = ENat.card (V k) := by
  have hinj : Function.Injective fun v : V k => Value.other (V := V) k v := by
    intro v v' heq
    cases heq
    rfl
  rw [values_other, ← Set.image_univ, hinj.encard_image, Set.encard_univ]

lemma OtherOk.is_values (h : OtherOk V cardinality) (k : Nat) :
    (cardinality k).Is (values V F (.other k)).encard := by
  rw [encard_values_other]
  exact h.is k

variable {path : List Nat}

lemma computeCardinality_eq {fuel : Nat} (hpath : d ∉ path) {dt : DType}
    (hdt : F.datatypes[d]? = some dt) :
    F.computeCardinality cardinality d₀ args₀ (fuel + 1) path d =
      level cardinality (F.computeCardinality cardinality d₀ args₀ fuel (d :: path))
        (fun ty => if d = d₀ then ty.substitute args₀ else ty) dt := by
  rw [Family.computeCardinality, if_neg hpath, hdt]
  rfl

lemma computeCardinality_of_mem {fuel : Nat} (hpath : d ∈ path) :
    F.computeCardinality cardinality d₀ args₀ (fuel + 1) path d = some .integers := by
  rw [Family.computeCardinality, if_pos hpath]

/-- What the search counts comes from one of its rounds. -/
lemma exists_level {fuel : Nat} {c : Cardinality}
    (h : F.computeCardinality cardinality d₀ args₀ fuel path d = some c) :
    ∃ n, fuel = n + 1 ∧ (d ∈ path ∧ c = .integers ∨ d ∉ path ∧ ∃ dt, F.datatypes[d]? = some dt ∧
      level cardinality (F.computeCardinality cardinality d₀ args₀ n (d :: path))
        (fun ty => if d = d₀ then ty.substitute args₀ else ty) dt = some c) := by
  cases fuel with
  | zero => cases h
  | succ n =>
    refine ⟨n, rfl, ?_⟩
    by_cases hpath : d ∈ path
    · rw [computeCardinality_of_mem hpath] at h
      cases h
      exact .inl ⟨hpath, rfl⟩
    cases hdt : F.datatypes[d]? with
    | none =>
      rw [Family.computeCardinality, if_neg hpath, hdt] at h
      cases h
    | some dt =>
      rw [computeCardinality_eq hpath hdt] at h
      exact .inr ⟨hpath, dt, rfl, h⟩

lemma exists_level_of_mem {fuel : Nat} (hd0 : d₀ ∈ path) {c : Cardinality}
    (h : F.computeCardinality cardinality d₀ args₀ fuel path d = some c) :
    ∃ n, fuel = n + 1 ∧ (d ∈ path ∧ c = .integers ∨ d ∉ path ∧ ∃ dt, F.datatypes[d]? = some dt ∧
      level cardinality (F.computeCardinality cardinality d₀ args₀ n (d :: path))
        (fun ty => ty) dt = some c) := by
  obtain ⟨n, hn, hcase⟩ := exists_level h
  refine ⟨n, hn, hcase.imp_right fun ⟨hpath, dt, hdt, hlevel⟩ => ⟨hpath, dt, hdt, ?_⟩⟩
  have hne : d ≠ d₀ := fun heq => hpath (heq ▸ hd0)
  have hsub : (fun ty : Ty => if d = d₀ then ty.substitute args₀ else ty) = fun ty => ty :=
    funext fun _ => if_neg hne
  rw [hsub] at hlevel
  exact hlevel

lemma exists_computeCardinality (hok : (Ty.data d₀ args₀).Ok F.datatypes 0) (n : Nat)
    (hn : F.datatypes.length ≤ n + path.length) (hnodup : path.Nodup)
    (hlt : ∀ p ∈ path, p < F.datatypes.length) (hd : d < F.datatypes.length) :
    ∃ c, F.computeCardinality cardinality d₀ args₀ (n + 1) path d = some c := by
  induction n generalizing path d with
  | zero =>
    refine ⟨.integers, computeCardinality_of_mem ?_⟩
    have hsub : path.toFinset ⊆ Finset.range F.datatypes.length :=
      fun p hp => Finset.mem_range.2 (hlt p (List.mem_toFinset.1 hp))
    have heq : path.toFinset = Finset.range F.datatypes.length := by
      refine Finset.eq_of_subset_of_card_le hsub ?_
      rw [List.toFinset_card_of_nodup hnodup, Finset.card_range]
      omega
    exact List.mem_toFinset.1 (heq ▸ Finset.mem_range.2 hd)
  | succ n ih =>
    by_cases hpath : d ∈ path
    · exact ⟨.integers, computeCardinality_of_mem hpath⟩
    have hdt := List.getElem?_eq_getElem hd
    rw [computeCardinality_eq hpath hdt]
    refine exists_accumulate fun ctor hctor => exists_accumulate fun ty hty => ?_
    obtain ⟨c, hc⟩ := List.getElem?_of_mem hctor
    -- A datatype among the arguments belongs to the family.
    have hbelow : ∀ e args, (if d = d₀ then ty.substitute args₀ else ty) = .data e args →
        e < F.datatypes.length := by
      intro e args heq
      have hdata : ∀ {m : Nat}, (Ty.data e args).Ok F.datatypes m → e < F.datatypes.length := by
        intro m h
        obtain ⟨⟨dt, hdt, _⟩, _⟩ := Ty.ok_data_iff.1 h
        exact (List.getElem?_eq_some_iff.1 hdt).1
      by_cases hd0 : d = d₀
      · subst hd0
        rw [if_pos rfl] at heq
        exact hdata (heq ▸ F.ok_argument hok hdt hc hty)
      · rw [if_neg hd0] at heq
        exact hdata (heq ▸ F.ok_ctor hdt hc hty)
    beta_reduce
    cases hty' : (if d = d₀ then ty.substitute args₀ else ty) with
    | other k => exact ⟨_, rfl⟩
    | param i => exact ⟨_, rfl⟩
    | data e args =>
      refine ih ?_ (List.nodup_cons.2 ⟨hpath, hnodup⟩) ?_ (hbelow e args hty')
      · rw [List.length_cons]
        omega
      intro p hp
      cases hp with
      | head => exact hd
      | tail _ hp => exact hlt p hp

section Right

variable (hV : OtherOk V cardinality)

include hV

lemma argument_ne_zero {datatype : Nat → Option Cardinality}
    (hdatatype : ∀ e x, datatype e = some x → x ≠ .finite 0) {ty : Ty} {x : Cardinality}
    (hx : Family.argumentCardinality cardinality datatype ty = some x) : x ≠ .finite 0 := by
  cases ty with
  | other k =>
    cases hx
    exact hV.ne_zero k
  | param i =>
    cases hx
    exact IsInfinite.ne_zero trivial
  | data e args => exact hdatatype e x hx

variable {c : Cardinality} {fuel : Nat}

lemma computeCardinality_ne_zero {path : List Nat}
    (h : F.computeCardinality cardinality d₀ args₀ fuel path d = some c) : c ≠ .finite 0 := by
  induction fuel generalizing path d c with
  | zero => cases h
  | succ fuel ih =>
    obtain ⟨n, hn, hcase⟩ := exists_level h
    cases hn
    rcases hcase with ⟨-, rfl⟩ | ⟨hpath, dt, hdt, hlevel⟩
    · exact IsInfinite.ne_zero trivial
    · exact level_ne_zero hlevel (F.nonempty dt (List.mem_of_getElem? hdt))
        fun _ _ _ _ _ hx => argument_ne_zero hV (fun _ _ => ih) hx

/-- Where a datatype is met below itself, or a parameter, the code counts infinitely many. -/
lemma computeCardinality_infinite {path : List Nat} (hd0 : d₀ ∈ path)
    (h : F.computeCardinality cardinality d₀ args₀ fuel path d = some c)
    (hplain : ¬ Plain F path d) : c.IsInfinite := by
  induction fuel generalizing path d c with
  | zero => cases h
  | succ fuel ih =>
    obtain ⟨n, hn, hcase⟩ := exists_level_of_mem hd0 h
    cases hn
    rcases hcase with ⟨-, rfl⟩ | ⟨hpath, dt, hdt, hlevel⟩
    · trivial
    refine level_infinite hlevel (fun _ _ _ _ _ hx => argument_ne_zero hV
      (fun _ _ => computeCardinality_ne_zero hV) hx) ?_
    by_contra hnone
    refine hplain (.mk hpath ?_ ?_)
    · intro dt' hdt' ctor hctor i hmem
      rw [hdt] at hdt'
      cases hdt'
      refine hnone ⟨ctor, hctor, _, hmem, fun x hx => ?_⟩
      cases hx
      trivial
    intro dt' hdt' ctor hctor e args hmem
    rw [hdt] at hdt'
    cases hdt'
    by_contra hbelow
    exact hnone ⟨ctor, hctor, _, hmem, fun x hx =>
      ih (mem_cons_of_mem d hd0) hx hbelow⟩

/-- Elsewhere what it counts is right, whatever the instance is. -/
lemma computeCardinality_is {path : List Nat} (hd0 : d₀ ∈ path)
    (h : F.computeCardinality cardinality d₀ args₀ fuel path d = some c) (hplain : Plain F path d)
    (args : List Ty) : c.Is (values V F (.data d args)).encard := by
  induction fuel generalizing path d c args with
  | zero => cases h
  | succ fuel ih =>
    obtain ⟨n, hn, hcase⟩ := exists_level_of_mem hd0 h
    cases hn
    obtain ⟨hpath, hparam, hdata⟩ := hplain
    rcases hcase with ⟨hmem, -⟩ | ⟨-, dt, hdt, hlevel⟩
    · exact absurd hmem hpath
    refine level_is hdt hlevel ?_ fun _ _ _ _ _ hx => argument_ne_zero hV
      (fun _ _ => computeCardinality_ne_zero hV) hx
    intro ctor hctor ty hty x hx
    cases ty with
    | other k =>
      cases hx
      exact hV.is_values k
    | param i => exact absurd hty (hparam dt hdt ctor hctor i)
    | data e args' =>
      rw [Ty.substitute, Ty.substituteAll_eq_map]
      exact ih (mem_cons_of_mem d hd0) hx (hdata dt hdt ctor hctor e args' hty) _

lemma computeCardinality_instance (hok : (Ty.data d args).Ok F.datatypes 0)
    (h : F.computeCardinality cardinality d args fuel [] d = some c) :
    (PlainInstance F d args → c.Is (values V F (.data d args)).encard) ∧
      (¬ PlainInstance F d args → c.IsInfinite) := by
  obtain ⟨n, -, hcase⟩ := exists_level h
  rcases hcase with ⟨hmem, -⟩ | ⟨-, dt, hdt, hlevel⟩
  · cases hmem
  have hsub : (fun ty : Ty => if d = d then ty.substitute args else ty) =
      fun ty => ty.substitute args := funext fun _ => if_pos rfl
  rw [hsub] at hlevel
  have hne : Arguments cardinality (F.computeCardinality cardinality d args n [d])
      (fun ty => ty.substitute args) dt fun _ x => x ≠ .finite 0 :=
    fun _ _ _ _ _ hx => argument_ne_zero hV (fun _ _ => computeCardinality_ne_zero hV) hx
  constructor
  · intro hplain
    refine level_is hdt hlevel (fun ctor hctor ty hty x hx => ?_) hne
    obtain ⟨i, hi⟩ := List.getElem?_of_mem hctor
    have hty' := F.ok_argument hok hdt hi hty
    cases harg : ty.substitute args with
    | other k =>
      rw [harg] at hx
      cases hx
      exact hV.is_values k
    | param i =>
      rw [harg] at hty'
      exact absurd hty' (Nat.not_lt_zero i)
    | data e args' =>
      rw [harg] at hx
      exact computeCardinality_is hV mem_cons_self hx
        (hplain dt hdt ctor hctor ty hty e args' harg) args'
  · intro hplain
    refine level_infinite hlevel hne ?_
    by_contra hnone
    refine hplain fun dt' hdt' ctor hctor ty hty e args' harg => ?_
    rw [hdt] at hdt'
    cases hdt'
    by_contra hbelow
    refine hnone ⟨ctor, hctor, ty, hty, fun x hx => ?_⟩
    beta_reduce at hx
    rw [harg] at hx
    exact computeCardinality_infinite hV mem_cons_self hx hbelow

end Right

/-! ## When it is right -/

/-- `getCardinality` returns the number of values of the instance `args` of `d`, or that there are
infinitely many. -/
def CardinalityRight (V : Nat → Type) (F : Family) (cardinality : Nat → Cardinality) (d : Nat)
    (args : List Ty) : Prop :=
  ∃ fuel c, F.computeCardinality cardinality d args fuel [] d = some c ∧
    (∀ n < 2 ^ 64, c = .finite n ↔ (values V F (.data d args)).encard = n) ∧
      (c.IsInfinite ↔ (values V F (.data d args)).Infinite)

/-- The cardinality is right if and only if there are infinitely many values, or no datatype is met
below itself and no parameter of a datatype below. -/
theorem cardinalityRight_iff (hV : OtherOk V cardinality)
    (hok : (Ty.data d args).Ok F.datatypes 0) :
    CardinalityRight V F cardinality d args ↔
      (values V F (.data d args)).Infinite ∨ PlainInstance F d args := by
  constructor
  · rintro ⟨fuel, c, hc, -, hinfinite⟩
    by_cases hplain : PlainInstance F d args
    · exact .inr hplain
    · exact .inl (hinfinite.1 ((computeCardinality_instance hV hok hc).2 hplain))
  intro h
  obtain ⟨⟨dt, hdt, _⟩, _⟩ := Ty.ok_data_iff.1 hok
  obtain ⟨c, hc⟩ : ∃ c, F.computeCardinality cardinality d args (F.datatypes.length + 1) [] d =
      some c :=
    exists_computeCardinality hok F.datatypes.length (Nat.le_add_right _ _) List.nodup_nil
      (fun _ hp => absurd hp List.not_mem_nil) (List.getElem?_eq_some_iff.1 hdt).1
  refine ⟨_, c, hc, ?_⟩
  rw [← Set.encard_eq_top_iff]
  by_cases hplain : PlainInstance F d args
  · have his := (computeCardinality_instance hV hok hc).1 hplain
    exact ⟨fun n hn => his.finite_iff hn, his.infinite_iff⟩
  have hinf := (computeCardinality_instance hV hok hc).2 hplain
  have htop := Set.encard_eq_top_iff.2 (h.resolve_right hplain)
  refine ⟨fun n _ => iff_of_false ?_ ?_, iff_of_true hinf htop⟩
  · rintro rfl
    exact hinf
  · rw [htop]
    exact (ENat.natCast_ne_top n).symm

/-- `D = d(Box<B>)` and `Box<X> = box(X)`. -/
def boxed : Family where
  datatypes := [⟨0, [[.data 1 [.other 0]]]⟩, ⟨1, [[.param 0]]⟩]
  nonempty := by simp
  ok := by simp [Ty.Ok, Ty.OkAll]

lemma otherOk_bool : OtherOk (fun _ => Bool) fun _ => .finite 2 :=
  ⟨fun _ => ⟨true⟩, fun _ => ⟨by decide, by simp⟩⟩

/-- `Box<B>` has two values. -/
theorem cardinalityRight_iff_box :
    CardinalityRight (fun _ => Bool) boxed (fun _ => .finite 2) 1 [.other 0] := by
  refine (cardinalityRight_iff otherOk_bool ?_).2 (.inr ?_)
  · exact Ty.ok_data_iff.2 ⟨⟨_, rfl, rfl⟩, fun ty hty => List.mem_singleton.1 hty ▸ trivial⟩
  intro dt hdt ctor hctor ty hty e args' heq
  cases hdt
  cases List.mem_singleton.1 hctor
  cases List.mem_singleton.1 hty
  cases heq

/-- The values of `D` are counted as infinitely many, because the parameter of `Box` is met. -/
theorem boxed_not_cardinalityRight :
    ¬ CardinalityRight (fun _ => Bool) boxed (fun _ => .finite 2) 0 [] := by
  have hok : (Ty.data 0 []).Ok boxed.datatypes 0 :=
    Ty.ok_data_iff.2 ⟨⟨_, rfl, rfl⟩, fun _ hty => absurd hty List.not_mem_nil⟩
  rintro ⟨fuel, c, hc, hfinite, hinfinite⟩
  have hplain : ¬ PlainInstance boxed 0 [] := by
    intro h
    obtain ⟨_, hparam, _⟩ := h _ rfl _ mem_cons_self _ (.head _) 1 [.other 0] rfl
    exact hparam _ rfl _ (.head _) 0 (.head _)
  have hvalues : (values (fun _ => Bool) boxed (.data 0 [])).Infinite :=
    hinfinite.1 ((computeCardinality_instance otherOk_bool hok hc).2 hplain)
  have hD : boxed.datatypes[0]? = some ⟨0, [[.data 1 [.other 0]]]⟩ := rfl
  have hBox : boxed.datatypes[1]? = some ⟨1, [[.param 0]]⟩ := rfl
  have hcount : (values (fun _ => Bool) boxed (.data 0 [])).encard = ENat.card Bool := by
    rw [encard_values_single hD rfl]
    change (values (fun _ => Bool) boxed (.data 1 [.other 0])).encard = _
    rw [encard_values_single hBox rfl]
    exact encard_values_other 0
  rw [← Set.encard_eq_top_iff, hcount] at hvalues
  exact absurd hvalues (by simp)

end EthosCpc.Cvc5.Datatypes
