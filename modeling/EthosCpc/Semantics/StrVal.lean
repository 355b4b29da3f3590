import EthosCpc.Semantics.Arith

/-!
# Values of string and regular expression terms

`SeqVal`, `StrVal` and `ReVal` name the value of a term of sequence, string
and regular expression type.  For every operator of the theory there is one
lemma that says what the values of its applications are, as an equivalence,
so that a proof can take a term apart and put it together.
-/

namespace EthosCpc

open Term (bop uop)
open Library Computability

variable {Γ : Nat → Ty} (I : Interp Γ)

def SeqVal (T : Ty) (t : Term) (l : List (Dom I.U T)) : Prop := value I t = some (Val.seq T l)

def StrVal (t : Term) (s : Str) : Prop := value I t = some (Val.str s)

def IntVal (t : Term) (z : Int) : Prop := value I t = some (Val.int z)

/-- The value of a regular expression. -/
def ReVal (r : Term) (L : RegLan) : Prop := value I r = some (Val.reglan L)

variable {I} {a b r t : Term}

lemma SeqVal.unique {T : Ty} {l l' : List (Dom I.U T)} (h : SeqVal I T t l)
    (h' : SeqVal I T t l') : l = l' := Val.mk_inj.1 (Option.some.inj (h.symm.trans h'))

lemma StrVal.unique {s s' : Str} (h : StrVal I t s) (h' : StrVal I t s') : s = s' :=
  Val.mk_inj.1 (Option.some.inj (h.symm.trans h'))

lemma IntVal.unique {z z' : Int} (h : IntVal I t z) (h' : IntVal I t z') : z = z' :=
  Val.mk_inj.1 (Option.some.inj (h.symm.trans h'))

lemma ReVal.unique {L L' : RegLan} (h : ReVal I t L) (h' : ReVal I t L') : L = L' :=
  Val.mk_inj.1 (Option.some.inj (h.symm.trans h'))

@[simp] lemma strVal_str {s s' : Str} : StrVal I (.str s) s' ↔ s' = s := by
  constructor
  · intro h
    exact h.unique rfl
  · rintro rfl
    rfl

@[simp] lemma intVal_num {z z' : Int} : IntVal I (.num z) z' ↔ z' = z := by
  constructor
  · intro h
    exact h.unique rfl
  · rintro rfl
    rfl

lemma strVal_of_typeof (h : typeof Γ t = some (.seq .char)) : ∃ s, StrVal I t s :=
  value_of_typeof I h

lemma reVal_of_typeof (h : typeof Γ r = some .reglan) : ∃ L, ReVal I r L :=
  value_of_typeof I h

lemma seqVal_concat {T : Ty} {l : List (Dom I.U T)} :
    SeqVal I T (bop .strConcat a b) l ↔ ∃ x y, SeqVal I T a x ∧ SeqVal I T b y ∧ l = x ++ y := by
  constructor
  · intro h
    obtain ⟨v, v', ha, hb, hval⟩ := value_bop_inv I rfl h
    obtain ⟨S, x, y, heq, hl⟩ := vSeq2_inv hval
    obtain rfl : T = S := Ty.seq.inj (congrArg Sigma.fst hl)
    cases heq
    exact ⟨x, y, ha, hb, Val.mk_inj.1 hl⟩
  · rintro ⟨x, y, ha, hb, rfl⟩
    show value I (bop .strConcat a b) = _
    rw [value_bop I rfl, show value I a = _ from ha, show value I b = _ from hb]
    simp [symVal.eq_def, vSeq2]

lemma strVal_concat {s : Str} :
    StrVal I (bop .strConcat a b) s ↔ ∃ x y, StrVal I a x ∧ StrVal I b y ∧ s = x ++ y :=
  seqVal_concat (T := .char)

/-! ## Lengths and positions -/

section Positions

variable {T : Ty} {l l' : List (Dom I.U T)} {n m : Int} {p q : Term}

lemma intVal_strLen (ht : SeqVal I T t l) : IntVal I (uop .strLen t) l.length := by
  unfold IntVal
  rw [value_uop I rfl, show value I t = _ from ht]
  rfl

lemma intVal_minus (hp : IntVal I p n) (hq : IntVal I q m) : IntVal I (bop .minus p q) (n - m) := by
  unfold IntVal
  rw [value_bop I rfl, show value I p = _ from hp, show value I q = _ from hq]
  rfl

lemma seqVal_substr (ht : SeqVal I T t l) (hp : IntVal I p n) (hq : IntVal I q m) :
    SeqVal I T (.app (bop .strSubstr t p) q) (Words.substr l n m) := by
  unfold SeqVal
  rw [value_top I rfl, show value I t = _ from ht, show value I p = _ from hp,
    show value I q = _ from hq]
  rfl

lemma strVal_substr {s : Str} (ht : StrVal I t s) (hp : IntVal I p n) (hq : IntVal I q m) :
    StrVal I (.app (bop .strSubstr t p) q) (Words.substr s n m) :=
  seqVal_substr (T := .char) ht hp hq

lemma intVal_strLen_str {s : Str} (ht : StrVal I t s) : IntVal I (uop .strLen t) s.length :=
  intVal_strLen (T := .char) ht

lemma boolVal_seqEq (ha : SeqVal I T a l) (hb : SeqVal I T b l') :
    BoolVal I (bop .eq a b) (l = l') := by
  unfold BoolVal
  rw [value_bop I rfl, show value I a = _ from ha, show value I b = _ from hb]
  simp only [Option.bind_some, symVal.eq_def, vEq, dif_pos]
  rfl

lemma boolVal_strEq {s s' : Str} (ha : StrVal I a s) (hb : StrVal I b s') :
    BoolVal I (bop .eq a b) (s = s') :=
  boolVal_seqEq (T := .char) ha hb

lemma boolVal_intEq (hp : IntVal I p n) (hq : IntVal I q m) : BoolVal I (bop .eq p q) (n = m) :=
  (boolVal_arithEq (arithVal_int hp) (arithVal_int hq)).congr Int.cast_inj

lemma boolVal_intLt (hp : IntVal I p n) (hq : IntVal I q m) : BoolVal I (bop .lt p q) (n < m) :=
  (boolVal_lt (arithVal_int hp) (arithVal_int hq)).congr Int.cast_lt

lemma boolVal_intLeq (hp : IntVal I p n) (hq : IntVal I q m) : BoolVal I (bop .leq p q) (n ≤ m) :=
  (boolVal_leq (arithVal_int hp) (arithVal_int hq)).congr Int.cast_le

lemma boolVal_intGeq (hp : IntVal I p n) (hq : IntVal I q m) : BoolVal I (bop .geq p q) (n ≥ m) :=
  (boolVal_geq (arithVal_int hp) (arithVal_int hq)).congr Int.cast_le

lemma boolVal_intGt (hp : IntVal I p n) (hq : IntVal I q m) : BoolVal I (bop .gt p q) (n > m) :=
  (boolVal_gt (arithVal_int hp) (arithVal_int hq)).congr Int.cast_lt

/-! ### Integer operators -/

lemma intVal_op2_iff {s : Sym} {z : Int} {f : Int → Int → Int} {g : ℝ → ℝ → ℝ} (hs : s.arity = 2)
    (hv : symVal I s = vArith2 f g) :
    IntVal I (bop s a b) z ↔ ∃ x y, IntVal I a x ∧ IntVal I b y ∧ z = f x y := by
  constructor
  · intro h
    obtain ⟨va, vb, ha, hb, h⟩ := value_bop_inv I hs h
    rw [hv] at h
    rcases vArith2_inv h with ⟨m, n, heq, hr⟩ | ⟨m, n, heq, hr⟩
    · cases heq
      exact ⟨m, n, ha, hb, Val.mk_inj.1 hr⟩
    · cases congrArg Sigma.fst hr
  · rintro ⟨x, y, hx, hy, rfl⟩
    unfold IntVal
    rw [value_bop I hs, show value I a = _ from hx, show value I b = _ from hy, hv]
    rfl

lemma intVal_plus_iff :
    IntVal I (bop .plus a b) z ↔ ∃ x y, IntVal I a x ∧ IntVal I b y ∧ z = x + y :=
  intVal_op2_iff (f := fun x y => x + y) rfl rfl

lemma intVal_minus_iff :
    IntVal I (bop .minus a b) z ↔ ∃ x y, IntVal I a x ∧ IntVal I b y ∧ z = x - y :=
  intVal_op2_iff (f := fun x y => x - y) rfl rfl

lemma intVal_times_iff :
    IntVal I (bop .times a b) z ↔ ∃ x y, IntVal I a x ∧ IntVal I b y ∧ z = x * y :=
  intVal_op2_iff (f := fun x y => x * y) rfl rfl

end Positions

/-! ## Regular expressions -/

section RegularExpressions

variable {L : RegLan}

lemma reVal_bop {s : Sym} {f : RegLan → RegLan → RegLan} (hs : s.arity = 2)
    (hv : symVal I s = vReglan2 f) :
    ReVal I (bop s a b) L ↔ ∃ A B, ReVal I a A ∧ ReVal I b B ∧ L = f A B := by
  constructor
  · intro h
    obtain ⟨v, v', ha, hb, hval⟩ := value_bop_inv I hs h
    rw [hv] at hval
    obtain ⟨A, B, heq, hL⟩ := vReglan2_inv hval
    cases heq
    exact ⟨A, B, ha, hb, Val.mk_inj.1 hL⟩
  · rintro ⟨A, B, ha, hb, rfl⟩
    show value I (bop s a b) = _
    rw [value_bop I hs, show value I a = _ from ha, show value I b = _ from hb, hv]
    rfl

lemma reVal_uop {s : Sym} {f : RegLan → RegLan} (hs : s.arity = 1) (hv : symVal I s = vReglan1 f) :
    ReVal I (uop s a) L ↔ ∃ A, ReVal I a A ∧ L = f A := by
  constructor
  · intro h
    obtain ⟨v, ha, hval⟩ := value_uop_inv I hs h
    rw [hv] at hval
    obtain ⟨A, heq, hL⟩ := vReglan1_inv hval
    cases heq
    exact ⟨A, ha, Val.mk_inj.1 hL⟩
  · rintro ⟨A, ha, rfl⟩
    show value I (uop s a) = _
    rw [value_uop I hs, show value I a = _ from ha, hv]
    rfl

lemma reVal_concat : ReVal I (bop .reConcat a b) L ↔ ∃ A B, ReVal I a A ∧ ReVal I b B ∧ L = A * B :=
  reVal_bop rfl rfl

lemma reVal_union : ReVal I (bop .reUnion a b) L ↔ ∃ A B, ReVal I a A ∧ ReVal I b B ∧ L = A + B :=
  reVal_bop rfl rfl

lemma reVal_inter : ReVal I (bop .reInter a b) L ↔
      ∃ A B, ReVal I a A ∧ ReVal I b B ∧ L = (A ∩ B : Set Str) :=
  reVal_bop rfl rfl

lemma reVal_comp : ReVal I (uop .reComp a) L ↔ ∃ A, ReVal I a A ∧ L = Aᶜ :=
  reVal_uop rfl rfl

lemma reVal_star : ReVal I (uop .reStar a) L ↔ ∃ A, ReVal I a A ∧ L = A∗ :=
  reVal_uop rfl rfl

lemma reVal_none : ReVal I (.sym .reNone) L ↔ L = 0 := by
  constructor
  · intro h
    exact h.unique (I := I) (t := .sym .reNone) rfl
  · rintro rfl
    rfl

lemma reVal_all : ReVal I (.sym .reAll) L ↔ L = (⊤ : Set Str) := by
  constructor
  · intro h
    exact h.unique (I := I) (t := .sym .reAll) rfl
  · rintro rfl
    rfl

lemma reVal_allchar : ReVal I (.sym .reAllchar) L ↔ L = reAllchar := by
  constructor
  · intro h
    exact h.unique (I := I) (t := .sym .reAllchar) rfl
  · rintro rfl
    rfl

lemma reVal_strToRe : ReVal I (uop .strToRe a) L ↔ ∃ s, StrVal I a s ∧ L = ({s} : Set Str) := by
  constructor
  · intro h
    obtain ⟨v, ha, hval⟩ := value_uop_inv I rfl h
    obtain ⟨s, heq, hL⟩ := vStrToRe_inv hval
    cases heq
    exact ⟨s, ha, Val.mk_inj.1 hL⟩
  · rintro ⟨s, ha, rfl⟩
    show value I (uop .strToRe a) = _
    rw [value_uop I rfl, show value I a = _ from ha]
    rfl

lemma reVal_range :
    ReVal I (bop .reRange a b) L ↔ ∃ s t, StrVal I a s ∧ StrVal I b t ∧ L = reRange s t := by
  constructor
  · intro h
    obtain ⟨v, v', ha, hb, hval⟩ := value_bop_inv I rfl h
    obtain ⟨s, t, heq, hL⟩ := vStr2_inv hval
    cases heq
    exact ⟨s, t, ha, hb, Val.mk_inj.1 hL⟩
  · rintro ⟨s, t, ha, hb, rfl⟩
    show value I (bop .reRange a b) = _
    rw [value_bop I rfl, show value I a = _ from ha, show value I b = _ from hb]
    rfl

lemma reVal_loop {n m : Int} {p q : Term} {A : RegLan} (hp : IntVal I p n) (hq : IntVal I q m)
    (hr : ReVal I r A) : ReVal I (.app (bop .reLoop p q) r) (reLoop n m A) := by
  unfold ReVal
  rw [value_top I rfl, show value I p = _ from hp, show value I q = _ from hq,
    show value I r = _ from hr]
  rfl

lemma reVal_empty : ReVal I (uop .strToRe (.str [])) L ↔ L = 1 := by
  rw [reVal_strToRe]
  constructor
  · rintro ⟨s, hs, rfl⟩
    rw [strVal_str.1 hs]
    rfl
  · rintro rfl
    exact ⟨[], rfl, rfl⟩

lemma boolVal_inRe {s : Str} (ht : StrVal I t s) (hr : ReVal I r L) :
    BoolVal I (bop .strInRe t r) (s ∈ L) := by
  unfold BoolVal
  rw [value_bop I rfl, show value I t = _ from ht, show value I r = _ from hr]
  rfl

lemma sat_inRe : Sat I (bop .strInRe t r) ↔ ∃ s L, StrVal I t s ∧ ReVal I r L ∧ s ∈ L := by
  constructor
  · intro h
    obtain ⟨v, v', ht, hr, hval⟩ := value_bop_inv I rfl h
    obtain ⟨s, L, heq, hb⟩ := vStrRe_inv hval
    cases heq
    exact ⟨s, L, ht, hr, truth_eq_true.1 (Val.bool_inj.1 hb).symm⟩
  · rintro ⟨s, L, ht, hr, hmem⟩
    exact (boolVal_inRe ht hr).sat.2 hmem

lemma sat_not_inRe :
    Sat I (uop .not (bop .strInRe t r)) ↔ ∃ s L, StrVal I t s ∧ ReVal I r L ∧ s ∉ L := by
  rw [sat_not]
  constructor
  · intro h
    obtain ⟨v, v', ht, hr, hval⟩ := value_bop_inv I rfl h
    obtain ⟨s, L, heq, hb⟩ := vStrRe_inv hval
    cases heq
    exact ⟨s, L, ht, hr, fun hmem => (h.unique (boolVal_inRe ht hr)).2 hmem⟩
  · rintro ⟨s, L, ht, hr, hmem⟩
    exact (boolVal_inRe ht hr).congr (iff_of_false hmem id)

lemma intVal_indexofRe {s : Str} {n : Int} (ha : StrVal I a s) (hr : ReVal I r L)
    (hb : IntVal I b n) :
    IntVal I (.app (bop .strIndexofRe a r) b) (indexofRe s L n) := by
  unfold IntVal
  rw [value_top I rfl, show value I a = _ from ha, show value I r = _ from hr,
    show value I b = _ from hb]
  rfl

lemma strVal_replaceRe {s u : Str} (ha : StrVal I a s) (hr : ReVal I r L) (hb : StrVal I b u) :
    StrVal I (.app (bop .strReplaceRe a r) b) (replaceRe s L u) := by
  unfold StrVal
  rw [value_top I rfl, show value I a = _ from ha, show value I r = _ from hr,
    show value I b = _ from hb]
  rfl

lemma strVal_replaceReAll {s u : Str} (ha : StrVal I a s) (hr : ReVal I r L) (hb : StrVal I b u) :
    StrVal I (.app (bop .strReplaceReAll a r) b) (replaceReAll s L u) := by
  unfold StrVal
  rw [value_top I rfl, show value I a = _ from ha, show value I r = _ from hr,
    show value I b = _ from hb]
  rfl

end RegularExpressions

end EthosCpc
